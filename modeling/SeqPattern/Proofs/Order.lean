import SeqPattern.Store
/-!
# The order of symbols and sequences, and the answers of a store

Symbols compare by variant first and then by payload, and sequences compare
lexicographically. Both are lawful total orders in the sense of `Std.TransCmp` and
`Std.LawfulEqCmp`: the comparison turns round when its arguments do, it is transitive,
and it says `.eq` only of equal values. For symbols the proof splits on the variant:
across variants the comparison is that of the variants' positions, and within one it is
the payload's own order, which the standard library has shown lawful. For sequences
the comparison is the library's `List.compareLex` of the symbol order, and the laws
come with it.

A store answers a query with its entries' one-symbol extensions of the queried
prefix, sorted and with repeats dropped. With a lawful order the answer is strictly
increasing, and its members are exactly the extensions: an entry that strictly extends
the prefix gives its next symbol, and an entry equal to the prefix gives the terminator.

Main statements: `Store.mem_extensions`, `Store.extensions_sorted` and
`Store.extensions_exact`.
-/

namespace SeqPattern

open Std

namespace Symbol

/-! ## Symbols -/

/-- Across variants, symbols compare by the position of their variant. -/
theorem cmp_of_rank_ne {a b : Symbol} (h : a.rank ≠ b.rank) :
    cmp a b = compare a.rank b.rank := by
  cases a <;> cases b <;> simp_all [cmp, rank]

/-- A symbol at most another has a variant no later than the other's. -/
theorem rank_le_of_isLE {a b : Symbol} (h : (cmp a b).isLE = true) : a.rank ≤ b.rank := by
  refine Nat.not_lt.mp fun hlt => ?_
  rw [cmp_of_rank_ne (Nat.ne_of_gt hlt), Nat.compare_eq_gt.mpr hlt] at h
  cases h

instance : OrientedCmp cmp where
  eq_swap {a b} := by
    cases a <;> cases b <;> dsimp only [cmp, rank] <;> exact OrientedCmp.eq_swap

instance : TransCmp cmp where
  isLE_trans {a b c} hab hbc := by
    have hrab := rank_le_of_isLE hab
    have hrbc := rank_le_of_isLE hbc
    by_cases hrac : a.rank = c.rank
    · -- the three symbols share a variant, whose payload order is transitive
      cases a <;> cases b <;> cases c <;> simp [rank] at hrab hrbc hrac <;>
        dsimp only [cmp, rank] at hab hbc ⊢ <;> exact TransCmp.isLE_trans hab hbc
    · have hlt : a.rank < c.rank := Nat.lt_of_le_of_ne (Nat.le_trans hrab hrbc) hrac
      rw [cmp_of_rank_ne hrac, Nat.compare_eq_lt.mpr hlt]
      rfl

instance : LawfulEqCmp cmp where
  eq_of_compare {a b} h := by
    cases a <;> cases b <;> simp [cmp, rank, Char.ext_iff] at h ⊢ <;> exact h

/-! ## Sequences -/

/-- The order of sequences is the lexicographic extension of the order of symbols. -/
theorem cmpSeq_eq_compareLex : cmpSeq = List.compareLex cmp := by
  funext xs ys
  induction xs generalizing ys with
  | nil => cases ys <;> rfl
  | cons x xs ih =>
    cases ys with
    | nil => rfl
    | cons y ys =>
      rw [cmpSeq, List.compareLex_cons_cons, ← ih]
      cases cmp x y <;> rfl

instance : TransCmp cmpSeq := cmpSeq_eq_compareLex ▸ inferInstance

instance : LawfulEqCmp cmpSeq := cmpSeq_eq_compareLex ▸ inferInstance

/-- Two sequences of one length that differ are ordered as their prefixes of that length,
whatever follows them. -/
theorem cmpSeq_append_of_length_eq {xs ys : List Symbol} (us vs : List Symbol)
    (hlen : xs.length = ys.length) (hne : cmpSeq xs ys ≠ .eq) :
    cmpSeq (xs ++ us) (ys ++ vs) = cmpSeq xs ys := by
  induction xs generalizing ys with
  | nil =>
    cases ys with
    | nil => exact absurd rfl hne
    | cons y ys => cases hlen
  | cons x xs ih =>
    cases ys with
    | nil => cases hlen
    | cons y ys =>
      simp only [List.cons_append, cmpSeq] at hne ⊢
      split
      · rename_i hxy
        rw [hxy] at hne
        exact ih (Nat.succ.inj hlen) hne
      · rfl

end Symbol

open SeqPattern.Symbol

namespace Store

/-! ## Answers of a store -/

/-- Dropping the repeats of a sorted list leaves a strictly increasing list of the same
members. The induction follows `dedupSorted`: two equal neighbours are one value, and
a head strictly below its neighbour is strictly below everything after it. -/
theorem dedupSorted_spec :
    ∀ {xs : List (List Symbol)}, xs.Pairwise (fun x y => (cmpSeq x y).isLE = true) →
      (dedupSorted xs).Pairwise (fun x y => cmpSeq x y = .lt) ∧
        ∀ z, z ∈ dedupSorted xs ↔ z ∈ xs
  | x :: y :: rest, hs => by
    obtain ⟨hx, hrest⟩ := List.pairwise_cons.mp hs
    obtain ⟨ih, hmem⟩ := dedupSorted_spec hrest
    unfold dedupSorted
    split
    · rename_i hxy
      have hxy : x = y := LawfulEqCmp.eq_of_compare hxy
      subst hxy
      exact ⟨ih, fun z => by simp [hmem]⟩
    · rename_i hxy
      have hlt : cmpSeq x y = .lt := by
        have hle := hx y List.mem_cons_self
        revert hxy hle
        cases cmpSeq x y <;> simp
      refine ⟨List.pairwise_cons.mpr ⟨fun z hz => ?_, ih⟩, fun z => ?_⟩
      · rcases List.mem_cons.mp ((hmem z).mp hz) with rfl | hz
        · exact hlt
        · exact TransCmp.lt_of_lt_of_isLE hlt (List.rel_of_pairwise_cons hrest hz)
      · simp only [List.mem_cons, hmem]
  | [], _ => by simp [dedupSorted]
  | [x], _ => by simp [dedupSorted]

/-- The sort in a store's answer orders by the sequence order. -/
theorem pairwise_mergeSort_isLE (xs : List (List Symbol)) :
    (xs.mergeSort fun x y => cmpSeq x y != .gt).Pairwise
      (fun x y => (cmpSeq x y).isLE = true) := by
  have hle : ∀ o : Ordering, (o != .gt) = o.isLE := by decide
  have htrans : ∀ a b c : List Symbol, (cmpSeq a b != .gt) = true →
      (cmpSeq b c != .gt) = true → (cmpSeq a c != .gt) = true := by
    intro a b c
    simp only [hle]
    exact TransCmp.isLE_trans
  have htotal : ∀ a b : List Symbol, ((cmpSeq a b != .gt) || (cmpSeq b a != .gt)) = true := by
    intro a b
    simp only [hle, Bool.or_eq_true]
    rw [← @OrientedCmp.isGE_iff_isLE _ cmpSeq _ a b]
    cases cmpSeq a b <;> decide
  simpa only [hle] using List.pairwise_mergeSort htrans htotal xs

variable {st : Store} {word : List Symbol} {head : Option (List Symbol)}

/-- **What a store answers.** The extensions of the queried prefix (the head, then the
word) are the prefix followed by one more symbol of an entry that starts with it, or by
the terminator when the entry is the prefix itself. -/
theorem mem_extensions {x : List Symbol} :
    x ∈ st.extensions word head ↔
      ∃ e ∈ st.entries, head.getD [] ++ word <+: e ∧
        x = head.getD [] ++ word ++ [e[(head.getD [] ++ word).length]?.getD st.terminator] := by
  simp only [extensions]
  rw [(dedupSorted_spec (pairwise_mergeSort_isLE _)).2, (List.mergeSort_perm _ _).mem_iff]
  simp only [List.mem_filterMap, Bool.and_eq_true, decide_eq_true_eq,
    List.isPrefixOf_iff_prefix, Option.ite_none_right_eq_some, Option.some.injEq]
  constructor
  · rintro ⟨e, he, ⟨-, hp⟩, rfl⟩
    exact ⟨e, he, hp, rfl⟩
  · rintro ⟨e, he, hp, rfl⟩
    exact ⟨e, he, ⟨hp.length_le, hp⟩, rfl⟩

/-- A store's answer is strictly increasing, so it holds each extension once. -/
theorem extensions_sorted :
    (st.extensions word head).Pairwise (fun x y => cmpSeq x y = .lt) :=
  (dedupSorted_spec (pairwise_mergeSort_isLE _)).1

/-- An entry that starts with a prefix is the prefix itself, or extends it by at least
one symbol. -/
theorem eq_or_extends_of_prefix {full e : List Symbol} (h : full <+: e) :
    e = full ∨ ∃ s rest, e = full ++ s :: rest := by
  obtain ⟨r, rfl⟩ := h
  cases r with
  | nil => exact .inl (List.append_nil _)
  | cons s rest => exact .inr ⟨s, rest, rfl⟩

/-- **The answer of a store, exactly.** Let `full` be the queried prefix, the head and
then the word. The answer is strictly increasing, so it has no repeats. Its members
are `full` followed by the next symbol of each entry that strictly extends `full`, and
`full` followed by the terminator when some entry is `full` itself; the terminator
may also be a stored symbol, and the two ways of reaching it give one member. So
`full` itself is never answered, and every member is one symbol longer than `full`. -/
theorem extensions_exact (st : Store) (word : List Symbol) (head : Option (List Symbol)) :
    (st.extensions word head).Pairwise (fun x y => cmpSeq x y = .lt) ∧
      (st.extensions word head).Nodup ∧
      (∀ x, x ∈ st.extensions word head ↔
        (∃ s rest, head.getD [] ++ word ++ s :: rest ∈ st.entries ∧
          x = head.getD [] ++ word ++ [s]) ∨
        (head.getD [] ++ word ∈ st.entries ∧ x = head.getD [] ++ word ++ [st.terminator])) ∧
      head.getD [] ++ word ∉ st.extensions word head ∧
      ∀ x ∈ st.extensions word head, x.length = (head.getD [] ++ word).length + 1 := by
  have hnodup : (st.extensions word head).Nodup :=
    extensions_sorted.imp fun {x y} hlt heq => by
      subst heq
      have hself : cmpSeq x x = .eq := ReflCmp.compare_self
      rw [hself] at hlt
      cases hlt
  -- an entry equal to the prefix contributes the terminator, a longer one its next symbol
  have hmem : ∀ x, x ∈ st.extensions word head ↔
      (∃ s rest, head.getD [] ++ word ++ s :: rest ∈ st.entries ∧
        x = head.getD [] ++ word ++ [s]) ∨
      (head.getD [] ++ word ∈ st.entries ∧ x = head.getD [] ++ word ++ [st.terminator]) := by
    intro x
    rw [mem_extensions]
    constructor
    · rintro ⟨e, he, hp, rfl⟩
      rcases eq_or_extends_of_prefix hp with rfl | ⟨s, rest, rfl⟩
      · exact .inr ⟨he, by simp⟩
      · exact .inl ⟨s, rest, he, by simp⟩
    · rintro (⟨s, rest, he, rfl⟩ | ⟨he, rfl⟩)
      · exact ⟨_, he, List.prefix_append _ _, by simp⟩
      · exact ⟨_, he, List.prefix_refl _, by simp⟩
  have hlen : ∀ x ∈ st.extensions word head, x.length = (head.getD [] ++ word).length + 1 := by
    intro x hx
    rcases (hmem x).mp hx with ⟨s, rest, -, rfl⟩ | ⟨-, rfl⟩ <;>
      simp only [List.length_append, List.length_singleton]
  exact ⟨extensions_sorted, hnodup, hmem, fun hfull => by simpa using hlen _ hfull, hlen⟩

end Store

end SeqPattern
