import SeqPattern.Proofs.Grammar
/-!
# Brackets in the conversion to reverse Polish form

The conversion to reverse Polish form reads any token stream, not only the streams a
pattern gives: markers, quantifiers and repetitions anywhere, brackets in any order.
Its one failure is the bracket error, and it fails exactly when the brackets of the
stream, read alone, are not a balanced word. Otherwise it loses nothing but the
brackets: its output is the stream without them, reordered, with the values (operands
and classes) in their order.

Two invariants carry the loop. The opening brackets on the operator stack count the
brackets read so far and not yet closed, so a closing bracket fails exactly when that
depth is zero, and the end of the stream exactly when it is not (`toRpnGo_ok_iff`);
the depth read this way is the counting form of a balanced word
(`nested_iff_closesAt`). And only opening brackets and operators ever wait on the
stack (`Waiting`), so the loop pops operators to the output, never a bracket or a
value, and values reach the output in the order they are read.

Main statement: `Pattern.toRpn_brackets`.
-/

namespace SeqPattern.Pattern

open Token

/-! ## Balanced brackets, counted -/

/-- The brackets of a stream, in order. -/
def brackets (ts : List Token) : List Token := ts.filter isBracket

/-- Whether a stream closes exactly `d` brackets opened before it: the depth starts at
`d`, an opening bracket raises it, a closing one lowers it and is refused at depth zero,
and the depth ends at zero. -/
def closesAt : Nat → List Token → Bool
  | d, [] => d == 0
  | d, t :: ts =>
    if t = .openGroup then closesAt (d + 1) ts
    else if t = .closeGroup then d != 0 && closesAt (d - 1) ts
    else closesAt d ts

variable {d : Nat} {t : Token} {ts : List Token}

@[simp] theorem closesAt_nil : closesAt d [] = (d == 0) := rfl

@[simp] theorem closesAt_open : closesAt d (.openGroup :: ts) = closesAt (d + 1) ts := by
  simp [closesAt]

@[simp] theorem closesAt_close_zero : closesAt 0 (.closeGroup :: ts) = false := by
  simp [closesAt]

@[simp] theorem closesAt_close_succ : closesAt (d + 1) (.closeGroup :: ts) = closesAt d ts := by
  simp [closesAt]

theorem closesAt_flat (hopen : t ≠ .openGroup) (hclose : t ≠ .closeGroup) :
    closesAt d (t :: ts) = closesAt d ts := by
  simp [closesAt, hopen, hclose]

theorem isBracket_eq_false (hopen : t ≠ .openGroup) (hclose : t ≠ .closeGroup) :
    isBracket t = false := by
  simp [isBracket, hopen, hclose]

/-- A stream without its brackets. -/
def dropBrackets (ts : List Token) : List Token := ts.filter fun t => !isBracket t

@[simp] theorem dropBrackets_nil : dropBrackets [] = [] := rfl

@[simp] theorem dropBrackets_open : dropBrackets (.openGroup :: ts) = dropBrackets ts := rfl

@[simp] theorem dropBrackets_close : dropBrackets (.closeGroup :: ts) = dropBrackets ts := rfl

theorem dropBrackets_cons (hopen : t ≠ .openGroup) (hclose : t ≠ .closeGroup) :
    dropBrackets (t :: ts) = t :: dropBrackets ts := by
  simp [dropBrackets, isBracket_eq_false hopen hclose]

@[simp] theorem dropBrackets_append (xs ys : List Token) :
    dropBrackets (xs ++ ys) = dropBrackets xs ++ dropBrackets ys :=
  List.filter_append ..

/-- Matched brackets leave the depth as it was. -/
theorem Nested.closesAt_append {g : List Token} (h : Nested g) :
    ∀ d rest, closesAt d (g ++ rest) = closesAt d rest := by
  induction h with
  | nil => intro d rest; rfl
  | flat hopen hclose _ ih =>
    intro d rest
    rw [List.cons_append, closesAt_flat hopen hclose, ih]
  | group _ _ ihg ihr =>
    intro d rest
    simp only [List.cons_append, List.append_assoc, closesAt_open, ihg, closesAt_close_succ, ihr]

theorem Closes.closesAt {d : Nat} {ts : List Token} (h : Closes d ts) : closesAt d ts = true := by
  induction h with
  | done h => simpa using h.closesAt_append 0 []
  | close hg _ ih => rwa [hg.closesAt_append, closesAt_close_succ]

theorem closes_of_closesAt : ∀ {d : Nat} (ts : List Token), closesAt d ts = true → Closes d ts
  | d, [], h => by
    obtain rfl : d = 0 := by simpa using h
    exact .done .nil
  | d, t :: ts, h => by
    by_cases hopen : t = .openGroup
    · subst hopen
      rw [closesAt_open] at h
      exact (closes_of_closesAt ts h).cons_open
    · by_cases hclose : t = .closeGroup
      · subst hclose
        cases d with
        | zero => simp at h
        | succ d =>
          rw [closesAt_close_succ] at h
          exact (closes_of_closesAt ts h).cons_close
      · rw [closesAt_flat hopen hclose] at h
        exact (closes_of_closesAt ts h).cons_flat hopen hclose

/-- **Counting decides balance.** A stream's brackets match exactly when the depth, read
from zero, never goes below zero and ends at zero. -/
theorem nested_iff_closesAt : Nested ts ↔ closesAt 0 ts = true :=
  ⟨fun h => (Closes.done h).closesAt, fun h => (closes_of_closesAt ts h).nested⟩

/-- Only the brackets move the depth. -/
theorem closesAt_brackets (ts : List Token) : ∀ d, closesAt d (brackets ts) = closesAt d ts := by
  induction ts with
  | nil => intro d; rfl
  | cons t ts ih =>
    intro d
    by_cases hopen : t = .openGroup
    · subst hopen
      simp [brackets, isBracket, ← ih]
    · by_cases hclose : t = .closeGroup
      · subst hclose
        cases d <;> simp [brackets, isBracket, ← ih]
      · rw [closesAt_flat hopen hclose, ← ih, brackets, List.filter_cons,
          isBracket_eq_false hopen hclose]
        rfl

/-- A stream's brackets match exactly when its brackets, read alone, form a balanced
word. -/
theorem nested_brackets_iff : Nested (brackets ts) ↔ Nested ts := by
  rw [nested_iff_closesAt, nested_iff_closesAt, closesAt_brackets]

/-! ## The depth on the operator stack -/

/-- One token moves the opening brackets on the stack as it moves the depth. -/
theorem Moves.closesAt {stack out stack' out' : List Token} (hm : Moves t stack out stack' out') :
    closesAt (stack.count .openGroup) (t :: ts) = closesAt (stack'.count .openGroup) ts := by
  rcases hm with ⟨hv, rfl, rfl⟩ | ⟨rfl, rfl, rfl⟩ | ⟨rfl, moved, hm, rfl, rfl⟩ |
    ⟨q, moved, rest, hq, hm, rfl, rfl, rfl⟩
  · have hbr := ne_bracket_of_isValue hv
    exact closesAt_flat hbr.1 hbr.2
  · rw [closesAt_open, List.count_cons_self]
  · rw [List.count_append, List.count_eq_zero_of_not_mem hm, List.count_cons_self, Nat.zero_add,
      closesAt_close_succ]
  · have hbr := ne_bracket_of_precedence hq
    rw [List.count_append, List.count_eq_zero_of_not_mem hm, Nat.zero_add,
      List.count_cons_of_ne hbr.1, closesAt_flat hbr.1 hbr.2]

theorem drainOps_error : ∀ {stack out : List Token} {e : PatternError},
    drainOps stack out = .error e → e = .mismatchedParens
  | [], _, _, h => by cases h
  | top :: stack, out, e, h => by
    by_cases htop : top = .openGroup
    · subst htop
      simp only [drainOps, Except.error.injEq] at h
      exact h.symm
    · exact drainOps_error (by simpa [drainOps, htop] using h)

theorem drainOps_ok_of_not_mem : ∀ {stack : List Token} (out : List Token),
    .openGroup ∉ stack → ∃ p, drainOps stack out = .ok p
  | [], out, _ => ⟨out.reverse, rfl⟩
  | top :: stack, out, h => by
    have htop : top ≠ .openGroup := fun he => h (he ▸ List.mem_cons_self)
    obtain ⟨p, hp⟩ := drainOps_ok_of_not_mem (top :: out) fun hm => h (List.mem_cons_of_mem _ hm)
    exact ⟨p, by simpa [drainOps, htop] using hp⟩

/-- **The conversion's one error.** Whatever it reads, the loop fails only with the bracket
error. -/
theorem toRpnGo_error : ∀ {ts stack out : List Token} {e : PatternError},
    toRpnGo ts stack out = .error e → e = .mismatchedParens
  | [], _, _, _, h => drainOps_error h
  | t :: ts, stack, out, e, h => by
    rcases toRpnGo_cons t ts stack out with ⟨-, -, herr⟩ | ⟨stack', out', heq, -⟩
    · rw [herr, Except.error.injEq] at h
      exact h.symm
    · rw [heq] at h
      exact toRpnGo_error h

/-- **The loop succeeds exactly on closing streams**: those that close the opening
brackets on the stack and no other. -/
theorem toRpnGo_ok_iff : ∀ {ts stack out : List Token},
    (∃ p, toRpnGo ts stack out = .ok p) ↔ closesAt (stack.count .openGroup) ts = true
  | [], stack, out => by
    rw [closesAt_nil, beq_iff_eq, List.count_eq_zero]
    constructor
    · rintro ⟨p, hp⟩
      exact (drainOps_spec hp).1
    · exact drainOps_ok_of_not_mem out
  | t :: ts, stack, out => by
    rcases toRpnGo_cons t ts stack out with ⟨rfl, hopen, herr⟩ | ⟨stack', out', heq, hm⟩
    · -- a closing bracket with nothing to close
      rw [herr, List.count_eq_zero_of_not_mem hopen, closesAt_close_zero]
      simp
    · rw [heq, toRpnGo_ok_iff, hm.closesAt]

/-! ## What waits on the operator stack -/

/-- The operator stack holds only opening brackets and operators. -/
def Waiting (stack : List Token) : Prop := ∀ t ∈ stack, t = .openGroup ∨ ∃ q, t.precedence = some q

theorem Waiting.append_left {xs ys : List Token} (h : Waiting (xs ++ ys)) : Waiting xs :=
  fun t ht => h t (List.mem_append_left _ ht)

theorem Waiting.append_right {xs ys : List Token} (h : Waiting (xs ++ ys)) : Waiting ys :=
  fun t ht => h t (List.mem_append_right _ ht)

/-- An operator is no value. -/
theorem isValue_of_precedence {q : Nat} (hq : t.precedence = some q) : t.isValue = false := by
  cases t <;> simp_all [precedence, isValue]

theorem Waiting.isValue {stack : List Token} (h : Waiting stack) (ht : t ∈ stack) :
    t.isValue = false := by
  rcases h t ht with rfl | ⟨q, hq⟩
  · rfl
  · exact isValue_of_precedence hq

theorem Waiting.filter_isValue {stack : List Token} (h : Waiting stack) :
    stack.filter Token.isValue = [] :=
  List.filter_eq_nil_iff.mpr fun _ hu => by simp [h.isValue hu]

/-- Operators alone, no bracket among them, are kept whole when brackets are dropped. -/
theorem Waiting.dropBrackets {stack : List Token} (h : Waiting stack)
    (hopen : .openGroup ∉ stack) : dropBrackets stack = stack := by
  refine List.filter_eq_self.mpr fun t ht => ?_
  rcases h t ht with rfl | ⟨q, hq⟩
  · exact absurd ht hopen
  · have hbr := ne_bracket_of_precedence hq
    simp [isBracket_eq_false hbr.1 hbr.2]

theorem Moves.waiting {stack out stack' out' : List Token} (hm : Moves t stack out stack' out')
    (h : Waiting stack) : Waiting stack' := by
  rcases hm with ⟨-, rfl, -⟩ | ⟨rfl, rfl, -⟩ | ⟨-, moved, -, rfl, -⟩ | ⟨q, moved, rest, hq, -, rfl, rfl, -⟩
  · exact h
  · intro u hu
    rcases List.mem_cons.mp hu with rfl | hu
    · exact .inl rfl
    · exact h u hu
  · exact fun u hu => h u (List.mem_append_right _ (List.mem_cons_of_mem _ hu))
  · intro u hu
    rcases List.mem_cons.mp hu with rfl | hu
    · exact .inr ⟨q, hq⟩
    · exact h.append_right u hu

/-! ## What reaches the output -/

/-- The output is what was output before, the operators waiting on the stack and the
stream still to read, without brackets and in some order. -/
theorem toRpnGo_perm : ∀ {ts stack out p : List Token}, toRpnGo ts stack out = .ok p →
    Waiting stack → p.Perm (out ++ dropBrackets stack ++ dropBrackets ts)
  | [], stack, out, p, h, hw => by
    obtain ⟨hopen, rfl⟩ := drainOps_spec h
    rw [hw.dropBrackets hopen, dropBrackets_nil, List.append_nil]
    exact (List.reverse_perm out).append_right stack
  | t :: ts, stack, out, p, h, hw => by
    obtain ⟨stack', out', h', hm⟩ := toRpnGo_cons_eq_ok h
    have ih := toRpnGo_perm h' (Moves.waiting hm hw)
    refine ih.trans (List.perm_iff_count.mpr fun x => ?_)
    rcases hm with ⟨hv, rfl, rfl⟩ | ⟨rfl, rfl, rfl⟩ | ⟨rfl, moved, hopen, rfl, rfl⟩ |
      ⟨q, moved, rest, hq, hopen, rfl, rfl, rfl⟩
    · -- a value moves from the stream to the output
      have hbr := ne_bracket_of_isValue hv
      rw [dropBrackets_cons hbr.1 hbr.2]
      simp only [List.cons_append, List.count_append, List.count_cons]
      omega
    · -- an opening bracket moves from the stream to the stack, and is dropped from both
      rw [dropBrackets_open, dropBrackets_open]
    · -- the popped operators move from the stack to the output
      rw [dropBrackets_append, hw.append_left.dropBrackets hopen, dropBrackets_open,
        dropBrackets_close]
      simp only [List.count_append, List.count_reverse]
      omega
    · -- so do those an operator pops, and the operator waits instead
      have hbr := ne_bracket_of_precedence hq
      rw [dropBrackets_append, hw.append_left.dropBrackets hopen, dropBrackets_cons hbr.1 hbr.2,
        dropBrackets_cons hbr.1 hbr.2]
      simp only [List.count_append, List.count_cons, List.count_reverse]
      omega

/-- Values reach the output in the order they are read: nothing but operators ever
waits on the stack. -/
theorem toRpnGo_values : ∀ {ts stack out p : List Token}, toRpnGo ts stack out = .ok p →
    Waiting stack → p.filter isValue = out.reverse.filter isValue ++ ts.filter isValue
  | [], stack, out, p, h, hw => by
    obtain ⟨-, rfl⟩ := drainOps_spec h
    simp [hw.filter_isValue]
  | t :: ts, stack, out, p, h, hw => by
    obtain ⟨stack', out', h', hm⟩ := toRpnGo_cons_eq_ok h
    rw [toRpnGo_values h' (Moves.waiting hm hw)]
    -- what a step pops comes from the stack, and holds no value
    rcases hm with ⟨hv, rfl, rfl⟩ | ⟨rfl, rfl, rfl⟩ | ⟨rfl, moved, -, rfl, rfl⟩ |
      ⟨q, moved, rest, hq, -, rfl, rfl, rfl⟩
    · simp [hv]
    · simp [isValue]
    · simp [isValue, hw.append_left.filter_isValue]
    · simp [isValue_of_precedence hq, hw.append_left.filter_isValue]

/-- **The bracket error, and what the conversion keeps.** Whatever token stream it reads,
the conversion to reverse Polish form fails with the bracket error exactly when the
brackets of the stream, read alone, are not a balanced word, and it fails with no other
error. When it succeeds, its output is the stream without brackets, reordered, and the
operands and classes in it come in the order of the stream. -/
theorem toRpn_brackets (ts : List Token) :
    (toRpn ts = .error .mismatchedParens ↔ ¬ Nested (brackets ts)) ∧
    (∀ e, toRpn ts = .error e → e = .mismatchedParens) ∧
    ∀ p, toRpn ts = .ok p → p.Perm (dropBrackets ts) ∧ p.filter isValue = ts.filter isValue := by
  have hok : (∃ p, toRpn ts = .ok p) ↔ Nested (brackets ts) := by
    rw [nested_brackets_iff, nested_iff_closesAt]
    exact toRpnGo_ok_iff
  have hnil : Waiting [] := fun _ h => absurd h List.not_mem_nil
  refine ⟨⟨fun h hn => ?_, fun hn => ?_⟩, fun e h => toRpnGo_error h, fun p h => ⟨?_, ?_⟩⟩
  · obtain ⟨p, hp⟩ := hok.mpr hn
    rw [hp] at h
    cases h
  · cases hr : toRpn ts with
    | error e => rw [toRpnGo_error hr]
    | ok p => exact absurd (hok.mp ⟨p, hr⟩) hn
  · simpa using toRpnGo_perm h hnil
  · simpa using toRpnGo_values h hnil

end SeqPattern.Pattern
