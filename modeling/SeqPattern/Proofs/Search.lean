import SeqPattern.Search.Oracles
import SeqPattern.Proofs.Order
import SeqPattern.Proofs.Simulation
/-!
# Searching a store finds its shortest accepted entries

A predictive search walks the automaton and a store in lockstep. Round `k` holds one
candidate for each continuation `p` of the head of length `k` that is still worth
extending: the head followed by `p` starts an entry, and the automaton is still live
after `p`. The candidate asks the store for the one-symbol extensions of its prefix. An
extension that ends in the terminator is an entry itself, complete when the
candidate's states accept; any other extension is a continuation of length `k + 1`,
kept when a state survives its last symbol.

Against a store the round is exact. The store answers each prefix in increasing order
and without repeats, and candidates of one round query distinct prefixes of one length,
so no extension is skipped as seen before and the order of the candidates is the order
of what they produce. A round therefore completes exactly the accepted entries whose
rest has length `k`, in increasing order, and hands on exactly the live continuations
of length `k + 1`, in increasing order: the invariant `Frontier` of round `k` becomes
that of round `k + 1`. The first round is the one exception to the shape of the
candidates (it asks with the head and an empty word) and `Frontier` reads a candidate
through the prefix it queries, so one statement covers it.

How a search ends is then read off the continuations alone (`Ends`), and from that the
main statement: the search finds the accepted entries of the shortest rest when that
length is within the rounds, else reports exhaustion when the live continuations run
out within the rounds, else runs out of rounds.

Main statements: `Nfa.harvest_fresh`, `Nfa.round_store`, `Nfa.Frontier.successors`,
`Nfa.searchGo_ends` and `Nfa.predict_store`.
-/

namespace SeqPattern

open SeqPattern.Symbol

namespace Nfa

variable {a : Nfa}

/-! ## Runs -/

/-- Whether the automaton accepts a sequence, `term` being the one symbol the wildcard
refuses. -/
def acceptsWith (a : Nfa) (term : Symbol) (p : List Symbol) : Bool :=
  a.anyAccepting (a.run term a.startClosure p)

/-- With the default terminator, this is matching. -/
theorem acceptsWith_stop (p : List Symbol) : a.acceptsWith .stop p = a.accepts p := by
  rw [acceptsWith, accepts, acceptsFrom_eq_run]

theorem run_append (term : Symbol) (live : List Nat) (p q : List Symbol) :
    a.run term live (p ++ q) = a.run term (a.run term live p) q :=
  List.foldl_append

theorem run_concat (term x : Symbol) (live : List Nat) (p : List Symbol) :
    a.run term live (p ++ [x]) = a.step (a.run term live p) x term := by
  rw [run_append, run_cons, run_nil]

/-- A run that dies on a prefix of a sequence is dead after the whole of it. -/
theorem run_eq_nil_of_take {term : Symbol} {live : List Nat} {p : List Symbol} (j : Nat)
    (h : a.run term live (p.take j) = []) : a.run term live p = [] := by
  rw [← List.take_append_drop j p, run_append, h, run_empty]

/-! ## What a search should find -/

section Spec

variable (a : Nfa) (st : Store) (hd : List Symbol)

/-- `p`, of length `k`, continues the head towards an entry and leaves the automaton
live. -/
def Live (k : Nat) (p : List Symbol) : Prop :=
  p.length = k ∧ (∃ e ∈ st.entries, hd ++ p <+: e) ∧ a.run st.terminator a.startClosure p ≠ []

/-- The head followed by `p`, of length `k`, is an entry, and the automaton accepts
`p`. -/
def Completes (k : Nat) (p : List Symbol) : Prop :=
  p.length = k ∧ hd ++ p ∈ st.entries ∧ a.acceptsWith st.terminator p = true

/-- What a search of a store should answer from the head `hd`, with `m` rounds after the
first: the accepted entries whose rest after the head is shortest, when that length is
at most `m`, each followed by the terminator, once and in increasing order; else
exhaustion, when for some length up to `m` no continuation one longer is live; else the
round limit. -/
def ShortestAnswer {ε : Type} (m : Nat) (res : Except ε Outcome) : Prop :=
  (∀ r ≤ m, (∃ p, a.Completes st hd r p) → (∀ j < r, ∀ p, ¬ a.Completes st hd j p) →
    ∃ S, res = .ok (.found S) ∧ S.Pairwise (fun x y => cmpSeq x y = .lt) ∧
      ∀ s, s ∈ S ↔ ∃ p, a.Completes st hd r p ∧ s = hd ++ p ++ [st.terminator]) ∧
  ((∀ r ≤ m, ∀ p, ¬ a.Completes st hd r p) →
    ((∃ k ≤ m, ∀ p, ¬ a.Live st hd (k + 1) p) → res = .ok .exhausted) ∧
    ((∀ k ≤ m, ∃ p, a.Live st hd (k + 1) p) → res = .ok .stepLimit))

end Spec

variable {st : Store} {hd : List Symbol}

theorem Completes.live {k : Nat} {p : List Symbol} (h : a.Completes st hd k p) :
    a.Live st hd k p := by
  obtain ⟨hlen, hmem, hacc⟩ := h
  refine ⟨hlen, ⟨hd ++ p, hmem, List.prefix_refl _⟩, fun hnil => ?_⟩
  rw [acceptsWith, hnil] at hacc
  cases hacc

/-- A prefix of a live continuation is live. -/
theorem Live.take {k : Nat} {p : List Symbol} (h : a.Live st hd k p) {j : Nat} (hj : j ≤ k) :
    a.Live st hd j (p.take j) := by
  obtain ⟨hlen, ⟨e, he, hpre⟩, hrun⟩ := h
  refine ⟨by simp [hlen, hj], ⟨e, he, ?_⟩, fun hnil => hrun (run_eq_nil_of_take j hnil)⟩
  exact (List.prefix_append_right_inj hd).mpr (List.take_prefix j p) |>.trans hpre

/-! ## Entries seen from a prefix -/

section Entries

variable (hfree : ∀ e ∈ st.entries, st.terminator ∉ e)
include hfree

/-- The symbol an entry puts after one of its prefixes is the terminator exactly when
the entry is that prefix: entries do not hold the terminator. -/
theorem next_eq_terminator_iff {e w : List Symbol} (he : e ∈ st.entries) (hp : w <+: e) :
    e[w.length]?.getD st.terminator = st.terminator ↔ e = w := by
  constructor
  · intro hnext
    cases hget : e[w.length]? with
    | none => exact (hp.eq_of_length (Nat.le_antisymm hp.length_le
        (List.getElem?_eq_none_iff.mp hget))).symm
    | some x =>
      rw [hget, Option.getD_some] at hnext
      exact absurd (hnext ▸ List.mem_of_getElem? hget) (hfree e he)
  · rintro rfl
    simp

end Entries

/-- Any other symbol after a prefix of an entry extends the prefix within the entry. -/
theorem prefix_of_next_ne {e w : List Symbol} (hp : w <+: e)
    (hx : e[w.length]?.getD st.terminator ≠ st.terminator) :
    w ++ [e[w.length]?.getD st.terminator] <+: e := by
  cases hget : e[w.length]? with
  | none => exact absurd (by rw [hget]; rfl) hx
  | some x =>
    rw [Option.getD_some]
    have htake : e.take (w.length + 1) = w ++ [x] := by
      rw [List.take_add_one, hget, ← List.prefix_iff_eq_take.mp hp]
      rfl
    exact htake ▸ List.take_prefix _ _

/-- The symbol an entry puts right after a prefix that it extends by `x`. -/
theorem next_of_prefix {e w : List Symbol} {x : Symbol} (hp : w ++ [x] <+: e) :
    e[w.length]? = some x := by
  have htake := List.prefix_iff_eq_take.mp hp
  rw [← List.getElem?_take_of_lt (j := (w ++ [x]).length) (by simp), ← htake]
  simp

/-! ## One harvest -/

/-- What one extension adds to a round's complete extensions: itself, when it ends in
the terminator and the candidate's states accept. -/
def completion (term : Symbol) (accepting : Bool) (ext : List Symbol) : Option (List Symbol) :=
  match ext.getLast? with
  | some last => if last = term ∧ accepting = true then some ext else none
  | none => none

/-- What one extension adds to the next round's candidates: itself with the states its
last symbol leads to, unless that symbol is the terminator or no state survives it. -/
def successor (a : Nfa) (term : Symbol) (c : Candidate) (ext : List Symbol) : Option Candidate :=
  match ext.getLast? with
  | some last =>
    if last = term then none
    else if (a.step c.live last term).isEmpty then none else some ⟨ext, a.step c.live last term⟩
  | none => none

/-- **A harvest of fresh extensions.** When the extensions are distinct, new to the
round and longer than the candidate, none is skipped: each is recorded as seen, and
adds its completion and its successor. -/
theorem harvest_fresh (term : Symbol) (c : Candidate) (acc : Bool) :
    ∀ {exts : List (List Symbol)} {h : Harvest}, exts.Nodup →
      (∀ ext ∈ exts, c.word.length < ext.length ∧ ext ∉ h.seen) →
      a.harvest term c acc exts h =
        ⟨exts.reverse ++ h.seen, (exts.filterMap (completion term acc)).reverse ++ h.complete,
          (exts.filterMap (a.successor term c)).reverse ++ h.next⟩
  | [], _, _, _ => rfl
  | ext :: exts, h, hnd, hfresh => by
    obtain ⟨hnot, hnd⟩ := List.nodup_cons.mp hnd
    obtain ⟨hlen, hseen⟩ := hfresh ext List.mem_cons_self
    -- once `ext` is seen, the later extensions are still fresh
    have ih : ∀ h' : Harvest, h'.seen = ext :: h.seen →
        a.harvest term c acc exts h' =
          ⟨exts.reverse ++ h'.seen, (exts.filterMap (completion term acc)).reverse ++ h'.complete,
            (exts.filterMap (a.successor term c)).reverse ++ h'.next⟩ := by
      intro h' hs
      refine harvest_fresh term c acc hnd fun ext' hext' => ⟨(hfresh ext' (List.mem_cons_of_mem _ hext')).1, ?_⟩
      rw [hs, List.mem_cons, not_or]
      exact ⟨fun heq => hnot (heq ▸ hext'), (hfresh ext' (List.mem_cons_of_mem _ hext')).2⟩
    have hkeep : (decide (ext.length ≤ c.word.length) || h.seen.contains ext) = false := by
      simp [hseen, Nat.not_le.mpr hlen]
    simp only [harvest, hkeep, Bool.false_eq_true, if_false]
    cases hl : ext.getLast? with
    | none =>
      rw [ih _ rfl]
      simp [completion, successor, hl]
    | some last =>
      by_cases ht : last = term
      · cases acc <;> simp only [ht, if_true, Bool.false_eq_true, if_false] <;> rw [ih _ rfl] <;>
          simp [completion, successor, hl, ht]
      · by_cases hlive : (a.step c.live last term).isEmpty
        · simp only [ht, hlive, if_false, if_true]
          rw [ih _ rfl]
          simp [completion, successor, hl, ht, hlive]
        · simp only [ht, hlive, if_false, Bool.false_eq_true]
          rw [ih _ rfl]
          simp [completion, successor, hl, ht, hlive]

/-! ## One round against a store -/

/-- The prefix a candidate puts to the oracle: the query's head, if any, then the
candidate's word. -/
def queried (head : Option (List Symbol)) (c : Candidate) : List Symbol := head.getD [] ++ c.word

@[simp] theorem queried_none (c : Candidate) : queried none c = c.word := List.nil_append _

/-- The complete extensions one candidate adds to a round against a store. -/
def completions (a : Nfa) (st : Store) (term : Symbol) (head : Option (List Symbol))
    (c : Candidate) : List (List Symbol) :=
  (st.extensions c.word head).filterMap (completion term (a.anyAccepting c.live))

/-- The candidates one candidate hands on to the next round against a store. -/
def successors (a : Nfa) (st : Store) (term : Symbol) (head : Option (List Symbol))
    (c : Candidate) : List Candidate :=
  (st.extensions c.word head).filterMap (a.successor term c)

/-- A store's extension of a candidate's prefix is that prefix and one symbol more. -/
theorem extension_shape {head : Option (List Symbol)} {c : Candidate} {ext : List Symbol}
    (h : ext ∈ st.extensions c.word head) :
    queried head c <+: ext ∧ ext.length = (queried head c).length + 1 := by
  obtain ⟨e, -, -, rfl⟩ := Store.mem_extensions.mp h
  exact ⟨List.prefix_append _ _, by simp [queried, Nat.add_assoc]⟩

/-- Two prefixes of one length of a sequence are equal. -/
theorem eq_of_prefix_of_length_eq {u v x : List Symbol} (hu : u <+: x) (hv : v <+: x)
    (hlen : u.length = v.length) : u = v :=
  (List.prefix_of_prefix_length_le hu hv (Nat.le_of_eq hlen)).eq_of_length hlen

theorem round_store_cons {ε : Type} (term : Symbol) (head : Option (List Symbol))
    (c : Candidate) (cs : List Candidate) (calls : List Query) (h : Harvest) :
    a.round (st.oracle : Oracle ε) term head (c :: cs) calls h =
      a.round st.oracle term head cs (⟨c.word, head⟩ :: calls)
        (a.harvest term c (a.anyAccepting c.live) (st.extensions c.word head) h) := rfl

/-- **A round against a store.** When the candidates query distinct prefixes of one
length, in increasing order, and nothing seen so far extends them, the round takes in
all the store answers: it gathers the complete extensions and next candidates of the
candidates, in the candidates' order. -/
theorem round_store {ε : Type} (term : Symbol) (head : Option (List Symbol)) (n : Nat) :
    ∀ {cands : List Candidate} {calls : List Query} {h : Harvest},
      (cands.map (queried head)).Pairwise (fun x y => cmpSeq x y = .lt) →
      (∀ c ∈ cands, (queried head c).length = n ∧ c.word.length ≤ n) →
      (∀ x ∈ h.seen, ∀ c ∈ cands, ¬ queried head c <+: x) →
      ∃ calls', a.round (st.oracle : Oracle ε) term head cands calls h =
        (calls', .ok ⟨(cands.flatMap fun c => st.extensions c.word head).reverse ++ h.seen,
          (cands.flatMap (a.completions st term head)).reverse ++ h.complete,
          (cands.flatMap (a.successors st term head)).reverse ++ h.next⟩)
  | [], calls, _, _, _, _ => ⟨calls, rfl⟩
  | c :: cs, calls, h, hsorted, hlen, hseen => by
    obtain ⟨hfirst, hrest⟩ := List.pairwise_cons.mp hsorted
    obtain ⟨hqlen, hwlen⟩ := hlen c List.mem_cons_self
    have hext : ∀ ext ∈ st.extensions c.word head, queried head c <+: ext ∧ ext.length = n + 1 :=
      fun ext hx => hqlen ▸ extension_shape hx
    have hnd : (st.extensions c.word head).Nodup :=
      List.nodup_iff_pairwise_ne.mpr (Store.extensions_sorted.imp fun hlt heq => by
        rw [heq, cmpSeq_self] at hlt
        cases hlt)
    have hfresh : ∀ ext ∈ st.extensions c.word head, c.word.length < ext.length ∧ ext ∉ h.seen :=
      fun ext hx => ⟨by have := (hext ext hx).2; omega,
        fun hs => hseen ext hs c List.mem_cons_self (hext ext hx).1⟩
    -- an extension of `c` extends no later candidate's prefix: the two prefixes would
    -- be equal, and the candidates' prefixes strictly increase
    have hseen' : ∀ x ∈ (st.extensions c.word head).reverse ++ h.seen, ∀ c' ∈ cs,
        ¬ queried head c' <+: x := by
      intro x hx c' hc' hpre
      rcases List.mem_append.mp hx with hx | hx
      · have heq := eq_of_prefix_of_length_eq (hext x (List.mem_reverse.mp hx)).1 hpre
          (by rw [hqlen, (hlen c' (List.mem_cons_of_mem _ hc')).1])
        have hlt := hfirst (queried head c') (List.mem_map_of_mem hc')
        rw [heq, cmpSeq_self] at hlt
        cases hlt
      · exact hseen x hx c' (List.mem_cons_of_mem _ hc') hpre
    obtain ⟨calls', hr⟩ := round_store (ε := ε) term head n (h := ⟨_, _, _⟩) hrest
      (fun c' hc' => hlen c' (List.mem_cons_of_mem _ hc')) hseen'
    refine ⟨calls', ?_⟩
    rw [round_store_cons, harvest_fresh term c _ hnd hfresh, hr]
    simp [completions, successors]

theorem completion_eq_some {term : Symbol} {acc : Bool} {ext s : List Symbol} :
    completion term acc ext = some s ↔ s = ext ∧ ext.getLast? = some term ∧ acc = true := by
  unfold completion
  cases ext.getLast? with
  | none => simp
  | some last =>
    by_cases h : last = term ∧ acc = true
    · simp [h, eq_comm]
    · simp [h]

theorem successor_eq_some {term : Symbol} {c c' : Candidate} {ext : List Symbol} :
    a.successor term c ext = some c' ↔
      ∃ x, ext.getLast? = some x ∧ x ≠ term ∧ a.step c.live x term ≠ [] ∧
        c' = ⟨ext, a.step c.live x term⟩ := by
  unfold successor
  cases ext.getLast? with
  | none => simp
  | some last =>
    by_cases ht : last = term
    · simp [ht]
    · by_cases hl : (a.step c.live last term).isEmpty
      · simp only [ht, hl, if_false, if_true, reduceCtorEq, false_iff, not_exists,
          Option.some.injEq]
        rintro x ⟨rfl, -, hne, -⟩
        exact hne (List.isEmpty_iff.mp hl)
      · simp only [ht, hl, if_false, Bool.false_eq_true, Option.some.injEq]
        constructor
        · rintro rfl
          exact ⟨last, rfl, ht, fun h => hl (List.isEmpty_iff.mpr h), rfl⟩
        · rintro ⟨x, rfl, -, -, rfl⟩
          rfl

theorem step_nil (x term : Symbol) : a.step [] x term = [] := by
  rw [step, List.filterMap_nil, closure_nil]

/-- What candidates produce is strictly increasing when each produces a strictly
increasing list of extensions of its own prefix, and the prefixes, all of one length,
strictly increase. -/
theorem sorted_flatMap {β : Type} {head : Option (List Symbol)} {cands : List Candidate}
    {f : Candidate → List β} (key : β → List Symbol) (n : Nat)
    (hsorted : (cands.map (queried head)).Pairwise (fun x y => cmpSeq x y = .lt))
    (hlen : ∀ c ∈ cands, (queried head c).length = n)
    (hpre : ∀ c ∈ cands, ∀ y ∈ f c, queried head c <+: key y)
    (heach : ∀ c ∈ cands, ((f c).map key).Pairwise (fun x y => cmpSeq x y = .lt)) :
    ((cands.flatMap f).map key).Pairwise (fun x y => cmpSeq x y = .lt) := by
  rw [List.map_flatMap, List.pairwise_flatMap]
  refine ⟨heach, (List.pairwise_map.mp hsorted).imp_of_mem fun {c c'} hc hc' hlt => ?_⟩
  intro x hx y hy
  obtain ⟨u, hu, rfl⟩ := List.mem_map.mp hx
  obtain ⟨v, hv, rfl⟩ := List.mem_map.mp hy
  obtain ⟨us, hus⟩ := hpre c hc u hu
  obtain ⟨vs, hvs⟩ := hpre c' hc' v hv
  have hne : cmpSeq (queried head c) (queried head c') ≠ .eq := by
    rw [hlt]
    decide
  rw [← hus, ← hvs, cmpSeq_append_of_length_eq us vs (by rw [hlen c hc, hlen c' hc']) hne, hlt]

/-! ## The candidates of a round -/

/-- The candidates round `k` starts with, read through the prefixes they query: each
stands for a continuation `p` of the head of length `k` and holds the states `p` leads
to, the prefixes strictly increase, and every live continuation of length `k` has a
candidate. -/
structure Frontier (a : Nfa) (st : Store) (hd : List Symbol) (k : Nat)
    (head : Option (List Symbol)) (cands : List Candidate) : Prop where
  sorted : (cands.map (queried head)).Pairwise (fun x y => cmpSeq x y = .lt)
  word_le : ∀ c ∈ cands, c.word.length ≤ hd.length + k
  shape : ∀ c ∈ cands, ∃ p, p.length = k ∧ queried head c = hd ++ p ∧
    c.live = a.run st.terminator a.startClosure p
  covers : ∀ p, a.Live st hd k p → ∃ c ∈ cands, queried head c = hd ++ p

section Frontier

variable {k : Nat} {head : Option (List Symbol)} {cands : List Candidate}

theorem Frontier.queried_length (hf : a.Frontier st hd k head cands) :
    ∀ c ∈ cands, (queried head c).length = hd.length + k := by
  intro c hc
  obtain ⟨p, hlen, hq, -⟩ := hf.shape c hc
  rw [hq, List.length_append, hlen]

/-- The candidate of a live continuation holds the states the continuation leads to. -/
theorem Frontier.live_eq (hf : a.Frontier st hd k head cands) {c : Candidate} (hc : c ∈ cands)
    {p : List Symbol} (hq : queried head c = hd ++ p) :
    c.live = a.run st.terminator a.startClosure p := by
  obtain ⟨p', -, hq', hlive⟩ := hf.shape c hc
  rw [hlive, List.append_cancel_left (hq'.symm.trans hq)]

/-- A round started from a frontier takes in all the store answers. -/
theorem Frontier.round {ε : Type} (hf : a.Frontier st hd k head cands) (calls : List Query) :
    ∃ calls', a.round (st.oracle : Oracle ε) st.terminator head cands calls ⟨[], [], []⟩ =
      (calls', .ok ⟨(cands.flatMap fun c => st.extensions c.word head).reverse,
        (cands.flatMap (a.completions st st.terminator head)).reverse,
        (cands.flatMap (a.successors st st.terminator head)).reverse⟩) := by
  obtain ⟨calls', h⟩ := @round_store a st ε st.terminator head (hd.length + k) cands calls
    ⟨[], [], []⟩ hf.sorted (fun c hc => ⟨hf.queried_length c hc, hf.word_le c hc⟩)
    (fun x hx => by cases hx)
  exact ⟨calls', by simpa using h⟩

/-- The complete extensions of a round are strictly increasing. -/
theorem Frontier.completions_sorted (hf : a.Frontier st hd k head cands) :
    (cands.flatMap (a.completions st st.terminator head)).Pairwise
      (fun x y => cmpSeq x y = .lt) := by
  have h : ((cands.flatMap (a.completions st st.terminator head)).map id).Pairwise
      (fun x y => cmpSeq x y = .lt) := sorted_flatMap id (hd.length + k) hf.sorted hf.queried_length
    (fun c _ y hy => by
      obtain ⟨ext, hext, hy⟩ := List.mem_filterMap.mp hy
      obtain ⟨rfl, -, -⟩ := completion_eq_some.mp hy
      exact (extension_shape hext).1)
    (fun c _ => by
      rw [List.map_id]
      exact Store.extensions_sorted.filterMap _ fun x x' hlt y hy y' hy' => by
        rw [(completion_eq_some.mp hy).1, (completion_eq_some.mp hy').1]
        exact hlt)
  rwa [List.map_id] at h

/-- The candidates a round hands on query strictly increasing words. -/
theorem Frontier.successors_sorted (hf : a.Frontier st hd k head cands) :
    ((cands.flatMap (a.successors st st.terminator head)).map Candidate.word).Pairwise
      (fun x y => cmpSeq x y = .lt) :=
  sorted_flatMap Candidate.word (hd.length + k) hf.sorted hf.queried_length
    (fun c _ c' hc' => by
      obtain ⟨ext, hext, hc'⟩ := List.mem_filterMap.mp hc'
      obtain ⟨x, -, -, -, rfl⟩ := successor_eq_some.mp hc'
      exact (extension_shape hext).1)
    (fun c _ => List.pairwise_map.mpr
      (Store.extensions_sorted.filterMap _ fun x x' hlt y hy y' hy' => by
        obtain ⟨_, -, -, -, rfl⟩ := successor_eq_some.mp hy
        obtain ⟨_, -, -, -, rfl⟩ := successor_eq_some.mp hy'
        exact hlt))

variable (hfree : ∀ e ∈ st.entries, st.terminator ∉ e)
include hfree

/-- **What a round completes.** The complete extensions of round `k` are the accepted
entries whose rest after the head has length `k`, each followed by the terminator. -/
theorem Frontier.mem_completions (hf : a.Frontier st hd k head cands) {s : List Symbol} :
    s ∈ cands.flatMap (a.completions st st.terminator head) ↔
      ∃ p, a.Completes st hd k p ∧ s = hd ++ p ++ [st.terminator] := by
  constructor
  · intro hs
    obtain ⟨c, hc, hs⟩ := List.mem_flatMap.mp hs
    obtain ⟨ext, hext, hs⟩ := List.mem_filterMap.mp hs
    obtain ⟨rfl, hlast, hacc⟩ := completion_eq_some.mp hs
    obtain ⟨p, hlen, hq, hlive⟩ := hf.shape c hc
    obtain ⟨e, he, hpre, rfl⟩ := Store.mem_extensions.mp hext
    rw [List.getLast?_concat, Option.some.injEq] at hlast
    have hentry : e = queried head c := (next_eq_terminator_iff hfree he hpre).mp hlast
    refine ⟨p, ⟨hlen, hq ▸ hentry ▸ he, ?_⟩, ?_⟩
    · rw [acceptsWith, ← hlive, hacc]
    · rw [hlast]
      exact congrArg (· ++ [st.terminator]) hq
  · rintro ⟨p, hp, rfl⟩
    obtain ⟨c, hc, hq⟩ := hf.covers p hp.live
    have hlive := hf.live_eq hc hq
    have hq' : head.getD [] ++ c.word = hd ++ p := hq
    refine List.mem_flatMap.mpr ⟨c, hc, List.mem_filterMap.mpr ⟨hd ++ p ++ [st.terminator], ?_, ?_⟩⟩
    · refine Store.mem_extensions.mpr ⟨hd ++ p, hp.2.1, hq' ▸ List.prefix_refl _, ?_⟩
      rw [hq']
      simp
    · refine completion_eq_some.mpr ⟨rfl, List.getLast?_concat, ?_⟩
      rw [hlive]
      exact hp.2.2

/-- **What a round hands on.** The candidates of round `k + 1` are the live
continuations of length `k + 1`, each with the states it leads to. -/
theorem Frontier.mem_successors (hf : a.Frontier st hd k head cands) {c' : Candidate} :
    c' ∈ cands.flatMap (a.successors st st.terminator head) ↔
      ∃ p, a.Live st hd (k + 1) p ∧ c' = ⟨hd ++ p, a.run st.terminator a.startClosure p⟩ := by
  constructor
  · intro hc'
    obtain ⟨c, hc, hc'⟩ := List.mem_flatMap.mp hc'
    obtain ⟨ext, hext, hc'⟩ := List.mem_filterMap.mp hc'
    obtain ⟨x, hlast, hx, hstep, rfl⟩ := successor_eq_some.mp hc'
    obtain ⟨p, hlen, hq, hlive⟩ := hf.shape c hc
    obtain ⟨e, he, hpre, rfl⟩ := Store.mem_extensions.mp hext
    rw [List.getLast?_concat, Option.some.injEq] at hlast
    have hnext := prefix_of_next_ne hpre (hlast ▸ hx)
    rw [hlast] at hnext
    have hrun : a.run st.terminator a.startClosure (p ++ [x]) = a.step c.live x st.terminator := by
      rw [run_concat, hlive]
    refine ⟨p ++ [x], ⟨by simp [hlen], ⟨e, he, ?_⟩, hrun ▸ hstep⟩, ?_⟩
    · rw [← List.append_assoc]
      exact hq ▸ hnext
    · rw [hrun, hlast, ← List.append_assoc]
      exact congrArg (fun w => Candidate.mk (w ++ [x]) _) hq
  · rintro ⟨p', ⟨hlen, ⟨e, he, hpre⟩, hrun⟩, rfl⟩
    obtain ⟨p, x, rfl⟩ : ∃ p x, p' = p ++ [x] := by
      rcases List.eq_nil_or_concat p' with rfl | ⟨p, x, rfl⟩
      · cases hlen
      · exact ⟨p, x, List.concat_eq_append⟩
    have hpre' : hd ++ p ++ [x] <+: e := by rwa [List.append_assoc]
    have hlive : a.Live st hd k p := by
      refine ⟨by simpa using hlen, ⟨e, he, (List.prefix_append _ _).trans hpre'⟩, fun hnil => ?_⟩
      rw [run_concat, hnil, step_nil] at hrun
      exact hrun rfl
    obtain ⟨c, hc, hq⟩ := hf.covers p hlive
    have hq' : head.getD [] ++ c.word = hd ++ p := hq
    have hget := next_of_prefix hpre'
    have hx : x ≠ st.terminator := fun hx => hfree e he (hx ▸ List.mem_of_getElem? hget)
    refine List.mem_flatMap.mpr ⟨c, hc, List.mem_filterMap.mpr ⟨hd ++ p ++ [x], ?_, ?_⟩⟩
    · refine Store.mem_extensions.mpr ⟨e, he, ?_, ?_⟩
      · rw [hq']
        exact (List.prefix_append _ _).trans hpre'
      · rw [hq', hget]
        rfl
    · rw [run_concat, ← hf.live_eq hc hq] at hrun
      refine successor_eq_some.mpr ⟨x, List.getLast?_concat, hx, hrun, ?_⟩
      rw [run_concat, ← hf.live_eq hc hq, List.append_assoc]

/-- **The step lemma of the search.** The candidates a round hands on are the frontier
of the next round. -/
theorem Frontier.successors (hf : a.Frontier st hd k head cands) :
    a.Frontier st hd (k + 1) none (cands.flatMap (a.successors st st.terminator head)) where
  sorted := by
    rw [show queried none = Candidate.word from funext queried_none]
    exact hf.successors_sorted
  word_le c' hc' := by
    obtain ⟨p, ⟨hlen, -⟩, rfl⟩ := (hf.mem_successors hfree).mp hc'
    simp [hlen]
  shape c' hc' := by
    obtain ⟨p, ⟨hlen, -⟩, rfl⟩ := (hf.mem_successors hfree).mp hc'
    exact ⟨p, hlen, queried_none _, rfl⟩
  covers p hp := ⟨_, (hf.mem_successors hfree).mpr ⟨p, hp, rfl⟩, queried_none _⟩

end Frontier

/-! ## How a search ends -/

/-- How a search from round `k` with `n` rounds left ends, read off the continuations
alone: with the accepted entries of rest `k`, in increasing order, if there are any;
else exhausted, if no continuation of length `k + 1` is live; else as the search from
round `k + 1` ends. -/
inductive Ends (a : Nfa) (st : Store) (hd : List Symbol) : Nat → Nat → Outcome → Prop
  | stepLimit (k : Nat) : Ends a st hd k 0 .stepLimit
  | found (k n : Nat) (S : List (List Symbol)) :
      (∃ p, a.Completes st hd k p) → S.Pairwise (fun x y => cmpSeq x y = .lt) →
      (∀ s, s ∈ S ↔ ∃ p, a.Completes st hd k p ∧ s = hd ++ p ++ [st.terminator]) →
      Ends a st hd k (n + 1) (.found S)
  | exhausted (k n : Nat) : (∀ p, ¬ a.Completes st hd k p) →
      (∀ p, ¬ a.Live st hd (k + 1) p) → Ends a st hd k (n + 1) .exhausted
  | next (k n : Nat) (o : Outcome) : (∀ p, ¬ a.Completes st hd k p) →
      (∃ p, a.Live st hd (k + 1) p) → Ends a st hd (k + 1) n o → Ends a st hd k (n + 1) o

/-- **The run lemma of the search.** From a frontier of round `k`, a search against a
store with `n` rounds left ends as `Ends` says. -/
theorem searchGo_ends {ε : Type} (cfg : SearchConfig) (hlimit : cfg.limit = none)
    (hterm : cfg.terminator = st.terminator) (hfree : ∀ e ∈ st.entries, st.terminator ∉ e) :
    ∀ (n k : Nat) (first : Bool) (cands : List Candidate) (calls : List Query),
      a.Frontier st hd k (if first then cfg.head else none) cands →
      ∃ o, (a.searchGo (st.oracle : Oracle ε) cfg n first cands calls).result = .ok o ∧
        a.Ends st hd k n o
  | 0, k, _, _, _, _ => ⟨.stepLimit, rfl, .stepLimit k⟩
  | n + 1, k, first, cands, calls, hf => by
    obtain ⟨calls', hround⟩ := hf.round (ε := ε) calls
    have hC : ∀ s, s ∈ _ ↔ _ := fun _ => hf.mem_completions hfree
    have hN : ∀ c', c' ∈ _ ↔ _ := fun _ => hf.mem_successors hfree
    simp only [searchGo, hterm, hround, List.isEmpty_reverse, List.reverse_reverse, hlimit]
    -- the round completes an entry, or hands nothing on, or hands on the next frontier
    by_cases hc : (cands.flatMap (a.completions st st.terminator
        (if first then cfg.head else none))).isEmpty
    · have hnone : ∀ p, ¬ a.Completes st hd k p := fun p hp => by
        have hs := (hC _).mpr ⟨p, hp, rfl⟩
        rw [List.isEmpty_iff.mp hc] at hs
        cases hs
      by_cases hn : (cands.flatMap (a.successors st st.terminator
          (if first then cfg.head else none))).isEmpty
      · refine ⟨.exhausted, by simp [hc, hn], .exhausted k n hnone fun p hp => ?_⟩
        have hc' := (hN _).mpr ⟨p, hp, rfl⟩
        rw [List.isEmpty_iff.mp hn] at hc'
        cases hc'
      · obtain ⟨o, ho, hends⟩ := searchGo_ends cfg hlimit hterm hfree n (k + 1) false _ calls'
          (hf.successors hfree)
        refine ⟨o, by simp only [hc, hn]; exact ho, .next k n o hnone ?_ hends⟩
        obtain ⟨c', hc'⟩ := List.exists_mem_of_ne_nil _ fun h => hn (List.isEmpty_iff.mpr h)
        obtain ⟨p, hp, -⟩ := (hN _).mp hc'
        exact ⟨p, hp⟩
    · refine ⟨.found _, by simp [hc], .found k n _ ?_ hf.completions_sorted hC⟩
      obtain ⟨s, hs⟩ := List.exists_mem_of_ne_nil _ fun h => hc (List.isEmpty_iff.mpr h)
      obtain ⟨p, hp, -⟩ := (hC _).mp hs
      exact ⟨p, hp⟩

section Ends

variable {k n : Nat} {o : Outcome}

/-- A search that meets an accepted entry within its rounds, and none before it, finds
the accepted entries of that rest length. -/
theorem Ends.found_of_first (h : a.Ends st hd k n o) {r : Nat} (hkr : k ≤ r) (hrn : r < k + n)
    (hr : ∃ p, a.Completes st hd r p)
    (hbefore : ∀ j, k ≤ j → j < r → ∀ p, ¬ a.Completes st hd j p) :
    ∃ S, o = .found S ∧ S.Pairwise (fun x y => cmpSeq x y = .lt) ∧
      ∀ s, s ∈ S ↔ ∃ p, a.Completes st hd r p ∧ s = hd ++ p ++ [st.terminator] := by
  induction h with
  | stepLimit k => omega
  | found k n S hex hsorted hmem =>
    obtain rfl : r = k := by
      refine (Nat.eq_or_lt_of_le hkr).elim Eq.symm fun hlt => ?_
      obtain ⟨p, hp⟩ := hex
      exact absurd hp (hbefore k (Nat.le_refl k) hlt p)
    exact ⟨S, rfl, hsorted, hmem⟩
  | exhausted k n hnone hdead =>
    obtain ⟨p, hp⟩ := hr
    rcases Nat.eq_or_lt_of_le hkr with rfl | hlt
    · exact absurd hp (hnone p)
    · exact absurd (hp.live.take hlt) (hdead _)
  | next k n o hnone _ _ ih =>
    rcases Nat.eq_or_lt_of_le hkr with rfl | hlt
    · obtain ⟨p, hp⟩ := hr
      exact absurd hp (hnone p)
    · exact ih hlt (by omega) fun j hj hjr => hbefore j (by omega) hjr

/-- A search that meets no accepted entry within its rounds, and whose live
continuations die out within them, is exhausted. -/
theorem Ends.exhausted_of_dead (h : a.Ends st hd k n o)
    (hnone : ∀ r, k ≤ r → r < k + n → ∀ p, ¬ a.Completes st hd r p)
    {j : Nat} (hkj : k ≤ j) (hjn : j < k + n) (hdead : ∀ p, ¬ a.Live st hd (j + 1) p) :
    o = .exhausted := by
  induction h with
  | stepLimit k => omega
  | found k n S hex _ _ =>
    obtain ⟨p, hp⟩ := hex
    exact absurd hp (hnone k (Nat.le_refl k) (by omega) p)
  | exhausted => rfl
  | next k n o _ hlive _ ih =>
    rcases Nat.eq_or_lt_of_le hkj with rfl | hlt
    · obtain ⟨p, hp⟩ := hlive
      exact absurd hp (hdead p)
    · exact ih (fun r hr hrn => hnone r (by omega) (by omega)) hlt (by omega)

/-- A search that meets no accepted entry within its rounds, and whose live
continuations last through them, runs out of rounds. -/
theorem Ends.stepLimit_of_live (h : a.Ends st hd k n o)
    (hnone : ∀ r, k ≤ r → r < k + n → ∀ p, ¬ a.Completes st hd r p)
    (hlive : ∀ j, k ≤ j → j < k + n → ∃ p, a.Live st hd (j + 1) p) : o = .stepLimit := by
  induction h with
  | stepLimit => rfl
  | found k n S hex _ _ =>
    obtain ⟨p, hp⟩ := hex
    exact absurd hp (hnone k (Nat.le_refl k) (by omega) p)
  | exhausted k n _ hdead =>
    obtain ⟨p, hp⟩ := hlive k (Nat.le_refl k) (by omega)
    exact absurd hp (hdead p)
  | next k n o _ _ _ ih =>
    exact ih (fun r hr hrn => hnone r (by omega) (by omega))
      fun j hj hjn => hlive j (by omega) (by omega)

end Ends

/-- The first round's one candidate, the empty word asked with the head, is a frontier. -/
theorem frontier_start (head : Option (List Symbol)) :
    a.Frontier st (head.getD []) 0 head [⟨[], a.startClosure⟩] where
  sorted := List.pairwise_singleton _ _
  word_le c hc := by
    rw [List.mem_singleton.mp hc]
    exact Nat.zero_le _
  shape c hc := by
    rw [List.mem_singleton.mp hc]
    exact ⟨[], rfl, rfl, rfl⟩
  covers p hp := by
    refine ⟨_, List.mem_singleton_self _, ?_⟩
    rw [List.eq_nil_of_length_eq_zero hp.1]
    rfl

/-- **A search of a store finds its shortest accepted entries.** Against a store whose
entries do not hold its terminator, with no breadth limit and the store's terminator, a
search answers with the accepted entries of shortest rest after the head, each followed
by the terminator, once and in increasing order, when that rest fits the rounds; else it
is exhausted when the live continuations die out within the rounds; else it runs out of
rounds. -/
theorem predict_store {ε : Type} (a : Nfa) (st : Store) (cfg : SearchConfig)
    (hlimit : cfg.limit = none) (hterm : cfg.terminator = st.terminator)
    (hfree : ∀ e ∈ st.entries, st.terminator ∉ e) :
    a.ShortestAnswer st (cfg.head.getD []) cfg.maxSteps
      (a.predict (st.oracle : Oracle ε) cfg).result := by
  obtain ⟨o, hres, hends⟩ := searchGo_ends (ε := ε) cfg hlimit hterm hfree (cfg.maxSteps + 1) 0
    true [⟨[], a.startClosure⟩] [] (frontier_start cfg.head)
  rw [predict, hres]
  refine ⟨fun r hr hex hbefore => ?_, fun hnone => ⟨fun ⟨k, hk, hdead⟩ => ?_, fun hlive => ?_⟩⟩
  · obtain ⟨S, rfl, hS⟩ := hends.found_of_first (Nat.zero_le r) (by omega) hex
      fun j _ hj => hbefore j hj
    exact ⟨S, rfl, hS⟩
  · rw [hends.exhausted_of_dead (fun r _ hr => hnone r (by omega)) (Nat.zero_le k) (by omega) hdead]
  · rw [hends.stepLimit_of_live (fun r _ hr => hnone r (by omega))
      fun j _ hj => hlive j (by omega)]

/-- The search for the pattern `.` through a store of `a` and `bc`, with ten rounds. -/
theorem predict_store_wildcard :
    (({} : SearchConfig).limit = none ∧
      ({} : SearchConfig).terminator = (⟨[[.char 'a'], [.char 'b', .char 'c']], .stop⟩ : Store).terminator ∧
      ∀ e ∈ (⟨[[.char 'a'], [.char 'b', .char 'c']], .stop⟩ : Store).entries, Symbol.stop ∉ e) ∧
    (⟨#[⟨false, some (.wildcard, 1), #[]⟩, ⟨true, none, #[]⟩], 0, 1⟩ : Nfa).ShortestAnswer
      ⟨[[.char 'a'], [.char 'b', .char 'c']], .stop⟩ [] 10
      ((⟨#[⟨false, some (.wildcard, 1), #[]⟩, ⟨true, none, #[]⟩], 0, 1⟩ : Nfa).predict
        ((⟨[[.char 'a'], [.char 'b', .char 'c']], .stop⟩ : Store).oracle : Oracle String) {}).result :=
  ⟨⟨rfl, rfl, by decide⟩, predict_store _ _ {} rfl rfl (by decide)⟩

end Nfa

end SeqPattern
