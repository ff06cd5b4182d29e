import SeqPattern.Proofs.Budget
import SeqPattern.Proofs.Layout
import SeqPattern.Proofs.Simulation
/-!
# Every lookup in range

The library reads and writes its arenas through total lookups: a state outside the
arena reads as the empty state, and a write outside it changes nothing. A lookup out
of range would go unnoticed here instead of failing, and the types do not rule it
out. This file shows that none happens: wherever the library reads or writes a state
by its number, or cuts a list or a text at a position, the position is in range, for
every stream and every sequence.

## What is proved here, and why in this shape

Being in range is a fact about an index at the moment it is used, so each result is
an invariant of the loop or the run that produces the indices:

* the compiler's fragment stack, before every token: the operands' entries and exits
  lie in the arena and each exit has no symbol edge. The combinators touch only their
  operands' ends and the states they allocate, and they set a symbol edge only on a
  state they allocate or on an operand's exit.
* the chain of a bounded repetition, round by round (`Build.ChainRound`): the last link
  is in the arena and has no symbol edge when the next link is hung on it, and a chain
  grows by one link a round, so that after the check `min ≤ max` dropping its first
  `min` links stays within it.
* the depth-first search of a closure, round by round (`Nfa.ClosureRound`): from seeds
  in the arena of a compiled automaton, every state on the stack lies in the arena,
  because every edge of such an automaton leads into it.
* allocation under the budget, which numbers states below `2^20`, so that every number
  fits in 32 bits.
* the class and repetition atoms, whose delimiters take one byte each, so that both
  ends of the text they enclose fall on character boundaries.

Main statement: `Nfa.compile_in_range`.
-/

namespace SeqPattern

open Relation Arena

namespace Layout

variable {ar : Array State}

/-- The fragments of a tiled stack lie below the tiling's bound, and their exits have
no edge. -/
theorem Tiling.ends_lt {hi : Nat} {fs : List Fragment} (h : Tiling ar hi fs) :
    ∀ f ∈ fs, f.entry < hi ∧ f.exit < hi ∧ Quiet (get ar f.exit) := by
  induction h with
  | nil => exact fun f hf => absurd hf List.not_mem_nil
  | cons _ hf ih =>
    intro g hg
    rcases List.mem_cons.1 hg with rfl | hg
    · exact ⟨hf.entry_mem.2, hf.exit_mem.2, hf.exit_quiet⟩
    · -- the fragments below own the states below this one's interval
      have hlo := hf.lo_lt
      obtain ⟨he, hx, hq⟩ := ih g hg
      exact ⟨by omega, by omega, hq⟩

end Layout

namespace Build

variable {cap : Option Nat} {ar ar' : Array State}

/-! ## The compiler's stack -/

/-- Before each token of a stream, the compiler's stack holds fragments whose ends lie
in an arena within the budget, and whose exits have no symbol edge. -/
theorem applyTokens_ends_lt (ts : List Token) {stack : List Fragment}
    (h : (applyTokens (some maxStates) ts []).run #[] = .ok stack ar) :
    ar.size ≤ maxStates ∧
      ∀ f ∈ stack, f.entry < ar.size ∧ f.exit < ar.size ∧ (get ar f.exit).edge = none := by
  refine ⟨?_, fun f hf => ?_⟩
  · -- the run within the budget answers for the one without it, from the empty arena
    exact ((Agrees.applyTokens maxStates ts []).fits #[] (Nat.zero_le _)).size_le (.inl ⟨stack, h⟩)
  · obtain ⟨he, hx, hq⟩ := (Layout.Tiling.applyTokens ts .nil h).ends_lt f hf
    exact ⟨he, hx, hq.1⟩

/-- A state allocated under the budget is numbered below `2^20`, hence in 32 bits; it
lies in the new arena and has no edge. -/
theorem addState_lt {acc : Bool} {i : Nat} (h : (addState (some maxStates) acc).run ar = .ok i ar') :
    i < 2 ^ 32 ∧ i < ar'.size ∧ (get ar' i).edge = none := by
  obtain ⟨hroom, rfl, rfl⟩ := run_addState_eq_ok.1 h
  have hlt : ar.size < maxStates := hroom maxStates rfl
  refine ⟨?_, by simp, by simp [State.fresh]⟩
  unfold maxStates at hlt
  omega

/-! ## The chain of a bounded repetition -/

/-- A bounded repetition checks its range first: with `max < min` it fails at once and
leaves the arena alone. -/
theorem boundedRepeat_of_lt {a : Fragment} {min max : Nat} (h : max < min) :
    (boundedRepeat cap a min max).run ar = .error (.repeatRange min max) ar := by
  simp [boundedRepeat, h]

/-- One round of laying a chain over `label`, with `k + 1` rounds to go: allocate the
next link, and give the last link laid, the head of the chain, its symbol edge to it. -/
inductive ChainRound (cap : Option Nat) (label : Symbol) :
    Nat × List Nat × Array State → Nat × List Nat × Array State → Prop
  | link {k next : Nat} {chain : List Nat} {ar ar₁ ar₂ : Array State} :
      (addState cap false).run ar = .ok next ar₁ →
      (setEdge (chain.headD 0) label next).run ar₁ = .ok () ar₂ →
      ChainRound cap label (k + 1, chain, ar) (k, next :: chain, ar₂)

/-- Laying `k + 1` rounds of chain is one round and then `k` more, unless allocating the
round's link fails. -/
theorem extendChain_succ (label : Symbol) (k : Nat) (chain : List Nat) (ar : Array State) :
    (∃ e ar₁, (addState cap false).run ar = .error e ar₁ ∧
        (extendChain cap label (k + 1) chain).run ar = .error e ar₁) ∨
      ∃ s, ChainRound cap label (k + 1, chain, ar) s ∧
        (extendChain cap label (k + 1) chain).run ar = (extendChain cap label s.1 s.2.1).run s.2.2 := by
  cases halloc : (addState cap false).run ar with
  | error e ar₁ =>
    refine .inl ⟨e, ar₁, rfl, ?_⟩
    simp only [extendChain, EStateM.run_bind, halloc]
  | ok next ar₁ =>
    refine .inr ⟨_, .link halloc (run_setEdge _ _ _), ?_⟩
    simp only [extendChain, EStateM.run_bind, halloc, run_setEdge]

/-- A chain of `k` rounds has `k` more links than it started with. -/
theorem extendChain_length {label : Symbol} (k : Nat) :
    ∀ {chain : List Nat} {ar ar' : Array State} {links : List Nat},
      (extendChain cap label k chain).run ar = .ok links ar' → links.length = k + chain.length := by
  induction k with
  | zero =>
    intro chain ar ar' links h
    simp only [extendChain, EStateM.run_pure, EStateM.Result.ok.injEq] at h
    obtain ⟨rfl, rfl⟩ := h
    simp
  | succ k ih =>
    intro chain ar ar' links h
    rcases extendChain_succ label k chain ar with ⟨e, ar₁, -, herr⟩ | ⟨s, hround, hrun⟩
    · rw [herr] at h
      cases h
    · -- the round pushes one link, and the remaining `k` rounds push the rest
      cases hround
      rw [hrun] at h
      rw [ih h, List.length_cons]
      omega

/-- A chain ready for its next round: it has a last link, which lies in the arena and
has no symbol edge. -/
def ChainReady (s : Nat × List Nat × Array State) : Prop :=
  ∃ p rest, s.2.1 = p :: rest ∧ p < s.2.2.size ∧ (get s.2.2 p).edge = none

/-- A round hangs its new link on a ready chain and leaves the chain ready: the new link
is fresh, and the edge set is the old last link's. -/
theorem ChainRound.ready {label : Symbol} {s s' : Nat × List Nat × Array State}
    (h : ChainRound cap label s s') (hs : ChainReady s) : ChainReady s' := by
  cases h with
  | @link k next chain ar ar₁ ar₂ halloc hset =>
    obtain ⟨p, rest, hchain, hp, -⟩ := hs
    obtain ⟨-, rfl, rfl⟩ := run_addState_eq_ok.1 halloc
    rw [run_setEdge] at hset
    cases hset
    refine ⟨ar.size, chain, rfl, by simp, ?_⟩
    -- the old last link lies below the new one, so its edge is not the new link's
    simp only at hchain hp
    subst hchain
    simp [Nat.ne_of_lt hp, State.fresh]

/-- Every round of a chain laid from a ready start finds the chain ready. -/
theorem ChainReady.of_rounds {label : Symbol} {s s' : Nat × List Nat × Array State}
    (h : ReflTransGen (ChainRound cap label) s s') (hs : ChainReady s) : ChainReady s' := by
  induction h with
  | refl => exact hs
  | tail _ hround ih => exact hround.ready ih

/-- A bounded repetition starts its chain ready: allocating the new exit and demoting
the operand's exit keep that exit in the arena without a symbol edge. -/
theorem chainReady_start {a : Fragment} {exit : Nat} {ar₁ ar₂ : Array State} (k : Nat)
    (hx : a.exit < ar.size) (hq : (get ar a.exit).edge = none)
    (halloc : (addState cap true).run ar = .ok exit ar₁) (hdemote : (demote a.exit).run ar₁ = .ok () ar₂) :
    ChainReady (k, [a.exit, a.entry], ar₂) := by
  obtain ⟨-, rfl, rfl⟩ := run_addState_eq_ok.1 halloc
  rw [run_demote] at hdemote
  cases hdemote
  have hx' : a.exit < ar.size + 1 := by omega
  refine ⟨a.exit, [a.entry], rfl, by simpa using hx', ?_⟩
  simp [Nat.ne_of_gt hx, hx', hq]

end Build

namespace Nfa

variable {a : Nfa}

/-! ## The closure's search -/

/-- One round of the depth-first search of a closure, on the stack, the marks of the
discovered states and the closure so far: a state popped that is marked, or has no
mark, is dropped; any other is marked, recorded, and its epsilon targets pushed in
order. -/
inductive ClosureRound (a : Nfa) :
    List Nat × Array Bool × List Nat → List Nat × Array Bool × List Nat → Prop
  | skip {i : Nat} {stack : List Nat} {seen : Array Bool} {out : List Nat} :
      seen[i]?.getD true = true → ClosureRound a (i :: stack, seen, out) (stack, seen, out)
  | visit {i : Nat} {stack : List Nat} {seen : Array Bool} {out : List Nat} :
      seen[i]?.getD true = false →
      ClosureRound a (i :: stack, seen, out)
        ((a.stateAt i).eps.toList ++ stack, seen.set! i true, i :: out)

/-- The rounds are those of the search: one round spends one unit of fuel. -/
theorem closureGo_round {fuel : Nat} {s s' : List Nat × Array Bool × List Nat}
    (h : ClosureRound a s s') :
    a.closureGo (fuel + 1) s.1 s.2.1 s.2.2 = a.closureGo fuel s'.1 s'.2.1 s'.2.2 := by
  cases h with
  | skip hseen => simp [closureGo, hseen]
  | visit hseen => simp [closureGo, hseen]

/-- Every closure the search returns is read off a state that its rounds reach. -/
theorem closureGo_reaches (fuel : Nat) :
    ∀ s : List Nat × Array Bool × List Nat,
      ∃ s', ReflTransGen a.ClosureRound s s' ∧ a.closureGo fuel s.1 s.2.1 s.2.2 = s'.2.2.reverse := by
  induction fuel with
  | zero => exact fun s => ⟨s, .refl, by simp [closureGo]⟩
  | succ fuel ih =>
    rintro ⟨stack, seen, out⟩
    cases stack with
    | nil => exact ⟨_, .refl, by simp [closureGo]⟩
    | cons i stack =>
      -- a nonempty stack always has a round, and the search goes on from its end
      have hround : ∃ s', a.ClosureRound (i :: stack, seen, out) s' := by
        cases hseen : seen[i]?.getD true
        · exact ⟨_, .visit hseen⟩
        · exact ⟨_, .skip hseen⟩
      obtain ⟨s₁, h₁⟩ := hround
      obtain ⟨s', hreach, hout⟩ := ih s₁
      exact ⟨s', .head h₁ hreach, (closureGo_round h₁).trans hout⟩

/-- From a stack in the arena, a round keeps the stack in the arena, when every epsilon
edge leads into it. -/
theorem ClosureRound.stack_lt (htargets : ∀ i j, j ∈ (a.stateAt i).eps → j < a.stateCount)
    {s s' : List Nat × Array Bool × List Nat} (h : ClosureRound a s s')
    (hs : ∀ i ∈ s.1, i < a.stateCount) : ∀ i ∈ s'.1, i < a.stateCount := by
  cases h with
  | skip _ => exact fun j hj => hs j (List.mem_cons_of_mem _ hj)
  | @visit i stack seen out _ =>
    intro j hj
    rcases List.mem_append.1 hj with hj | hj
    · exact htargets i j (Array.mem_toList_iff.1 hj)
    · exact hs j (List.mem_cons_of_mem _ hj)

/-- Every round reached from a stack in the arena has its stack in the arena. -/
theorem stack_lt_of_rounds (htargets : ∀ i j, j ∈ (a.stateAt i).eps → j < a.stateCount)
    {s s' : List Nat × Array Bool × List Nat} (h : ReflTransGen a.ClosureRound s s')
    (hs : ∀ i ∈ s.1, i < a.stateCount) : ∀ i ∈ s'.1, i < a.stateCount := by
  induction h with
  | refl => exact hs
  | tail _ hround ih => exact hround.stack_lt htargets ih

/-! ## Compiled automata -/

/-- A compiled automaton holds at most `2^20` states. -/
theorem compile_stateCount_le {ts : List Token} (h : compile ts = .ok a) :
    a.stateCount ≤ Build.maxStates := by
  unfold compile compileWith at h
  split at h
  · rename_i f ar hrun
    cases h
    -- the construction within the budget answers for the one without it
    exact ((Build.Agrees.construct Build.maxStates ts).fits #[] (Nat.zero_le _)).size_le
      (.inl ⟨f, hrun⟩)
  · cases h

end Nfa

namespace Pattern

/-- An atom that opens with a one-byte delimiter and closes with another is the two
delimiters around the text between them, and byte `1` and the byte before the last
are character boundaries. -/
theorem delimited_atom {atom : String} {o c : Char} {rest : List Char}
    (ho : o.utf8Size = 1) (hc : c.utf8Size = 1)
    (h : atom.toList = o :: rest) (hlast : rest.getLast? = some c) :
    atom = String.singleton o ++ String.ofList rest.dropLast ++ String.singleton c ∧
      (⟨1⟩ : String.Pos.Raw).IsValid atom ∧
      (⟨atom.utf8ByteSize - 1⟩ : String.Pos.Raw).IsValid atom := by
  obtain ⟨body, rfl⟩ := List.getLast?_eq_some_iff.1 hlast
  have hatom : atom = String.singleton o ++ String.ofList body ++ String.singleton c := by
    rw [← @String.ofList_toList atom, h, String.singleton_eq_ofList, String.singleton_eq_ofList,
      ← String.ofList_append, ← String.ofList_append]
    rfl
  rw [List.dropLast_concat]
  refine ⟨hatom, ?_, ?_⟩
  · -- byte `1` ends the opening delimiter
    rw [String.Pos.Raw.isValid_iff_exists_append]
    refine ⟨String.singleton o, String.ofList body ++ String.singleton c,
      by rw [hatom, String.append_assoc], ?_⟩
    ext
    simp [ho]
  · -- the byte before the last starts the closing delimiter
    rw [String.Pos.Raw.isValid_iff_exists_append]
    refine ⟨String.singleton o ++ String.ofList body, String.singleton c, hatom, ?_⟩
    ext
    simp [hatom, hc]

end Pattern

namespace Nfa

/-! ## Every lookup in range -/

/-- **Every lookup in range.** For every stream given to the compiler:

* before each token, the fragments on the stack have their ends in an arena of at most
  `2^20` states, and their exits have no symbol edge; a state allocated under the
  budget is numbered in 32 bits, lies in the arena and has no edge;
* a bounded repetition with `max < min` fails before it lays a chain; a chain of `k`
  rounds has `k` more links than it started with; and once the repetition has allocated
  its exit and demoted its operand's, whose exit is in the arena without a symbol edge,
  every round of its chain hangs the new link on a last link in the arena without one;
* the automaton compiled holds at most `2^20` states, its start is one of them and every
  symbol edge leads to one; from seeds among them, a closure is the record of a search
  each round of which holds only states of the arena, and holds only such states;
* a class or repetition atom has its enclosed text between two character boundaries,
  one byte from either end. -/
theorem compile_in_range (ts : List Token) :
    (∀ stack ar, (Build.applyTokens (some Build.maxStates) ts []).run #[] = .ok stack ar →
      ar.size ≤ Build.maxStates ∧
        ∀ f ∈ stack, f.entry < ar.size ∧ f.exit < ar.size ∧ (get ar f.exit).edge = none) ∧
    (∀ acc ar i ar', (Build.addState (some Build.maxStates) acc).run ar = .ok i ar' →
      i < 2 ^ 32 ∧ i < ar'.size ∧ (get ar' i).edge = none) ∧
    (∀ cap a min max ar, max < min →
      (Build.boundedRepeat cap a min max).run ar = .error (.repeatRange min max) ar) ∧
    (∀ cap label k chain ar links ar',
      (Build.extendChain cap label k chain).run ar = .ok links ar' →
        links.length = k + chain.length) ∧
    (∀ cap label (a : Fragment) exit k ar ar₁ ar₂, a.exit < ar.size →
      (get ar a.exit).edge = none → (Build.addState cap true).run ar = .ok exit ar₁ →
      (Build.demote a.exit).run ar₁ = .ok () ar₂ →
        ∀ s, ReflTransGen (Build.ChainRound cap label) (k, [a.exit, a.entry], ar₂) s →
          Build.ChainReady s) ∧
    (∀ a, compile ts = .ok a →
      a.stateCount ≤ Build.maxStates ∧ a.start < a.stateCount ∧
      (∀ i x term j, (a.stateAt i).step x term = some j → j < a.stateCount) ∧
      ∀ seeds, (∀ s ∈ seeds, s < a.stateCount) →
        (∃ st, ReflTransGen a.ClosureRound (seeds, Array.replicate a.stateCount false, []) st ∧
          a.closure seeds = st.2.2.reverse) ∧
        (∀ st, ReflTransGen a.ClosureRound (seeds, Array.replicate a.stateCount false, []) st →
          ∀ i ∈ st.1, i < a.stateCount) ∧
        ∀ i ∈ a.closure seeds, i < a.stateCount) ∧
    ∀ (atom : String) (o c : Char) (rest : List Char), (o, c) ∈ [('[', ']'), ('\x7b', '\x7d')] →
      atom.toList = o :: rest → rest.getLast? = some c →
        atom = String.singleton o ++ String.ofList rest.dropLast ++ String.singleton c ∧
          (⟨1⟩ : String.Pos.Raw).IsValid atom ∧
          (⟨atom.utf8ByteSize - 1⟩ : String.Pos.Raw).IsValid atom := by
  refine ⟨?_, ?_, ?_, ?_, ?_, ?_, ?_⟩
  · intro stack ar h
    exact Build.applyTokens_ends_lt ts h
  · intro acc ar i ar' h
    exact Build.addState_lt h
  · intro cap a min max ar h
    exact Build.boundedRepeat_of_lt h
  · intro cap label k chain ar links ar' h
    exact Build.extendChain_length k h
  · intro cap label a exit k ar ar₁ ar₂ hx hq halloc hdemote s hs
    -- the chain starts ready, and every round keeps it so
    apply Build.ChainReady.of_rounds hs
    exact Build.chainReady_start k hx hq halloc hdemote
  · intro a h
    -- every edge of a compiled automaton leads into its arena
    have hexit := compileWith_singleExit h
    have htargets : ∀ i j, j ∈ (a.stateAt i).eps → j < a.stateCount :=
      fun i j hj => hexit.targets_lt i j (.inl hj)
    refine ⟨compile_stateCount_le h, hexit.start_lt, ?_, ?_⟩
    · intro i x term j hj
      exact hexit.targets_lt i j (targets_of_step hj)
    · intro seeds hseeds
      refine ⟨closureGo_reaches _ _, ?_, ?_⟩
      · intro st hst
        exact stack_lt_of_rounds htargets hst hseeds
      · intro i hi
        exact (closure_mem_iff.1 hi).1
  · intro atom o c rest hdelim h hlast
    -- both pairs of delimiters are ASCII
    have hsize : o.utf8Size = 1 ∧ c.utf8Size = 1 := by
      simp only [List.mem_cons, Prod.mk.injEq, List.not_mem_nil, or_false] at hdelim
      rcases hdelim with ⟨rfl, rfl⟩ | ⟨rfl, rfl⟩ <;> decide
    exact Pattern.delimited_atom hsize.1 hsize.2 h hlast

end Nfa

end SeqPattern
