import SeqPattern.Automaton.Closure
import SeqPattern.Proofs.Arena
import Mathlib.Algebra.BigOperators.Group.Finset.Basic
/-!
# Matching is the search for a path

The automaton matches a sequence by simulation: it keeps the list of live states,
closes it under epsilon edges by a depth-first search, and moves it over one symbol
at a time. This file shows that the simulation decides the plain graph property it
stands for: a sequence matches exactly when some path of the arena leads from the
start state to an accepting state and consumes the sequence on its symbol edges.

The depth-first search stops on fuel, so the first half of the file is the
invariant that makes it exact. The states it has discovered are all reachable from
a seed, every in-range epsilon successor of a discovered state is discovered or
still waiting on the stack, and so is every in-range seed. When the stack runs dry,
the discovered states are therefore the reachable ones. The fuel never runs out
first: every round lowers the length of the stack plus the number of epsilon edges
of the states not yet discovered by exactly one, and the fuel starts above that.

States outside the arena read as the empty state. They have no edge and do not
accept, so the closure leaves them out and nothing is lost by it.

Main statements: `Nfa.closure_mem_iff`, `Nfa.run_closure_mem_iff`,
`Nfa.accepts_iff_path`, and `Nfa.accepts_iff_hops`, which spells the path out as the
symbol edges it takes.
-/

namespace SeqPattern

open Relation


namespace Nfa

variable {a : Nfa}

theorem stateAt_eq_get (a : Nfa) (i : Nat) : a.stateAt i = Arena.get a.states i := rfl

/-! ## The depth-first search -/

/-- What the depth-first search of the closure keeps true, for the seeds it started
from: `seen` marks exactly the states of `out`; every state discovered or waiting on the
stack is reachable from a seed; every in-range epsilon successor of a discovered state,
and every in-range seed, is discovered or waiting. -/
structure ClosureInv (a : Nfa) (seeds stack : List Nat) (seen : Array Bool) (out : List Nat) :
    Prop where
  size_eq : seen.size = a.stateCount
  mem_out : ∀ i, i ∈ out ↔ seen[i]? = some true
  reached : ∀ i, i ∈ out ∨ i ∈ stack →
    ∃ s ∈ seeds, ReflTransGen (Arena.EpsStep a.states) s i
  closed : ∀ i ∈ out, ∀ j, Arena.EpsStep a.states i j → j < a.stateCount → j ∈ out ∨ j ∈ stack
  seeds_mem : ∀ s ∈ seeds, s < a.stateCount → s ∈ out ∨ s ∈ stack

/-- The epsilon edges the search may still push: those of the states it has not
discovered. -/
def unseenEps (a : Nfa) (seen : Array Bool) : Nat :=
  ∑ j ∈ Finset.range a.stateCount, if seen[j]? = some false then (a.stateAt j).eps.size else 0

theorem closureGo_cons_of_seen {fuel i : Nat} {stack : List Nat} {seen : Array Bool}
    {out : List Nat} (h : seen[i]?.getD true = true) :
    a.closureGo (fuel + 1) (i :: stack) seen out = a.closureGo fuel stack seen out := by
  simp [closureGo, h]

theorem closureGo_cons_of_unseen {fuel i : Nat} {stack : List Nat} {seen : Array Bool}
    {out : List Nat} (h : seen[i]? = some false) :
    a.closureGo (fuel + 1) (i :: stack) seen out =
      a.closureGo fuel ((a.stateAt i).eps.toList ++ stack) (seen.set! i true) (i :: out) := by
  simp [closureGo, h]

namespace ClosureInv

variable {seeds stack out : List Nat} {seen : Array Bool} {i : Nat}

/-- Popping a state that was discovered before, or lies outside the arena, keeps the
invariant. -/
theorem pop_seen (h : ClosureInv a seeds (i :: stack) seen out)
    (hs : seen[i]?.getD true = true) : ClosureInv a seeds stack seen out := by
  -- a popped state in range is discovered already, so it may leave the stack
  have hout : i < a.stateCount → i ∈ out := by
    intro hi
    rw [h.mem_out]
    have : i < seen.size := h.size_eq ▸ hi
    simpa [Array.getElem?_eq_getElem this] using hs
  refine ⟨h.size_eq, h.mem_out, fun j hj => h.reached j ?_, fun x hx j hj hjn => ?_,
    fun s hs hsn => ?_⟩
  · rcases hj with hj | hj
    · exact .inl hj
    · exact .inr (List.mem_cons_of_mem _ hj)
  · rcases h.closed x hx j hj hjn with hj' | hj'
    · exact .inl hj'
    · rcases List.mem_cons.mp hj' with rfl | hj'
      · exact .inl (hout hjn)
      · exact .inr hj'
  · rcases h.seeds_mem s hs hsn with hs' | hs'
    · exact .inl hs'
    · rcases List.mem_cons.mp hs' with rfl | hs'
      · exact .inl (hout hsn)
      · exact .inr hs'

/-- Discovering a state pushes its epsilon successors and keeps the invariant. -/
theorem pop_unseen (h : ClosureInv a seeds (i :: stack) seen out) (hs : seen[i]? = some false) :
    ClosureInv a seeds ((a.stateAt i).eps.toList ++ stack) (seen.set! i true) (i :: out) := by
  have hi : i < seen.size := by
    by_contra hn
    simp [Array.getElem?_eq_none (Nat.le_of_not_lt hn)] at hs
  obtain ⟨s, hs₀, hsi⟩ := h.reached i (.inr List.mem_cons_self)
  refine ⟨by simp [h.size_eq], fun j => ?_, fun j hj => ?_, fun x hx j hj hjn => ?_,
    fun s hs hsn => ?_⟩
  · by_cases hij : i = j
    · subst hij
      simp [Array.getElem?_setIfInBounds_self_of_lt hi]
    · simp [Array.getElem?_setIfInBounds_ne hij, h.mem_out, Ne.symm hij]
  · rcases hj with hj | hj
    · rcases List.mem_cons.mp hj with rfl | hj
      · exact ⟨s, hs₀, hsi⟩
      · exact h.reached j (.inl hj)
    · rcases List.mem_append.mp hj with hj | hj
      · exact ⟨s, hs₀, hsi.tail (by simpa [Arena.EpsStep, stateAt_eq_get] using hj)⟩
      · exact h.reached j (.inr (List.mem_cons_of_mem _ hj))
  · rcases List.mem_cons.mp hx with rfl | hx
    · exact .inr (List.mem_append_left _ (by simpa [Arena.EpsStep, stateAt_eq_get] using hj))
    · rcases h.closed x hx j hj hjn with hj' | hj'
      · exact .inl (List.mem_cons_of_mem _ hj')
      · rcases List.mem_cons.mp hj' with rfl | hj'
        · exact .inl List.mem_cons_self
        · exact .inr (List.mem_append_right _ hj')
  · rcases h.seeds_mem s hs hsn with hs' | hs'
    · exact .inl (List.mem_cons_of_mem _ hs')
    · rcases List.mem_cons.mp hs' with rfl | hs'
      · exact .inl List.mem_cons_self
      · exact .inr (List.mem_append_right _ hs')

/-- With an empty stack, the discovered states are exactly the in-range states
reachable from a seed. -/
theorem mem_out_iff (h : ClosureInv a seeds [] seen out) :
    i ∈ out ↔ i < a.stateCount ∧ ∃ s ∈ seeds, ReflTransGen (Arena.EpsStep a.states) s i := by
  constructor
  · intro hi
    have hlt : i < seen.size := by
      have := (h.mem_out i).mp hi
      by_contra hn
      simp [Array.getElem?_eq_none (Nat.le_of_not_lt hn)] at this
    exact ⟨h.size_eq ▸ hlt, h.reached i (.inl hi)⟩
  · rintro ⟨hi, s, hs, hsi⟩
    -- along the path every state is in range, since a state outside has no edge
    have key : ∀ j, ReflTransGen (Arena.EpsStep a.states) s j → j < a.stateCount → j ∈ out := by
      intro j hj
      induction hj with
      | refl =>
        intro hsn
        simpa using h.seeds_mem s hs hsn
      | tail _ hxj ih =>
        intro hjn
        have hx := ih (Arena.lt_size_of_epsStep hxj)
        simpa using h.closed _ hx _ hxj hjn
    exact key i hsi hi

end ClosureInv

/-- A weight summed over the states of the arena that the marks `seen` leave
undiscovered. -/
def unseenWeight (a : Nfa) (w : Nat → Nat) (seen : Array Bool) : Nat :=
  ∑ j ∈ Finset.range a.stateCount, if seen[j]? = some false then w j else 0

/-- Discovering an unseen state takes its weight out of the sum over the undiscovered
states. -/
theorem unseenWeight_set (w : Nat → Nat) {seen : Array Bool} {i : Nat}
    (hs : seen[i]? = some false) (hn : seen.size = a.stateCount) :
    a.unseenWeight w (seen.set! i true) + w i = a.unseenWeight w seen := by
  have hi : i < a.stateCount := by
    rw [← hn]
    by_contra h
    simp [Array.getElem?_eq_none (Nat.le_of_not_lt h)] at hs
  have hmem : i ∈ Finset.range a.stateCount := Finset.mem_range.mpr hi
  unfold unseenWeight
  rw [← Finset.add_sum_erase _ _ hmem, ← Finset.add_sum_erase _ _ hmem]
  have hrest : ∑ j ∈ (Finset.range a.stateCount).erase i,
      (if (seen.set! i true)[j]? = some false then w j else 0) =
      ∑ j ∈ (Finset.range a.stateCount).erase i, (if seen[j]? = some false then w j else 0) := by
    refine Finset.sum_congr rfl fun j hj => ?_
    rw [Array.set!_eq_setIfInBounds, Array.getElem?_setIfInBounds_ne (Finset.mem_erase.mp hj).1.symm]
  rw [hrest, Array.set!_eq_setIfInBounds,
    Array.getElem?_setIfInBounds_self_of_lt (by omega), hs]
  simp
  omega

/-- Discovering an unseen state moves its epsilon edges from the count of edges still
to push to the stack. -/
theorem unseenEps_set {seen : Array Bool} {i : Nat} (hs : seen[i]? = some false)
    (hn : seen.size = a.stateCount) :
    a.unseenEps (seen.set! i true) + (a.stateAt i).eps.size = a.unseenEps seen :=
  unseenWeight_set (fun j => (a.stateAt j).eps.size) hs hn

/-- The search returns the in-range states reachable from a seed, as long as the fuel
exceeds the length of the stack plus the epsilon edges of the undiscovered states. -/
theorem closureGo_mem_iff {seeds : List Nat} (fuel : Nat) :
    ∀ {stack : List Nat} {seen : Array Bool} {out : List Nat} {i : Nat},
      ClosureInv a seeds stack seen out → stack.length + a.unseenEps seen < fuel →
      (i ∈ a.closureGo fuel stack seen out ↔
        i < a.stateCount ∧ ∃ s ∈ seeds, ReflTransGen (Arena.EpsStep a.states) s i) := by
  induction fuel with
  | zero => intro _ _ _ _ _ hf; omega
  | succ fuel ih =>
    intro stack seen out i h hf
    cases stack with
    | nil =>
      simp only [closureGo, List.mem_reverse]
      exact h.mem_out_iff
    | cons j stack =>
      by_cases hs : seen[j]?.getD true = true
      · rw [closureGo_cons_of_seen hs]
        exact ih (h.pop_seen hs) (by simp at hf; omega)
      · have hs' : seen[j]? = some false := by
          cases hj : seen[j]? with
          | none => simp [hj] at hs
          | some b => cases b <;> simp_all
        rw [closureGo_cons_of_unseen hs']
        have hw := unseenEps_set hs' h.size_eq
        simp only [List.length_cons] at hf
        exact ih (h.pop_unseen hs') (by simp only [List.length_append, Array.length_toList]; omega)

/-- The epsilon edges of an arena, counted state by state. -/
theorem epsilonCount_eq_sum (a : Nfa) :
    a.epsilonCount = ∑ j ∈ Finset.range a.stateCount, (a.stateAt j).eps.size := by
  have key : ∀ (l : List State) (c : Nat), l.foldl (fun n s => n + s.eps.size) c =
      c + ∑ j ∈ Finset.range l.length, (l[j]?.getD (State.fresh false)).eps.size := by
    intro l
    induction l with
    | nil => simp
    | cons s l ih =>
      intro c
      rw [List.foldl_cons, ih, List.length_cons, Finset.sum_range_succ']
      simp only [List.getElem?_cons_succ, List.getElem?_cons_zero, Option.getD_some]
      omega
  rw [epsilonCount, ← Array.foldl_toList, key, stateCount]
  simp [stateAt_eq_get, Arena.get]

/-- Before the search discovers anything, every epsilon edge is still to push. -/
theorem unseenEps_replicate (a : Nfa) :
    a.unseenEps (Array.replicate a.stateCount false) = a.epsilonCount := by
  rw [epsilonCount_eq_sum, unseenEps]
  refine Finset.sum_congr rfl fun j hj => ?_
  simp [Finset.mem_range.mp hj]

/-- The epsilon closure of a list of seeds is the set of in-range states reachable from
a seed over epsilon edges. -/
theorem closure_mem_iff {seeds : List Nat} {i : Nat} :
    i ∈ a.closure seeds ↔
      i < a.stateCount ∧ ∃ s ∈ seeds, ReflTransGen (Arena.EpsStep a.states) s i := by
  have hinit : ClosureInv a seeds seeds (Array.replicate a.stateCount false) [] := by
    refine ⟨by simp, fun j => ?_, fun j hj => ?_, fun _ h => absurd h (by simp), fun s hs _ => .inr hs⟩
    · simp only [List.not_mem_nil, false_iff, Array.getElem?_replicate]
      split <;> simp
    · rcases hj with hj | hj
      · cases hj
      · exact ⟨j, hj, .refl⟩
  exact closureGo_mem_iff _ hinit (by simp [closureFuel, unseenEps_replicate])

theorem closure_nil : a.closure [] = [] := by
  refine List.eq_nil_iff_forall_not_mem.mpr fun i hi => ?_
  simp [closure_mem_iff] at hi

/-! ## Steps and runs -/

/-- A state is live after a step when an epsilon path reaches it from the target of a
live state's symbol edge that accepts the input. -/
theorem step_mem_iff {live : List Nat} {x term : Symbol} {j : Nat} :
    j ∈ a.step live x term ↔ j < a.stateCount ∧
      ∃ i ∈ live, ∃ k, (a.stateAt i).step x term = some k ∧
        ReflTransGen (Arena.EpsStep a.states) k j := by
  simp only [step, closure_mem_iff, List.mem_filterMap]
  constructor
  · rintro ⟨hj, k, ⟨i, hi, hik⟩, hkj⟩
    exact ⟨hj, i, hi, k, hik, hkj⟩
  · rintro ⟨hj, i, hi, k, hik, hkj⟩
    exact ⟨hj, k, ⟨i, hi, hik⟩, hkj⟩

/-- The simulation of a sequence from a live set: one step per symbol, with nothing
stopping it early. -/
def run (a : Nfa) (term : Symbol) (live : List Nat) (w : List Symbol) : List Nat :=
  w.foldl (fun live x => a.step live x term) live

@[simp] theorem run_nil (term : Symbol) (live : List Nat) : a.run term live [] = live := rfl

@[simp] theorem run_cons (term x : Symbol) (live : List Nat) (w : List Symbol) :
    a.run term live (x :: w) = a.run term (a.step live x term) w := rfl

/-- A run from no live state stays without one. -/
theorem run_empty (term : Symbol) (w : List Symbol) : a.run term [] w = [] := by
  induction w with
  | nil => rfl
  | cons x w ih => rw [run_cons, step, List.filterMap_nil, closure_nil, ih]

/-- After a run from the closure of some seeds, the live states are the in-range states
that a path from a seed reaches while consuming the sequence. -/
theorem run_closure_mem_iff (term : Symbol) (w : List Symbol) :
    ∀ {seeds : List Nat} {j : Nat},
      j ∈ a.run term (a.closure seeds) w ↔
        j < a.stateCount ∧ ∃ s ∈ seeds, Arena.Path a.states term s w j := by
  induction w with
  | nil =>
    intro seeds j
    simp [closure_mem_iff, Arena.path_nil_iff]
  | cons x w ih =>
    intro seeds j
    rw [run_cons, step, ih]
    simp only [List.mem_filterMap, closure_mem_iff, Arena.path_cons_iff, ← stateAt_eq_get]
    constructor
    · rintro ⟨hj, k, ⟨i, ⟨-, s, hs, hsi⟩, hik⟩, hkj⟩
      exact ⟨hj, s, hs, i, k, hsi, hik, hkj⟩
    · rintro ⟨hj, s, hs, i, k, hsi, hik, hkj⟩
      have hi : i < a.stateCount := Arena.lt_size_of_step (by rwa [← stateAt_eq_get])
      exact ⟨hj, k, ⟨i, ⟨hi, s, hs, hsi⟩, hik⟩, hkj⟩

/-- Whether any of the given states accepts, read as an existence. -/
theorem anyAccepting_iff {ids : List Nat} :
    a.anyAccepting ids = true ↔ ∃ i ∈ ids, (a.stateAt i).accepting = true := by
  simp [anyAccepting]

/-- Stopping on an empty live set changes no answer: the run from it stays empty. -/
theorem acceptsFrom_eq_run (w : List Symbol) :
    ∀ live, a.acceptsFrom w live = a.anyAccepting (a.run .stop live w) := by
  induction w with
  | nil => intro live; rfl
  | cons x w ih =>
    intro live
    simp only [acceptsFrom, run_cons]
    split
    · rename_i hnext
      rw [List.isEmpty_iff.mp hnext, run_empty]
      rfl
    · exact ih _

/-- **Matching is path search.** The automaton accepts a sequence exactly when a path
from its start state that consumes the sequence ends in an accepting state. -/
theorem accepts_iff_path (w : List Symbol) :
    a.accepts w = true ↔ ∃ j, Arena.Path a.states .stop a.start w j ∧ (a.stateAt j).accepting = true := by
  rw [accepts, acceptsFrom_eq_run, anyAccepting_iff, startClosure]
  constructor
  · rintro ⟨j, hj, hacc⟩
    obtain ⟨-, s, hs, hp⟩ := (run_closure_mem_iff _ w).mp hj
    rw [List.mem_singleton.mp hs] at hp
    exact ⟨j, hp, hacc⟩
  · rintro ⟨j, hp, hacc⟩
    have hj : j < a.stateCount := Arena.lt_size_of_accepting (by rwa [← stateAt_eq_get])
    exact ⟨j, (run_closure_mem_iff _ w).mpr ⟨hj, a.start, List.mem_singleton_self _, hp⟩, hacc⟩

/-! ## Paths spelled out as hops

A path is written out as the symbol edges it takes, in order, each a hop
`(source, label, target)`, and the epsilon stretches between them: from the first
state to the first hop's source, from each hop's target to the next hop's source, and
from the last hop's target to the end. -/

/-- A hop takes the symbol edge of its source, whose label accepts the symbol `y`, the
wildcard refusing the terminator `term`. -/
def Crosses (a : Nfa) (term : Symbol) (hop : Nat × Symbol × Nat) (y : Symbol) : Prop :=
  (a.stateAt hop.1).edge = some (hop.2.1, hop.2.2) ∧ hop.2.1.accepts y term = true

/-- The epsilon stretches around a list of hops, from `i` to `k`. -/
def Stretches (a : Nfa) : Nat → List (Nat × Symbol × Nat) → Nat → Prop
  | i, [], k => ReflTransGen (Arena.EpsStep a.states) i k
  | i, (p, _, q) :: hops, k => ReflTransGen (Arena.EpsStep a.states) i p ∧ a.Stretches q hops k

/-- A state's step on a symbol is a hop over its symbol edge. -/
theorem step_eq_some_iff {term x : Symbol} {p q : Nat} :
    (a.stateAt p).step x term = some q ↔ ∃ l, a.Crosses term (p, l, q) x := by
  unfold State.step Crosses
  split
  · rename_i l t hedge
    cases hl : l.accepts x term <;> simp [hedge, hl]
  · rename_i hedge
    simp [hedge]

/-- A path consumes a sequence exactly when it takes one hop per symbol, in order, with
epsilon stretches around them. -/
theorem path_iff_hops (term : Symbol) (w : List Symbol) :
    ∀ {i k : Nat}, Arena.Path a.states term i w k ↔
      ∃ hops, List.Forall₂ (a.Crosses term) hops w ∧ a.Stretches i hops k := by
  induction w with
  | nil =>
    intro i k
    rw [Arena.path_nil_iff]
    constructor
    · intro h
      exact ⟨[], .nil, h⟩
    · rintro ⟨hops, hf, hs⟩
      rw [List.forall₂_nil_right_iff.mp hf] at hs
      exact hs
  | cons x w ih =>
    intro i k
    rw [Arena.path_cons_iff]
    constructor
    · rintro ⟨p, q, hip, hstep, hpath⟩
      obtain ⟨l, hcross⟩ := step_eq_some_iff.mp (by rwa [stateAt_eq_get])
      obtain ⟨hops, hf, hs⟩ := ih.mp hpath
      exact ⟨(p, l, q) :: hops, .cons hcross hf, hip, hs⟩
    · rintro ⟨hops, hf, hs⟩
      -- the first hop is the first symbol's edge
      obtain ⟨⟨p, l, q⟩, rest, hcross, hrest, rfl⟩ := List.forall₂_cons_right_iff.mp hf
      obtain ⟨hip, hs⟩ := hs
      have hstep : (a.stateAt p).step x term = some q := step_eq_some_iff.mpr ⟨l, hcross⟩
      exact ⟨p, q, hip, by rwa [← stateAt_eq_get], ih.mpr ⟨rest, hrest, hs⟩⟩

/-- **Matching follows symbol edges one symbol at a time.** Whatever its arena, the
automaton accepts a sequence exactly when some path from its start state to an
accepting state moves over epsilon edges freely and takes one symbol edge
`(label, target)` per symbol `y` of the sequence, in order, with a label that accepts
`y` (the wildcard refusing only the terminator). -/
theorem accepts_iff_hops (a : Nfa) (s : List Symbol) :
    a.accepts s = true ↔ ∃ hops k, List.Forall₂ (a.Crosses .stop) hops s ∧
      a.Stretches a.start hops k ∧ (a.stateAt k).accepting = true := by
  rw [accepts_iff_path]
  constructor
  · rintro ⟨k, hpath, hacc⟩
    obtain ⟨hops, hf, hs⟩ := (path_iff_hops .stop s).mp hpath
    exact ⟨hops, k, hf, hs, hacc⟩
  · rintro ⟨hops, k, hf, hs, hacc⟩
    exact ⟨k, (path_iff_hops .stop s).mpr ⟨hops, hf, hs⟩, hacc⟩

end Nfa

end SeqPattern
