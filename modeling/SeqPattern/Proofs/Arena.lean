import SeqPattern.Automaton.Basic
import Mathlib.Logic.Relation
/-!
# The arena as a graph

An arena is read as a labelled graph on its indices: a state has epsilon edges and
at most one symbol edge, and an index outside the arena is a state without edges.
A path consumes a sequence, one symbol for each symbol edge it takes, where a label
accepts a symbol as `Symbol.accepts` says, with the terminator as the one symbol the
wildcard refuses.

Besides the small algebra of paths (composition, the first symbol edge of a path,
the end of a path at a state without edges), this file holds the two region lemmas
on which every statement about building automata rests. A region of the arena is
closed when the edges of its states, except those of one port state, stay inside
it. If a new arena agrees with an old one on such a region off the port:

- a path of the old arena that starts in the region, and never leaves the port
  because the port had no edges, is a path of the new arena (`Path.lift`);
- a path of the new arena that starts in the region is a path of the old arena
  that stays in the region, or it first reaches the port by such a path and goes on
  from there (`Path.escape`).

Main statements: `Arena.Path.lift` and `Arena.Path.escape`.
-/

namespace SeqPattern

open Relation

namespace Arena

/-- The state at an index of an arena; outside the arena, the empty state. -/
def get (ar : Array State) (i : Nat) : State := ar[i]?.getD (State.fresh false)

/-- An epsilon edge of an arena. -/
def EpsStep (ar : Array State) (i j : Nat) : Prop := j ∈ (get ar i).eps

/-- A path through an arena from one state to another that consumes a sequence:
epsilon edges consume nothing, and a symbol edge consumes one symbol that its label
accepts, the wildcard refusing the terminator `term`. -/
inductive Path (ar : Array State) (term : Symbol) : Nat → List Symbol → Nat → Prop
  | refl (i : Nat) : Path ar term i [] i
  | eps {i j k : Nat} {w : List Symbol} : EpsStep ar i j → Path ar term j w k → Path ar term i w k
  | sym {i j k : Nat} {x : Symbol} {w : List Symbol} :
      (get ar i).step x term = some j → Path ar term j w k → Path ar term i (x :: w) k

variable {ar : Array State} {term : Symbol}

theorem get_of_size_le {i : Nat} (h : ar.size ≤ i) : get ar i = State.fresh false := by
  simp [get, Array.getElem?_eq_none h]

/-- Only a state of the arena has an epsilon edge. -/
theorem lt_size_of_epsStep {i j : Nat} (h : EpsStep ar i j) : i < ar.size := by
  refine (Nat.lt_or_ge i ar.size).resolve_right fun hi => ?_
  rw [EpsStep, get_of_size_le hi] at h
  simp [State.fresh] at h

/-- Only a state of the arena has a symbol edge. -/
theorem lt_size_of_step {i j : Nat} {x : Symbol} (h : (get ar i).step x term = some j) :
    i < ar.size := by
  refine (Nat.lt_or_ge i ar.size).resolve_right fun hi => ?_
  rw [get_of_size_le hi] at h
  simp [State.fresh, State.step] at h

/-- Only a state of the arena accepts. -/
theorem lt_size_of_accepting {i : Nat} (h : (get ar i).accepting = true) : i < ar.size := by
  refine (Nat.lt_or_ge i ar.size).resolve_right fun hi => ?_
  rw [get_of_size_le hi] at h
  simp [State.fresh] at h

namespace Path

/-- Paths compose, and the sequences they consume are joined. -/
theorem append {i j k : Nat} {u v : List Symbol} (h₁ : Path ar term i u j) (h₂ : Path ar term j v k) :
    Path ar term i (u ++ v) k := by
  induction h₁ with
  | refl => exact h₂
  | eps hij _ ih => exact .eps hij (ih h₂)
  | sym hij _ ih => exact .sym hij (ih h₂)

/-- A path over epsilon edges alone consumes nothing. -/
theorem of_reflTransGen {i j : Nat} (h : ReflTransGen (EpsStep ar) i j) : Path ar term i [] j := by
  induction h using ReflTransGen.head_induction_on with
  | refl => exact .refl _
  | head hij _ ih => exact .eps hij ih

/-- A path that consumes nothing uses epsilon edges alone. -/
theorem reflTransGen {i j : Nat} {w : List Symbol} (h : Path ar term i w j) (hw : w = []) :
    ReflTransGen (EpsStep ar) i j := by
  induction h with
  | refl => exact .refl
  | eps hij _ ih => exact .head hij (ih hw)
  | sym _ _ _ => cases hw

end Path

theorem path_nil_iff {i j : Nat} : Path ar term i [] j ↔ ReflTransGen (EpsStep ar) i j :=
  ⟨fun h => h.reflTransGen rfl, Path.of_reflTransGen⟩

/-- The first symbol a path consumes is read off one symbol edge, after epsilon edges
alone. -/
theorem Path.exists_step_of_cons {i k : Nat} {u : List Symbol} (h : Path ar term i u k)
    {x : Symbol} {w : List Symbol} (hu : u = x :: w) :
    ∃ j j', ReflTransGen (EpsStep ar) i j ∧ (get ar j).step x term = some j' ∧
      Path ar term j' w k := by
  induction h with
  | refl => cases hu
  | eps hij _ ih =>
    obtain ⟨j, j', hr, hs, hp⟩ := ih hu
    exact ⟨j, j', .head hij hr, hs, hp⟩
  | sym hij hp _ =>
    cases hu
    exact ⟨_, _, .refl, hij, hp⟩

/-- A path that consumes `x :: w` runs over epsilon edges, takes one symbol edge that
accepts `x`, and consumes `w` from there. -/
theorem path_cons_iff {i k : Nat} {x : Symbol} {w : List Symbol} :
    Path ar term i (x :: w) k ↔
      ∃ j j', ReflTransGen (EpsStep ar) i j ∧ (get ar j).step x term = some j' ∧
        Path ar term j' w k := by
  constructor
  · intro h
    exact h.exists_step_of_cons rfl
  · rintro ⟨j, j', hr, hs, hp⟩
    simpa using (Path.of_reflTransGen hr).append (Path.sym hs hp)

/-- A state without edges is the end of every path from it. -/
theorem path_of_quiet {i k : Nat} {w : List Symbol} (hedge : (get ar i).edge = none)
    (heps : (get ar i).eps = #[]) (h : Path ar term i w k) : k = i ∧ w = [] := by
  cases h with
  | refl => exact ⟨rfl, rfl⟩
  | eps hij _ => simp [EpsStep, heps] at hij
  | sym hij _ => simp [State.step, hedge] at hij


/-! ## States of an updated arena -/

@[simp] theorem get_push (s : State) (i : Nat) :
    get (ar.push s) i = if ar.size = i then s else get ar i := by
  simp only [get, Array.getElem?_push, eq_comm (a := i)]
  split <;> rfl

@[simp] theorem get_modify (k : Nat) (g : State → State) (i : Nat) :
    get (ar.modify k g) i = if k = i ∧ i < ar.size then g (get ar i) else get ar i := by
  simp only [get, Array.getElem?_modify]
  by_cases hki : k = i
  · subst hki
    by_cases hk : k < ar.size
    · simp [hk]
    · simp [hk]
  · simp [hki]

/-! ## Regions -/

/-- The states an edge of `s` leads to: its epsilon targets and its symbol target. -/
def Targets (s : State) (j : Nat) : Prop := j ∈ s.eps ∨ ∃ l, s.edge = some (l, j)

/-- A state without edges. -/
def Quiet (s : State) : Prop := s.edge = none ∧ s.eps = #[]

theorem targets_of_epsStep {i j : Nat} (h : EpsStep ar i j) : Targets (get ar i) j := .inl h

theorem targets_of_step {i j : Nat} {x : Symbol} (h : (get ar i).step x term = some j) :
    Targets (get ar i) j := by
  unfold State.step at h
  split at h
  · rename_i l t hl
    split at h
    · cases h
      exact .inr ⟨l, hl⟩
    · cases h
  · cases h

/-- Only a state of the arena has an edge. -/
theorem lt_size_of_targets {i j : Nat} (h : Targets (get ar i) j) : i < ar.size := by
  refine (Nat.lt_or_ge i ar.size).resolve_right fun hi => ?_
  rw [get_of_size_le hi] at h
  rcases h with h | ⟨_, h⟩ <;> simp [State.fresh] at h

namespace Path

variable {ar' : Array State} {R : Nat → Prop} {p : Nat}

/-- **Lifting a path.** Let the region `R` be closed in `ar` except at the port `p`,
which has no edges in `ar`, and let `ar'` agree with `ar` on the region off the port.
A path of `ar` from the region never leaves the port, so it is a path of `ar'`, and
it ends in the region. -/
theorem lift (hagree : ∀ i, R i → i ≠ p → get ar' i = get ar i)
    (hclosed : ∀ i, R i → i ≠ p → ∀ j, Targets (get ar i) j → R j)
    (hquiet : Quiet (get ar p)) {i k : Nat} {w : List Symbol}
    (h : Path ar term i w k) (hi : R i) : Path ar' term i w k ∧ R k := by
  induction h with
  | refl => exact ⟨.refl _, hi⟩
  | @eps i j k w hij _ ih =>
    have hip : i ≠ p := by
      rintro rfl
      simp [EpsStep, hquiet.2] at hij
    have ⟨hp, hk⟩ := ih (hclosed i hi hip j (targets_of_epsStep hij))
    exact ⟨.eps (by rwa [EpsStep, hagree i hi hip]) hp, hk⟩
  | @sym i j k x w hij _ ih =>
    have hip : i ≠ p := by
      rintro rfl
      simp [State.step, hquiet.1] at hij
    have ⟨hp, hk⟩ := ih (hclosed i hi hip j (targets_of_step hij))
    exact ⟨.sym (by rwa [hagree i hi hip]) hp, hk⟩

/-- **Escaping a region.** Let the region `R` be closed in `ar` except at the port `p`,
and let `ar'` agree with `ar` on the region off the port. A path of `ar'` from the
region is a path of `ar` that stays in the region, or it reaches the port first by a
path of `ar` and goes on from the port in `ar'`. -/
theorem escape (hagree : ∀ i, R i → i ≠ p → get ar' i = get ar i)
    (hclosed : ∀ i, R i → i ≠ p → ∀ j, Targets (get ar i) j → R j)
    {i k : Nat} {w : List Symbol} (h : Path ar' term i w k) (hi : R i) :
    (Path ar term i w k ∧ R k) ∨
      ∃ u v, w = u ++ v ∧ Path ar term i u p ∧ Path ar' term p v k := by
  induction h with
  | refl => exact .inl ⟨.refl _, hi⟩
  | @eps i j k w hij hjk ih =>
    by_cases hip : i = p
    · subst hip
      exact .inr ⟨[], w, rfl, .refl _, .eps hij hjk⟩
    · have hij' : EpsStep ar i j := by rwa [EpsStep, ← hagree i hi hip]
      rcases ih (hclosed i hi hip j (targets_of_epsStep hij')) with ⟨hp, hk⟩ | ⟨u, v, rfl, hu, hv⟩
      · exact .inl ⟨.eps hij' hp, hk⟩
      · exact .inr ⟨u, v, rfl, .eps hij' hu, hv⟩
  | @sym i j k x w hij hjk ih =>
    by_cases hip : i = p
    · subst hip
      exact .inr ⟨[], x :: w, rfl, .refl _, .sym hij hjk⟩
    · have hij' : (get ar i).step x term = some j := by rwa [← hagree i hi hip]
      rcases ih (hclosed i hi hip j (targets_of_step hij')) with ⟨hp, hk⟩ | ⟨u, v, rfl, hu, hv⟩
      · exact .inl ⟨.sym hij' hp, hk⟩
      · exact .inr ⟨x :: u, v, rfl, .sym hij' hu, hv⟩

end Path

end Arena

end SeqPattern
