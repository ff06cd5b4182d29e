import SeqPattern.Proofs.Simulation
/-!
# Depth-first preorder

The closure of a set of states, and the dump of an automaton, are depth-first
traversals with one visited set that every call shares. The library runs both as
loops over an explicit stack of pending work, bounded by fuel. The traversal they
stand for is recursive: visiting a state does nothing when the state is visited
already; otherwise it marks and emits the state, and then visits the state's
successors, first to last.

This file states that recursion as a big-step relation, `Preorder`, whose visited
list is kept in visiting order, so that it is also what the traversal emits. The
relation is a function (`Preorder.det`), and every run of it from nothing visited
visits each state reachable from its roots exactly once, and no other state
(`Preorder.of_nil`). Both facts come from three invariants of a run, each proved
by one induction over the run: the visited list only grows, every root ends
visited, and every state visited for the first time has all its successors
visited by the end.

The closure's loop keeps the recursion's pending work on its stack: after a state
is emitted, its epsilon targets sit on top of the siblings still to visit, which is
what `Preorder.all_append` splits. A state is checked when it is popped, not when it
is pushed, which is when the recursion would reach it. So the loop computes the
traversal, and its fuel never runs out first (`Nfa.closureGo_preorder`).

Main statement: `Nfa.closure_preorder`.
-/

namespace SeqPattern

open Relation

/-- A piece of work of a depth-first traversal: visit one state, or visit the states
of a list, first to last. -/
inductive Visit where
  | node (i : Nat)
  | all (is : List Nat)

/-- The states a piece of work starts from. -/
def Visit.roots : Visit → List Nat
  | .node i => [i]
  | .all is => is

@[simp] theorem Visit.roots_node (i : Nat) : (Visit.node i).roots = [i] := rfl

@[simp] theorem Visit.roots_all (is : List Nat) : (Visit.all is).roots = is := rfl

/-- The recursive depth-first traversal along the successor lists `succ`, with one
visited list that every call shares, kept in visiting order: `Preorder succ vis w vis'`
says that doing the work `w` with the states `vis` visited ends with `vis'` visited.
A state visited already is skipped; any other is marked and emitted, and then its
successors are visited in order. -/
inductive Preorder (succ : Nat → List Nat) : List Nat → Visit → List Nat → Prop
  | seen {vis : List Nat} {i : Nat} : i ∈ vis → Preorder succ vis (.node i) vis
  | fresh {vis vis' : List Nat} {i : Nat} :
      i ∉ vis → Preorder succ (vis ++ [i]) (.all (succ i)) vis' → Preorder succ vis (.node i) vis'
  | nil {vis : List Nat} : Preorder succ vis (.all []) vis
  | cons {vis vis₁ vis₂ : List Nat} {i : Nat} {is : List Nat} :
      Preorder succ vis (.node i) vis₁ → Preorder succ vis₁ (.all is) vis₂ →
      Preorder succ vis (.all (i :: is)) vis₂

namespace Preorder

variable {succ : Nat → List Nat} {vis vis' : List Nat} {w : Visit}

/-- Visiting the states of a join is visiting those of the first list, then those of
the second from where the first left off. -/
theorem all_append {l₁ l₂ : List Nat} {vis₂ : List Nat} :
    Preorder succ vis (.all (l₁ ++ l₂)) vis₂ ↔
      ∃ vis₁, Preorder succ vis (.all l₁) vis₁ ∧ Preorder succ vis₁ (.all l₂) vis₂ := by
  induction l₁ generalizing vis with
  | nil =>
    constructor
    · intro h
      exact ⟨vis, .nil, h⟩
    · rintro ⟨vis₁, h₁, h₂⟩
      cases h₁
      exact h₂
  | cons i l₁ ih =>
    constructor
    · intro h
      cases h with
      | cons hi hrest =>
        obtain ⟨vis₁, h₁, h₂⟩ := ih.1 hrest
        exact ⟨vis₁, .cons hi h₁, h₂⟩
    · rintro ⟨vis₁, h₁, h₂⟩
      cases h₁ with
      | cons hi hrest => exact .cons hi (ih.2 ⟨vis₁, hrest, h₂⟩)

/-- The traversal is a function of the work and the states visited before it. -/
theorem det {vis₂ : List Nat} (h₁ : Preorder succ vis w vis') (h₂ : Preorder succ vis w vis₂) :
    vis' = vis₂ := by
  induction h₁ generalizing vis₂ with
  | seen hi =>
    cases h₂ with
    | seen _ => rfl
    | fresh hn _ => exact absurd hi hn
  | fresh hn _ ih =>
    cases h₂ with
    | seen hi => exact absurd hi hn
    | fresh _ h => exact ih h
  | nil =>
    cases h₂
    rfl
  | cons _ _ ih₁ ih₂ =>
    cases h₂ with
    | cons g₁ g₂ =>
      obtain rfl := ih₁ g₁
      exact ih₂ g₂

/-- The visited list only grows, at its end. -/
theorem grows (h : Preorder succ vis w vis') : ∃ new, vis' = vis ++ new := by
  induction h with
  | seen _ => exact ⟨[], by simp⟩
  | @fresh vis vis' i _ _ ih =>
    obtain ⟨new, rfl⟩ := ih
    exact ⟨i :: new, by simp⟩
  | nil => exact ⟨[], by simp⟩
  | cons _ _ ih₁ ih₂ =>
    obtain ⟨new₁, rfl⟩ := ih₁
    obtain ⟨new₂, rfl⟩ := ih₂
    exact ⟨new₁ ++ new₂, by simp⟩

theorem mem_of_mem (h : Preorder succ vis w vis') {i : Nat} (hi : i ∈ vis) : i ∈ vis' := by
  obtain ⟨new, rfl⟩ := h.grows
  exact List.mem_append_left _ hi

/-- A state is emitted at most once. -/
theorem nodup (h : Preorder succ vis w vis') : vis.Nodup → vis'.Nodup := by
  induction h with
  | seen _ => exact id
  | fresh hi _ ih =>
    intro hn
    refine ih (List.nodup_append.2 ⟨hn, List.nodup_singleton _, fun a ha b hb hab => hi ?_⟩)
    rw [List.mem_singleton] at hb
    rwa [hab, hb] at ha
  | nil => exact id
  | cons _ _ ih₁ ih₂ => exact fun hn => ih₂ (ih₁ hn)

/-- Every root of the work ends visited. -/
theorem roots_mem (h : Preorder succ vis w vis') : ∀ i ∈ w.roots, i ∈ vis' := by
  induction h with
  | seen hi => simpa using hi
  | fresh _ hrest _ =>
    intro j hj
    rw [Visit.roots_node, List.mem_singleton] at hj
    subst hj
    exact hrest.mem_of_mem (List.mem_append_right _ List.mem_cons_self)
  | nil => simp
  | cons _ h₂ ih₁ ih₂ =>
    intro j hj
    rcases List.mem_cons.1 hj with rfl | hj
    · exact h₂.mem_of_mem (ih₁ _ (by simp))
    · exact ih₂ j hj

/-- Every state that the work visits for the first time has all its successors
visited by the end of the work. -/
theorem closed (h : Preorder succ vis w vis') : ∀ x ∈ vis', x ∉ vis → ∀ y ∈ succ x, y ∈ vis' := by
  induction h with
  | seen _ => exact fun x hx hn => absurd hx hn
  | @fresh vis vis' i _ hrest ih =>
    intro x hx hn y hy
    by_cases hxi : x = i
    · subst hxi
      exact hrest.roots_mem y hy
    · exact ih x hx (by simp [hn, hxi]) y hy
  | nil => exact fun x hx hn => absurd hx hn
  | @cons vis vis₁ vis₂ i is _ h₂ ih₁ ih₂ =>
    intro x hx hn y hy
    by_cases hx₁ : x ∈ vis₁
    · exact h₂.mem_of_mem (ih₁ x hx₁ hn y hy)
    · exact ih₂ x hx hx₁ y hy

/-- Every state the work visits was visited before it or is reached from a root
along successors. -/
theorem reached (h : Preorder succ vis w vis') :
    ∀ x ∈ vis', x ∈ vis ∨ ∃ r ∈ w.roots, ReflTransGen (fun i j => j ∈ succ i) r x := by
  induction h with
  | seen _ => exact fun x hx => .inl hx
  | @fresh vis vis' i _ _ ih =>
    intro x hx
    rcases ih x hx with hx | ⟨r, hr, hrx⟩
    · rcases List.mem_append.1 hx with hx | hx
      · exact .inl hx
      · rw [List.mem_singleton] at hx
        subst hx
        exact .inr ⟨x, List.mem_singleton_self x, .refl⟩
    · exact .inr ⟨i, List.mem_singleton_self i, .head hr hrx⟩
  | nil => exact fun x hx => .inl hx
  | cons _ _ ih₁ ih₂ =>
    intro x hx
    rcases ih₂ x hx with hx | ⟨r, hr, hrx⟩
    · rcases ih₁ x hx with hx | ⟨r, hr, hrx⟩
      · exact .inl hx
      · exact .inr ⟨r, List.mem_cons.2 (.inl (by simpa using hr)), hrx⟩
    · exact .inr ⟨r, List.mem_cons_of_mem _ hr, hrx⟩

/-- **A traversal from nothing visited.** It visits each state reachable from a root
exactly once, and no other state. -/
theorem of_nil (h : Preorder succ [] w vis') :
    vis'.Nodup ∧ ∀ x, x ∈ vis' ↔ ∃ r ∈ w.roots, ReflTransGen (fun i j => j ∈ succ i) r x := by
  refine ⟨h.nodup List.nodup_nil, fun x => ⟨fun hx => ?_, ?_⟩⟩
  · simpa using h.reached x hx
  · rintro ⟨r, hr, hrx⟩
    -- along the path, every state is visited for the first time, so its successors are too
    induction hrx with
    | refl => exact h.roots_mem r hr
    | tail _ hyz ih => exact h.closed _ ih List.not_mem_nil _ hyz

end Preorder

namespace Nfa

variable {a : Nfa}

/-! ## Automata with their state numbers in range -/

/-- An automaton whose state numbers are all in range: its start, its exit and the
target of every edge lie in its arena. -/
structure InRange (a : Nfa) : Prop where
  start_lt : a.start < a.stateCount
  exit_lt : a.exit < a.stateCount
  targets_lt : ∀ i j, Arena.Targets (a.stateAt i) j → j < a.stateCount

/-- Being in range is a check of the arena's states one by one. -/
theorem inRange_iff : a.InRange ↔ a.start < a.stateCount ∧ a.exit < a.stateCount ∧
    ∀ s ∈ a.states.toList, (∀ j ∈ s.eps.toList, j < a.stateCount) ∧
      ∀ e ∈ s.edge, e.2 < a.stateCount := by
  constructor
  · rintro ⟨hs, he, ht⟩
    refine ⟨hs, he, fun s hmem => ?_⟩
    obtain ⟨k, hk, rfl⟩ := List.getElem_of_mem hmem
    have hget : a.stateAt k = a.states.toList[k] := by
      simp [stateAt, Array.getElem?_eq_getElem (by simpa using hk)]
    refine ⟨fun j hj => ht k j ?_, fun e he' => ht k e.2 ?_⟩
    · exact hget ▸ .inl (Array.mem_toList_iff.1 hj)
    · exact hget ▸ .inr ⟨e.1, Option.mem_def.1 he'⟩
  · rintro ⟨hs, he, ht⟩
    refine ⟨hs, he, fun i j hij => ?_⟩
    have hi : i < a.states.size := Arena.lt_size_of_targets hij
    have hmem : a.stateAt i ∈ a.states.toList := by
      simp [stateAt, Array.getElem?_eq_getElem hi]
    rcases hij with hj | ⟨l, hl⟩
    · exact (ht _ hmem).1 j (Array.mem_toList_iff.2 hj)
    · exact (ht _ hmem).2 (l, j) hl

instance : DecidablePred InRange := fun _ => decidable_of_iff _ inRange_iff.symm

/-! ## The closure is the recursive preorder -/

/-- The epsilon targets of a state, in insertion order. -/
def epsSucc (a : Nfa) (i : Nat) : List Nat := (a.stateAt i).eps.toList

@[simp] theorem mem_epsSucc {i j : Nat} : j ∈ a.epsSucc i ↔ Arena.EpsStep a.states i j := by
  simp [epsSucc, Arena.EpsStep, stateAt_eq_get]

/-- Marking a state adds it to the states the marks record. -/
theorem marks_set {seen : Array Bool} {out : List Nat} {j : Nat} (hj : j < seen.size)
    (h : ∀ i, seen[i]? = some true ↔ i ∈ out) :
    ∀ i, (seen.set! j true)[i]? = some true ↔ i ∈ j :: out := by
  intro i
  by_cases hij : j = i
  · subst hij
    simp [Array.getElem?_setIfInBounds_self_of_lt hj]
  · simp [Array.getElem?_setIfInBounds_ne hij, h, Ne.symm hij]

/-- Before the search, the marks record nothing. -/
theorem marks_replicate (n : Nat) :
    ∀ i, (Array.replicate n false)[i]? = some true ↔ i ∈ ([] : List Nat) := by
  intro i
  simp only [Array.getElem?_replicate, List.not_mem_nil, iff_false]
  split <;> simp

/-- A state in the arena is either marked and recorded, or unmarked and not recorded. -/
theorem marks_cases {seen : Array Bool} {out : List Nat} {j : Nat} (hj : j < seen.size)
    (h : ∀ i, seen[i]? = some true ↔ i ∈ out) :
    (seen[j]? = some true ∧ j ∈ out) ∨ (seen[j]? = some false ∧ j ∉ out) := by
  have hget : seen[j]? = some seen[j] := Array.getElem?_eq_getElem hj
  cases hb : seen[j] with
  | true => exact .inl ⟨hb ▸ hget, (h j).1 (hb ▸ hget)⟩
  | false => exact .inr ⟨hb ▸ hget, fun hm => by simpa [hb ▸ hget] using (h j).2 hm⟩

/-- **The loop runs the recursion.** From a stack in the arena, marks that record
exactly the states emitted so far, and fuel above the stack's length plus the epsilon
edges still to push, the closure's loop returns what the recursive traversal of the
stack, from the states emitted so far, ends with. -/
theorem closureGo_preorder (htargets : ∀ i j, j ∈ (a.stateAt i).eps → j < a.stateCount)
    (fuel : Nat) :
    ∀ {stack : List Nat} {seen : Array Bool} {out : List Nat},
      seen.size = a.stateCount → (∀ i, seen[i]? = some true ↔ i ∈ out) →
      (∀ i ∈ stack, i < a.stateCount) → stack.length + a.unseenEps seen < fuel →
      Preorder a.epsSucc out.reverse (.all stack) (a.closureGo fuel stack seen out) := by
  induction fuel with
  | zero => intro _ _ _ _ _ _ hf; omega
  | succ fuel ih =>
    intro stack seen out hsize hmarks hstack hf
    cases stack with
    | nil => simpa [closureGo] using Preorder.nil
    | cons j stack =>
      have hj : j < seen.size := hsize ▸ hstack j List.mem_cons_self
      have hrest : ∀ i ∈ stack, i < a.stateCount := fun i hi => hstack i (List.mem_cons_of_mem _ hi)
      rcases marks_cases hj hmarks with ⟨hs, hseen⟩ | ⟨hs, hnew⟩
      · -- a state emitted before: the recursion skips it too
        rw [closureGo_cons_of_seen (by simp [hs])]
        exact .cons (.seen (List.mem_reverse.2 hseen)) (ih hsize hmarks hrest (by simp at hf; omega))
      · -- a new state: its epsilon targets go on top of the siblings still to visit
        rw [closureGo_cons_of_unseen hs]
        have hw := unseenEps_set hs hsize
        have hpush : ∀ i ∈ (a.stateAt j).eps.toList ++ stack, i < a.stateCount := by
          intro i hi
          rcases List.mem_append.1 hi with hi | hi
          · exact htargets j i (Array.mem_toList_iff.1 hi)
          · exact hrest i hi
        have hrun := ih (by simp [hsize]) (marks_set hj hmarks) hpush
          (by simp only [List.length_append, Array.length_toList, List.length_cons] at hf ⊢; omega)
        rw [List.reverse_cons, Preorder.all_append] at hrun
        obtain ⟨vis, hvisit, hsiblings⟩ := hrun
        exact .cons (.fresh (mt List.mem_reverse.1 hnew) hvisit) hsiblings

/-- **The closure is the recursive depth-first preorder.** For an automaton with its
state numbers in range and seeds in its arena, the recursive traversal of the seeds
over epsilon edges, in order, from nothing visited, has exactly one outcome, and it is
the closure: the loop's fuel never runs out before the traversal ends, cycles
included. So the closure holds each state reachable from a seed over epsilon edges
exactly once, and no other state. -/
theorem closure_preorder {seeds : List Nat} (ha : a.InRange)
    (hseeds : ∀ s ∈ seeds, s < a.stateCount) :
    (∀ vis, Preorder a.epsSucc [] (.all seeds) vis ↔ vis = a.closure seeds) ∧
    (a.closure seeds).Nodup ∧
    ∀ i, i ∈ a.closure seeds ↔ ∃ s ∈ seeds, ReflTransGen (Arena.EpsStep a.states) s i := by
  have hrun : Preorder a.epsSucc [] (.all seeds) (a.closure seeds) :=
    closureGo_preorder (fun i j hj => ha.targets_lt i j (.inl hj)) _ (by simp)
      (marks_replicate _) hseeds (by simp [closureFuel, unseenEps_replicate])
  obtain ⟨hnodup, hmem⟩ := hrun.of_nil
  have hstep : (fun i j => j ∈ a.epsSucc i) = Arena.EpsStep a.states := by
    funext i j
    simp
  refine ⟨fun vis => ⟨fun h => h.det hrun, fun h => h ▸ hrun⟩, hnodup, fun i => ?_⟩
  rw [hmem, hstep, Visit.roots_all]

/-- The automaton of `(a*)*`, as the compiler lays it out: two nested loops whose
epsilon edges form cycles. -/
def nestedStar : Nfa :=
  ⟨#[⟨false, some (.char 'a', 1), #[]⟩, ⟨false, none, #[3, 0]⟩, ⟨false, none, #[3, 0]⟩,
    ⟨false, none, #[5, 2]⟩, ⟨false, none, #[5, 2]⟩, ⟨true, none, #[]⟩], 4, 5⟩

/-- From the start of `(a*)*`, the recursive traversal visits the start, the exit,
the outer loop's joint, the inner loop's joint and the symbol state, in that order,
as the closure lists them. -/
theorem closure_preorder_nestedStar :
    nestedStar.InRange ∧ (∀ s ∈ [nestedStar.start], s < nestedStar.stateCount) ∧
      Preorder nestedStar.epsSucc [] (.all [nestedStar.start]) [4, 5, 2, 3, 0] := by
  have ha : nestedStar.InRange := by decide
  have hs : ∀ s ∈ [nestedStar.start], s < nestedStar.stateCount := by decide
  have hclosure : nestedStar.closure [nestedStar.start] = [4, 5, 2, 3, 0] := by decide
  exact ⟨ha, hs, ((closure_preorder ha hs).1 _).2 hclosure.symm⟩

end Nfa

end SeqPattern
