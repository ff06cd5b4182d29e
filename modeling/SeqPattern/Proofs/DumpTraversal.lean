import SeqPattern.Automaton.Dump
import SeqPattern.Proofs.Traversal
import Mathlib.Algebra.Order.BigOperators.Group.Finset
import Mathlib.Algebra.BigOperators.Ring.Finset
/-!
# The dump renders every reachable state once

The dump of an automaton is a recursive rendering: rendering a state writes nothing
when the state is rendered already; otherwise it marks the state and writes `!` when
the state accepts, the label of its symbol edge, a space and the rendering of the
edge's target, and, when it has epsilon edges, `eps` and one bracketed rendering per
edge, in order. `Nfa.Renders` states that recursion as a big-step relation over the
visited list, which grows by one state each time the body of a rendering runs past
its visited check, so that the list is the record of those bodies in the order they
ran.

The library runs the recursion as a loop over a list of pending pieces, states to
render and text to write, bounded by fuel. Three facts make the loop the recursion:

* the pieces a state leaves behind, its edge's target and its bracketed epsilon
  targets, render together as the state's body does (`RendersTasks.stateTasks`);
* the loop's fuel exceeds the pieces it ever runs: a state's body runs at most once
  and pends at most two pieces and three per epsilon edge (`stateTasks_length_le`);
* so the loop, run from the start state, writes what the recursion writes
  (`Nfa.dumpGo_renders`).

Forgetting the text, a rendering is a depth-first traversal along symbol and epsilon
edges (`Renders.preorder`), so the facts of `Preorder` give the rest: the bodies run
once for each state reachable from the start and for no other state.

Main statement: `Nfa.dump_renders`.
-/

namespace SeqPattern

open Relation

namespace Nfa

variable {a : Nfa}

/-! ## The recursive rendering -/

/-- A piece of work of the recursive dump: render one state, render the target of a
symbol edge after its label, or render the targets of epsilon edges, one bracketed
path each. -/
inductive DumpWork where
  | node (i : Nat)
  | edge (e : Option (Symbol × Nat))
  | eps (js : List Nat)

/-- The recursive dump, with one visited list that every call shares:
`Renders a vis w vis' t` says that doing the work `w` with the states `vis` visited
writes `t` and ends with `vis'` visited. A state visited already writes nothing. The
body of any other state marks it, then writes `!` when it accepts, then renders its
symbol edge (the label, a space and the path from the target), then, when the state
has epsilon edges, writes `eps` and one bracketed path per epsilon edge. -/
inductive Renders (a : Nfa) : List Nat → DumpWork → List Nat → String → Prop
  | seen {vis : List Nat} {i : Nat} : i ∈ vis → Renders a vis (.node i) vis ""
  | body {vis vis₁ vis₂ : List Nat} {i : Nat} {t₁ t₂ : String} :
      i ∉ vis →
      Renders a (vis ++ [i]) (.edge (a.stateAt i).edge) vis₁ t₁ →
      Renders a vis₁ (.eps (a.stateAt i).eps.toList) vis₂ t₂ →
      Renders a vis (.node i) vis₂
        ((if (a.stateAt i).accepting then "!" else "") ++ t₁ ++
          (if (a.stateAt i).eps.isEmpty then "" else "eps") ++ t₂)
  | noEdge {vis : List Nat} : Renders a vis (.edge none) vis ""
  | edge {vis vis' : List Nat} {l : Symbol} {j : Nat} {t : String} :
      Renders a vis (.node j) vis' t → Renders a vis (.edge (some (l, j))) vis' (l.display ++ " " ++ t)
  | epsNil {vis : List Nat} : Renders a vis (.eps []) vis ""
  | epsCons {vis vis₁ vis₂ : List Nat} {j : Nat} {js : List Nat} {t₁ t₂ : String} :
      Renders a vis (.node j) vis₁ t₁ → Renders a vis₁ (.eps js) vis₂ t₂ →
      Renders a vis (.eps (j :: js)) vis₂ (" [" ++ t₁ ++ "]" ++ t₂)

/-- The successors a rendering visits: the target of the symbol edge, then the
epsilon targets in order. -/
def dumpSucc (a : Nfa) (i : Nat) : List Nat :=
  ((a.stateAt i).edge.map Prod.snd).toList ++ (a.stateAt i).eps.toList

@[simp] theorem mem_dumpSucc {i j : Nat} : j ∈ a.dumpSucc i ↔ Arena.Targets (a.stateAt i) j := by
  simp [dumpSucc, Arena.Targets, or_comm]

/-- The traversal a piece of the dump's work stands for. -/
def DumpWork.visit : DumpWork → Visit
  | .node i => .node i
  | .edge e => .all (e.map Prod.snd).toList
  | .eps js => .all js

namespace Renders

variable {vis vis' : List Nat} {w : DumpWork} {t : String}

/-- The recursive dump is a function of the work and the states visited before it. -/
theorem det {vis₂ : List Nat} {t₂ : String} (h₁ : Renders a vis w vis' t)
    (h₂ : Renders a vis w vis₂ t₂) : vis' = vis₂ ∧ t = t₂ := by
  induction h₁ generalizing vis₂ t₂ with
  | seen hi =>
    cases h₂ with
    | seen _ => exact ⟨rfl, rfl⟩
    | body hn _ _ => exact absurd hi hn
  | body hn _ _ ih₁ ih₂ =>
    cases h₂ with
    | seen hi => exact absurd hi hn
    | body _ g₁ g₂ =>
      obtain ⟨rfl, rfl⟩ := ih₁ g₁
      obtain ⟨rfl, rfl⟩ := ih₂ g₂
      exact ⟨rfl, rfl⟩
  | noEdge =>
    cases h₂
    exact ⟨rfl, rfl⟩
  | edge _ ih =>
    cases h₂ with
    | edge g =>
      obtain ⟨rfl, rfl⟩ := ih g
      exact ⟨rfl, rfl⟩
  | epsNil =>
    cases h₂
    exact ⟨rfl, rfl⟩
  | epsCons _ _ ih₁ ih₂ =>
    cases h₂ with
    | epsCons g₁ g₂ =>
      obtain ⟨rfl, rfl⟩ := ih₁ g₁
      obtain ⟨rfl, rfl⟩ := ih₂ g₂
      exact ⟨rfl, rfl⟩

/-- Without its text, the recursive dump is the depth-first traversal along symbol and
epsilon edges: the body of a state runs exactly when the traversal emits it. -/
theorem preorder (h : Renders a vis w vis' t) : Preorder a.dumpSucc vis w.visit vis' := by
  induction h with
  | seen hi => exact .seen hi
  | body hn _ _ ih₁ ih₂ =>
    -- the edge's target and the epsilon targets are the successors, in this order
    exact .fresh hn (Preorder.all_append.2 ⟨_, ih₁, ih₂⟩)
  | noEdge => exact .nil
  | edge _ ih => exact .cons ih .nil
  | epsNil => exact .nil
  | epsCons _ _ ih₁ ih₂ => exact .cons ih₁ ih₂

end Renders

/-! ## The loop's pending pieces -/

/-- The pieces a state leaves on the loop's list: its symbol edge's target, then, when it
has epsilon edges, `eps` and the bracketed targets. -/
theorem stateTasks_eq (s : State) : stateTasks s = (s.edge.map fun p => DumpTask.visit p.2).toList ++
    (if s.eps.isEmpty then [] else
      .write "eps" :: s.eps.toList.flatMap fun e => [.write " [", .visit e, .write "]"]) := by
  cases he : s.edge <;> simp [stateTasks, he]

/-- The text a state writes before its pieces: its accepting mark, then its symbol edge's
label and a space. -/
theorem stateHead_eq (s : State) : stateHead s =
    (if s.accepting then "!" else "") ++ (s.edge.map fun p => p.1.display ++ " ").getD "" := by
  cases he : s.edge <;> simp [stateHead, he]

/-- What a list of the loop's pending pieces renders by the recursion: text is written
as it is, and a state is rendered as `Renders` says. -/
inductive RendersTasks (a : Nfa) : List Nat → List DumpTask → List Nat → String → Prop
  | nil {vis : List Nat} : RendersTasks a vis [] vis ""
  | write {vis vis' : List Nat} {s : String} {ts : List DumpTask} {t : String} :
      RendersTasks a vis ts vis' t → RendersTasks a vis (.write s :: ts) vis' (s ++ t)
  | visit {vis vis₁ vis₂ : List Nat} {i : Nat} {ts : List DumpTask} {t₁ t₂ : String} :
      Renders a vis (.node i) vis₁ t₁ → RendersTasks a vis₁ ts vis₂ t₂ →
      RendersTasks a vis (.visit i :: ts) vis₂ (t₁ ++ t₂)

namespace RendersTasks

variable {vis vis' : List Nat} {t : String}

/-- The pieces of a join render as the first list's pieces, then the second's. -/
theorem split {l₁ l₂ : List DumpTask} (h : RendersTasks a vis (l₁ ++ l₂) vis' t) :
    ∃ vis₁ t₁ t₂, RendersTasks a vis l₁ vis₁ t₁ ∧ RendersTasks a vis₁ l₂ vis' t₂ ∧ t = t₁ ++ t₂ := by
  induction l₁ generalizing vis t with
  | nil => exact ⟨vis, "", t, .nil, h, by simp⟩
  | cons p l₁ ih =>
    cases h with
    | write h =>
      obtain ⟨vis₁, t₁, t₂, h₁, h₂, rfl⟩ := ih h
      exact ⟨vis₁, _, t₂, .write h₁, h₂, by simp [String.append_assoc]⟩
    | visit hi h =>
      obtain ⟨vis₁, t₁, t₂, h₁, h₂, rfl⟩ := ih h
      exact ⟨vis₁, _, t₂, .visit hi h₁, h₂, by simp [String.append_assoc]⟩

/-- The bracketed pieces of a list of epsilon targets render as the recursion renders
the targets. -/
theorem epsTasks {js : List Nat}
    (h : RendersTasks a vis (js.flatMap fun e => [.write " [", .visit e, .write "]"]) vis' t) :
    Renders a vis (.eps js) vis' t := by
  induction js generalizing vis t with
  | nil =>
    cases h
    exact .epsNil
  | cons j js ih =>
    rw [List.flatMap_cons] at h
    obtain ⟨vis₁, t₁, t₂, h₁, h₂, rfl⟩ := split h
    -- the three pieces of one bracket: the opening text, the target, the closing text
    cases h₁ with
    | write h₁ =>
      cases h₁ with
      | visit hj hclose =>
        cases hclose with
        | write hnil =>
          cases hnil
          simpa [String.append_assoc] using Renders.epsCons hj (ih h₂)

/-- The piece a symbol edge leaves renders as the recursion renders the edge, after
the label and the space that the loop writes first. -/
theorem edgeTasks {e : Option (Symbol × Nat)}
    (h : RendersTasks a vis (e.map fun p => DumpTask.visit p.2).toList vis' t) :
    Renders a vis (.edge e) vis' ((e.map fun p => p.1.display ++ " ").getD "" ++ t) := by
  cases e with
  | none =>
    cases h
    simpa using Renders.noEdge
  | some p =>
    obtain ⟨l, j⟩ := p
    cases h with
    | visit hj hnil =>
      cases hnil
      simpa [String.append_assoc] using Renders.edge (l := l) hj

/-- The pieces of a state's epsilon edges render as the recursion renders them, after
the `eps` that the loop writes first when there is an edge. -/
theorem epsGroupTasks {js : Array Nat}
    (h : RendersTasks a vis (if js.isEmpty then [] else
      .write "eps" :: js.toList.flatMap fun e => [.write " [", .visit e, .write "]"]) vis' t) :
    ∃ t', Renders a vis (.eps js.toList) vis' t' ∧ t = (if js.isEmpty then "" else "eps") ++ t' := by
  by_cases he : js.isEmpty
  · rw [if_pos he] at h
    cases h
    have hnil : js.toList = [] := by simpa using he
    exact ⟨"", hnil ▸ .epsNil, by simp [he]⟩
  · rw [if_neg he] at h
    cases h with
    | write h => exact ⟨_, epsTasks h, by simp [he]⟩

/-- The pieces a state leaves on the loop's list, after the text the loop writes first,
render as the body of the state does after its visited check. -/
theorem stateTasks {s : State} (h : RendersTasks a vis (Nfa.stateTasks s) vis' t) :
    ∃ vis₁ t₁ t₂, Renders a vis (.edge s.edge) vis₁ t₁ ∧ Renders a vis₁ (.eps s.eps.toList) vis' t₂ ∧
      stateHead s ++ t =
        (if s.accepting then "!" else "") ++ t₁ ++ (if s.eps.isEmpty then "" else "eps") ++ t₂ := by
  rw [stateTasks_eq] at h
  obtain ⟨vis₁, t₁, t₂, hedge, heps, rfl⟩ := split h
  obtain ⟨t', heps', rfl⟩ := epsGroupTasks heps
  -- the loop writes the label before the edge's piece, the recursion with it
  exact ⟨vis₁, _, t', edgeTasks hedge, heps', by simp [stateHead_eq, String.append_assoc]⟩

end RendersTasks

/-! ## The loop is the recursion -/

/-- Every state the pieces of a state name is a target of one of its edges. -/
theorem targets_of_mem_stateTasks {s : State} {k : Nat} (h : DumpTask.visit k ∈ stateTasks s) :
    Arena.Targets s k := by
  rw [stateTasks_eq] at h
  rcases List.mem_append.1 h with h | h
  · cases he : s.edge with
    | none => simp [he] at h
    | some p =>
      obtain ⟨l, j⟩ := p
      simp only [he, Option.map_some, Option.toList_some, List.mem_singleton,
        DumpTask.visit.injEq] at h
      exact .inr ⟨l, h ▸ he⟩
  · split at h
    · simp at h
    · simp only [List.mem_cons, reduceCtorEq, false_or, List.mem_flatMap, List.not_mem_nil,
        DumpTask.visit.injEq, or_false] at h
      obtain ⟨e, he, rfl⟩ := h
      exact .inl (Array.mem_toList_iff.1 he)

/-- A state leaves at most two pieces, and three per epsilon edge. -/
theorem stateTasks_length_le (s : State) : (stateTasks s).length ≤ 2 + 3 * s.eps.size := by
  have hedge : (s.edge.map fun p => DumpTask.visit p.2).toList.length ≤ 1 := by
    cases s.edge <;> simp
  have hbrackets : (s.eps.toList.flatMap fun e =>
      ([.write " [", .visit e, .write "]"] : List DumpTask)).length = 3 * s.eps.size := by
    simp [List.length_flatMap, Nat.mul_comm]
  rw [stateTasks_eq, List.length_append]
  split
  · simp only [List.length_nil]
    omega
  · simp only [List.length_cons, hbrackets]
    omega

theorem dumpGo_visit_of_seen {fuel i : Nat} {ts : List DumpTask} {seen : Array Bool} {out : String}
    (h : seen[i]? = some true) :
    a.dumpGo (fuel + 1) (.visit i :: ts) seen out = a.dumpGo fuel ts seen out := by
  simp [dumpGo, h]

theorem dumpGo_visit_of_unseen {fuel i : Nat} {ts : List DumpTask} {seen : Array Bool}
    {out : String} (h : seen[i]? = some false) :
    a.dumpGo (fuel + 1) (.visit i :: ts) seen out =
      a.dumpGo fuel (stateTasks (a.stateAt i) ++ ts) (seen.set! i true) (out ++ stateHead (a.stateAt i)) := by
  simp [dumpGo, h]

/-- The pieces still to come from the states not yet rendered. -/
def unseenTasks (a : Nfa) (seen : Array Bool) : Nat :=
  a.unseenWeight (fun j => (stateTasks (a.stateAt j)).length) seen

/-- **The loop runs the recursion.** From pending pieces whose states lie in the arena,
marks that record exactly the states visited so far, and fuel no less than the pieces
pending and still to come, the dump's loop writes after its text so far what the
recursion writes for the pending pieces. -/
theorem dumpGo_renders (htargets : ∀ i j, Arena.Targets (a.stateAt i) j → j < a.stateCount)
    (fuel : Nat) :
    ∀ (ts : List DumpTask) (seen : Array Bool) (vis : List Nat) (out : String),
      seen.size = a.stateCount → (∀ i, seen[i]? = some true ↔ i ∈ vis) →
      (∀ i, DumpTask.visit i ∈ ts → i < a.stateCount) →
      ts.length + a.unseenTasks seen ≤ fuel →
      ∃ vis' t, RendersTasks a vis ts vis' t ∧ a.dumpGo fuel ts seen out = out ++ t := by
  induction fuel with
  | zero =>
    intro ts seen vis out _ _ _ hf
    have hnil : ts = [] := List.eq_nil_of_length_eq_zero (by omega)
    subst hnil
    exact ⟨vis, "", .nil, by simp [dumpGo]⟩
  | succ fuel ih =>
    intro ts seen vis out hsize hmarks hts hf
    cases ts with
    | nil => exact ⟨vis, "", .nil, by simp [dumpGo]⟩
    | cons p ts =>
      have hrest : ∀ i, DumpTask.visit i ∈ ts → i < a.stateCount :=
        fun i hi => hts i (List.mem_cons_of_mem _ hi)
      have hf' : ts.length + a.unseenTasks seen ≤ fuel := by
        simp only [List.length_cons] at hf
        omega
      cases p with
      | write s =>
        obtain ⟨vis', t, h, heq⟩ := ih ts seen vis (out ++ s) hsize hmarks hrest hf'
        exact ⟨vis', s ++ t, .write h, by simp [dumpGo, heq, String.append_assoc]⟩
      | visit i =>
        have hi : i < seen.size := hsize ▸ hts i List.mem_cons_self
        rcases marks_cases hi hmarks with ⟨hs, hseen⟩ | ⟨hs, hnew⟩
        · -- a state rendered before: the recursion writes nothing for it either
          obtain ⟨vis', t, h, heq⟩ := ih ts seen vis out hsize hmarks hrest hf'
          refine ⟨vis', "" ++ t, .visit (.seen hseen) h, ?_⟩
          rw [dumpGo_visit_of_seen hs, heq, String.empty_append]
        · -- a new state: its body's pieces go on top of the pieces still pending
          have hw := unseenWeight_set (fun j => (stateTasks (a.stateAt j)).length) hs hsize
          have hmarks' : ∀ k, (seen.set! i true)[k]? = some true ↔ k ∈ vis ++ [i] := by
            intro k
            rw [marks_set hi hmarks k]
            simp [or_comm]
          have hpush : ∀ k, DumpTask.visit k ∈ stateTasks (a.stateAt i) ++ ts → k < a.stateCount := by
            intro k hk
            rcases List.mem_append.1 hk with hk | hk
            · exact htargets i k (targets_of_mem_stateTasks hk)
            · exact hrest k hk
          obtain ⟨vis', t, h, heq⟩ := ih _ (seen.set! i true) (vis ++ [i])
            (out ++ stateHead (a.stateAt i)) (by simp [hsize]) hmarks' hpush
            (by simp only [unseenTasks, List.length_append, List.length_cons] at hf hw ⊢; omega)
          obtain ⟨vis₁, t₁, t₂, hpieces, hpending, rfl⟩ := h.split
          obtain ⟨vis₂, te, tp, hedge, heps, htext⟩ := hpieces.stateTasks
          refine ⟨vis', _, .visit (.body hnew hedge heps) hpending, ?_⟩
          rw [dumpGo_visit_of_unseen hs, heq, ← htext]
          simp [String.append_assoc]

/-- The fuel of a dump exceeds the pieces the loop can ever run: the start, and the
pieces of every state once. -/
theorem dumpFuel_ge (a : Nfa) :
    1 + a.unseenTasks (Array.replicate a.stateCount false) ≤ a.dumpFuel := by
  have hall : a.unseenTasks (Array.replicate a.stateCount false) =
      ∑ j ∈ Finset.range a.stateCount, (stateTasks (a.stateAt j)).length := by
    rw [unseenTasks, unseenWeight]
    refine Finset.sum_congr rfl fun j hj => ?_
    simp [Finset.mem_range.mp hj]
  calc 1 + a.unseenTasks (Array.replicate a.stateCount false)
      ≤ 1 + ∑ j ∈ Finset.range a.stateCount, (2 + 3 * (a.stateAt j).eps.size) := by
        rw [hall]
        exact Nat.add_le_add_left (Finset.sum_le_sum fun j _ => stateTasks_length_le _) 1
    _ = 1 + 2 * a.stateCount + 3 * a.epsilonCount := by
        rw [Finset.sum_add_distrib, ← Finset.mul_sum, epsilonCount_eq_sum, Finset.sum_const,
          Finset.card_range, Nat.nsmul_eq_mul]
        omega
    _ ≤ a.dumpFuel := by
        unfold dumpFuel
        omega

/-- **The dump renders every reachable state once.** For an automaton with its state
numbers in range, cycles included, the recursive dump from the start state ends, and
it writes the library's dump text; whatever way it is run, it writes that text, and
the body of the recursion runs past its visited check exactly once for each state
reachable from the start over symbol and epsilon edges, and for no other state. So
each reachable state's accepting mark, label and `eps` group are written exactly
once. -/
theorem dump_renders (ha : a.InRange) :
    (∃ vis, a.Renders [] (.node a.start) vis a.dump) ∧
    ∀ vis t, a.Renders [] (.node a.start) vis t →
      t = a.dump ∧ vis.Nodup ∧
        ∀ i, i ∈ vis ↔ ReflTransGen (fun i j => Arena.Targets (a.stateAt i) j) a.start i := by
  have hrun : ∃ vis, a.Renders [] (.node a.start) vis a.dump := by
    obtain ⟨vis, t, h, heq⟩ := dumpGo_renders ha.targets_lt a.dumpFuel [.visit a.start]
      (Array.replicate a.stateCount false) [] "" (by simp) (marks_replicate _)
      (by simp [ha.start_lt]) (by simpa using a.dumpFuel_ge)
    cases h with
    | visit hstart hnil =>
      cases hnil
      exact ⟨_, by simpa [dump, heq] using hstart⟩
  obtain ⟨vis₀, h₀⟩ := hrun
  refine ⟨⟨vis₀, h₀⟩, fun vis t h => ?_⟩
  obtain ⟨rfl, rfl⟩ := h₀.det h
  obtain ⟨hnodup, hmem⟩ := h₀.preorder.of_nil
  have hstep : (fun i j => j ∈ a.dumpSucc i) = fun i j => Arena.Targets (a.stateAt i) j := by
    funext i j
    simp
  refine ⟨rfl, hnodup, fun i => ?_⟩
  rw [hmem, hstep]
  simp [DumpWork.visit]

/-- The dump of `(a*)*` ends on its epsilon cycles, and the recursion writes it. -/
theorem dump_renders_nestedStar :
    nestedStar.InRange ∧
      ∃ vis, nestedStar.Renders [] (.node nestedStar.start) vis
        "eps [!] [eps [eps [] []] [a eps [] []]]" := by
  have ha : nestedStar.InRange := by decide
  have hdump : nestedStar.dump = "eps [!] [eps [eps [] []] [a eps [] []]]" := by decide
  exact ⟨ha, hdump ▸ (dump_renders ha).1⟩

end Nfa

end SeqPattern
