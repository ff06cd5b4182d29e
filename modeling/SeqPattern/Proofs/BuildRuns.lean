import SeqPattern.Automaton.Compile
import SeqPattern.Proofs.Arena
/-!
# What the builder leaves in the arena

Every combinator of the fragment builder is a short program over the arena. This
file runs each of them once and for all: when a combinator succeeds, its lemma here
says which fragment it returns, how many states the arena has afterwards, what each
state it touched now holds, and that every other state is as it was. Later proofs
cite these lemmas and never unfold a combinator.

The cap on the number of states only decides whether a combinator fails; what a
successful run leaves does not depend on it, so the lemmas below say nothing about
the cap beyond what success implies.

Touched states are described through `Arena.get`, so that a state's three fields can
be read off directly. The lemmas take as hypotheses only that the states they
touch lie in the arena, which every fragment on a compiler's stack satisfies.

A token of the compiler runs one combinator on the top of its stack; `TokenRun` says
which, so that proofs about the compiler's loop take one case per token and never
unfold it.
-/

namespace SeqPattern

namespace Build

open Arena

variable {cap : Option Nat} {ar ar' : Array State}

/-! ## Running a build step by step -/

/-- A bound computation succeeds when its first part succeeds and the rest succeeds
from where the first part left the arena. -/
theorem run_bind_eq_ok {α β : Type} {x : Build α} {g : α → Build β} {s'' : Array State} {b : β} :
    (x >>= g).run ar = .ok b s'' ↔ ∃ v s', x.run ar = .ok v s' ∧ (g v).run s' = .ok b s'' := by
  rw [EStateM.run_bind]
  constructor
  · intro h
    split at h
    · exact ⟨_, _, by assumption, h⟩
    · cases h
  · rintro ⟨v, s', h₁, h₂⟩
    rw [h₁]
    exact h₂

theorem run_size : size.run ar = .ok ar.size ar := rfl

/-- Whether the cap, if any, leaves room for a state beyond the first `n`. -/
def Room (cap : Option Nat) (n : Nat) : Prop := ∀ l, cap = some l → n < l

theorem run_addState_of_room {acc : Bool} (h : Room cap ar.size) :
    (addState cap acc).run ar = .ok ar.size (ar.push (State.fresh acc)) := by
  cases cap with
  | none => rfl
  | some l =>
    have hl : ¬ l ≤ ar.size := by
      have := h l rfl
      omega
    simp only [addState, EStateM.run_bind, run_size, hl, if_false]
    rfl

theorem run_addState_of_full {l : Nat} {acc : Bool} (h : l ≤ ar.size) :
    (addState (some l) acc).run ar = .error (.tooManyStates l) ar := by
  simp [addState, size, h]

/-- A state is allocated at the end of the arena, when the cap leaves room for it. -/
theorem run_addState_eq_ok {acc : Bool} {i : Nat} :
    (addState cap acc).run ar = .ok i ar' ↔
      Room cap ar.size ∧ i = ar.size ∧ ar' = ar.push (State.fresh acc) := by
  by_cases h : Room cap ar.size
  · rw [run_addState_of_room h]
    simp [h, eq_comm]
  · obtain ⟨l, rfl, hl⟩ : ∃ l, cap = some l ∧ l ≤ ar.size := by
      cases cap with
      | none => exact absurd (fun l hl => by cases hl) h
      | some l =>
        refine ⟨l, rfl, Nat.le_of_not_lt fun hlt => h fun l' hl' => ?_⟩
        cases hl'
        exact hlt
    rw [run_addState_of_full hl]
    simp [h]

theorem run_stateAt (i : Nat) : (stateAt i).run ar = .ok (get ar i) ar := rfl

theorem run_addEps (src dst : Nat) :
    (addEps src dst).run ar = .ok () (ar.modify src fun s => { s with eps := s.eps.push dst }) := rfl

theorem run_setEdge (src : Nat) (label : Symbol) (dst : Nat) :
    (setEdge src label dst).run ar = .ok () (ar.modify src fun s => { s with edge := some (label, dst) }) :=
  rfl

theorem run_clearEdge (src : Nat) :
    (clearEdge src).run ar = .ok () (ar.modify src fun s => { s with edge := none }) := rfl

theorem run_demote (i : Nat) :
    (demote i).run ar = .ok () (ar.modify i fun s => { s with accepting := false }) := rfl

/-! ## Leaves -/

/-- The empty fragment: a fresh entry with one epsilon edge to a fresh accepting exit. -/
theorem epsilon_spec {f : Fragment} (h : (epsilon cap).run ar = .ok f ar') :
    f = ⟨ar.size, ar.size + 1⟩ ∧ ar'.size = ar.size + 2 ∧
      get ar' ar.size = ⟨false, none, #[ar.size + 1]⟩ ∧
      get ar' (ar.size + 1) = ⟨true, none, #[]⟩ ∧
      ∀ i, i < ar.size → get ar' i = get ar i := by
  simp only [epsilon, run_bind_eq_ok, run_addState_eq_ok, run_addEps, EStateM.run_pure,
    EStateM.Result.ok.injEq] at h
  obtain ⟨_, _, ⟨-, rfl, rfl⟩, _, _, ⟨-, rfl, rfl⟩, _, _, ⟨-, rfl⟩, rfl, rfl⟩ := h
  refine ⟨by simp, by simp, ?_, by simp [State.fresh], fun i hi => ?_⟩
  · have hlt : ar.size < ar.size + 1 + 1 := by omega
    simp [State.fresh, hlt]
  · have h₁ : ar.size ≠ i := by omega
    have h₂ : ar.size + 1 ≠ i := by omega
    simp [h₁, h₂]

/-- The fragment of one symbol: a fresh entry whose symbol edge leads to a fresh
accepting exit. -/
theorem symbol_spec {label : Symbol} {f : Fragment} (h : (symbol cap label).run ar = .ok f ar') :
    f = ⟨ar.size, ar.size + 1⟩ ∧ ar'.size = ar.size + 2 ∧
      get ar' ar.size = ⟨false, some (label, ar.size + 1), #[]⟩ ∧
      get ar' (ar.size + 1) = ⟨true, none, #[]⟩ ∧
      ∀ i, i < ar.size → get ar' i = get ar i := by
  simp only [symbol, run_bind_eq_ok, run_addState_eq_ok, run_setEdge, EStateM.run_pure,
    EStateM.Result.ok.injEq] at h
  obtain ⟨_, _, ⟨-, rfl, rfl⟩, _, _, ⟨-, rfl, rfl⟩, _, _, ⟨-, rfl⟩, rfl, rfl⟩ := h
  refine ⟨by simp, by simp, ?_, by simp [State.fresh], fun i hi => ?_⟩
  · have hlt : ar.size < ar.size + 1 + 1 := by omega
    simp [State.fresh, hlt]
  · have h₁ : ar.size ≠ i := by omega
    have h₂ : ar.size + 1 ≠ i := by omega
    simp [h₁, h₂]

/-! ## Composites -/

/-- Concatenation never fails: the first exit gains an epsilon edge to the second
entry and stops accepting, and nothing else changes. -/
theorem concat_spec (a b : Fragment) (ha : a.exit < ar.size) :
    (concat a b).run ar = .ok ⟨a.entry, b.exit⟩
        ((ar.modify a.exit fun s => { s with eps := s.eps.push b.entry }).modify a.exit
          fun s => { s with accepting := false }) ∧
      get ((ar.modify a.exit fun s => { s with eps := s.eps.push b.entry }).modify a.exit
          fun s => { s with accepting := false }) a.exit =
        ⟨false, (get ar a.exit).edge, (get ar a.exit).eps.push b.entry⟩ := by
  refine ⟨rfl, ?_⟩
  simp [ha]

theorem get_concat_of_ne (a b : Fragment) {i : Nat} (hi : i ≠ a.exit) :
    get ((ar.modify a.exit fun s => { s with eps := s.eps.push b.entry }).modify a.exit
        fun s => { s with accepting := false }) i = get ar i := by
  simp [Ne.symm hi]

/-- Concatenation seen from a successful run, like the other combinators. -/
theorem concat_run {a b f : Fragment} (h : (concat a b).run ar = .ok f ar') (ha : a.exit < ar.size) :
    f = ⟨a.entry, b.exit⟩ ∧ ar'.size = ar.size ∧
      get ar' a.exit = ⟨false, (get ar a.exit).edge, (get ar a.exit).eps.push b.entry⟩ ∧
      ∀ i, i ≠ a.exit → get ar' i = get ar i := by
  obtain ⟨hrun, hexit⟩ := concat_spec a b ha
  rw [hrun] at h
  simp only [EStateM.Result.ok.injEq] at h
  obtain ⟨rfl, rfl⟩ := h
  exact ⟨rfl, by simp, hexit, fun i hi => get_concat_of_ne a b hi⟩

/-- Alternation allocates a new entry with epsilon edges to both entries, then a new
accepting exit that both old exits lead to; the old exits stop accepting. -/
theorem union_spec {a b f : Fragment} (h : (union cap a b).run ar = .ok f ar')
    (ha : a.exit < ar.size) (hb : b.exit < ar.size) (hab : a.exit ≠ b.exit) :
    f = ⟨ar.size, ar.size + 1⟩ ∧ ar'.size = ar.size + 2 ∧
      get ar' ar.size = ⟨false, none, #[a.entry, b.entry]⟩ ∧
      get ar' (ar.size + 1) = ⟨true, none, #[]⟩ ∧
      get ar' a.exit = ⟨false, (get ar a.exit).edge, (get ar a.exit).eps.push (ar.size + 1)⟩ ∧
      get ar' b.exit = ⟨false, (get ar b.exit).edge, (get ar b.exit).eps.push (ar.size + 1)⟩ ∧
      ∀ i, i < ar.size → i ≠ a.exit → i ≠ b.exit → get ar' i = get ar i := by
  simp only [union, run_bind_eq_ok, run_addState_eq_ok, run_addEps, run_demote, EStateM.run_pure,
    EStateM.Result.ok.injEq] at h
  obtain ⟨_, _, ⟨-, rfl, rfl⟩, _, _, ⟨-, rfl⟩, _, _, ⟨-, rfl⟩, _, _, ⟨-, rfl, rfl⟩, _, _, ⟨-, rfl⟩,
    _, _, ⟨-, rfl⟩, _, _, ⟨-, rfl⟩, _, _, ⟨-, rfl⟩, rfl, rfl⟩ := h
  have ha₁ : ar.size ≠ a.exit := by omega
  have ha₂ : ar.size + 1 ≠ a.exit := by omega
  have hb₁ : ar.size ≠ b.exit := by omega
  have hb₂ : ar.size + 1 ≠ b.exit := by omega
  have hlt : ar.size < ar.size + 1 + 1 := by omega
  have ha₃ : a.exit < ar.size + 1 := by omega
  have ha₄ : a.exit < ar.size + 1 + 1 := by omega
  have hb₃ : b.exit < ar.size + 1 := by omega
  have hb₄ : b.exit < ar.size + 1 + 1 := by omega
  refine ⟨by simp, by simp, ?_, ?_, ?_, ?_, fun i hi hia hib => ?_⟩
  · simp [State.fresh, Ne.symm ha₁, Ne.symm hb₁, hlt]
  · simp [State.fresh, Ne.symm ha₂, Ne.symm hb₂]
  · simp [ha₁, ha₂, ha₃, ha₄, Ne.symm hab]
  · simp [hb₁, hb₂, hb₃, hb₄, hab]
  · have h₁ : ar.size ≠ i := by omega
    have h₂ : ar.size + 1 ≠ i := by omega
    simp [h₁, h₂, Ne.symm hia, Ne.symm hib]

/-- Zero or one allocates a new entry with epsilon edges to a new accepting exit and to
the old entry; the old exit leads to the new exit and stops accepting. -/
theorem optional_spec {a f : Fragment} (h : (optional cap a).run ar = .ok f ar')
    (ha : a.exit < ar.size) :
    f = ⟨ar.size, ar.size + 1⟩ ∧ ar'.size = ar.size + 2 ∧
      get ar' ar.size = ⟨false, none, #[ar.size + 1, a.entry]⟩ ∧
      get ar' (ar.size + 1) = ⟨true, none, #[]⟩ ∧
      get ar' a.exit = ⟨false, (get ar a.exit).edge, (get ar a.exit).eps.push (ar.size + 1)⟩ ∧
      ∀ i, i < ar.size → i ≠ a.exit → get ar' i = get ar i := by
  simp only [optional, run_bind_eq_ok, run_addState_eq_ok, run_addEps, run_demote,
    EStateM.run_pure, EStateM.Result.ok.injEq] at h
  obtain ⟨_, _, ⟨-, rfl, rfl⟩, _, _, ⟨-, rfl, rfl⟩, _, _, ⟨-, rfl⟩, _, _, ⟨-, rfl⟩, _, _, ⟨-, rfl⟩,
    _, _, ⟨-, rfl⟩, rfl, rfl⟩ := h
  have ha₁ : ar.size ≠ a.exit := by omega
  have ha₂ : ar.size + 1 ≠ a.exit := by omega
  have hlt : ar.size < ar.size + 1 + 1 := by omega
  have ha₄ : a.exit < ar.size + 1 + 1 := by omega
  refine ⟨by simp, by simp, ?_, ?_, ?_, fun i hi hia => ?_⟩
  · simp [State.fresh, Ne.symm ha₁, hlt]
  · simp [State.fresh, Ne.symm ha₂]
  · simp [ha₁, ha₂, ha₄]
  · have h₁ : ar.size ≠ i := by omega
    have h₂ : ar.size + 1 ≠ i := by omega
    simp [h₁, h₂, Ne.symm hia]

/-- A loop allocates a new entry with epsilon edges to a new accepting exit and to the
body's entry; the body's exit leads to the new exit and back to the body's entry, and
stops accepting. -/
theorem loopAround_spec {bodyEntry bodyExit : Nat} {f : Fragment}
    (h : (loopAround cap bodyEntry bodyExit).run ar = .ok f ar') (hb : bodyExit < ar.size) :
    f = ⟨ar.size, ar.size + 1⟩ ∧ ar'.size = ar.size + 2 ∧
      get ar' ar.size = ⟨false, none, #[ar.size + 1, bodyEntry]⟩ ∧
      get ar' (ar.size + 1) = ⟨true, none, #[]⟩ ∧
      get ar' bodyExit =
        ⟨false, (get ar bodyExit).edge, ((get ar bodyExit).eps.push (ar.size + 1)).push bodyEntry⟩ ∧
      ∀ i, i < ar.size → i ≠ bodyExit → get ar' i = get ar i := by
  simp only [loopAround, run_bind_eq_ok, run_addState_eq_ok, run_addEps, run_demote,
    EStateM.run_pure, EStateM.Result.ok.injEq] at h
  obtain ⟨_, _, ⟨-, rfl, rfl⟩, _, _, ⟨-, rfl, rfl⟩, _, _, ⟨-, rfl⟩, _, _, ⟨-, rfl⟩, _, _, ⟨-, rfl⟩,
    _, _, ⟨-, rfl⟩, _, _, ⟨-, rfl⟩, rfl, rfl⟩ := h
  have hb₁ : ar.size ≠ bodyExit := by omega
  have hb₂ : ar.size + 1 ≠ bodyExit := by omega
  have hlt : ar.size < ar.size + 1 + 1 := by omega
  have hb₄ : bodyExit < ar.size + 1 + 1 := by omega
  refine ⟨by simp, by simp, ?_, ?_, ?_, fun i hi hib => ?_⟩
  · simp [State.fresh, Ne.symm hb₁, hlt]
  · simp [State.fresh, Ne.symm hb₂]
  · simp [hb₁, hb₂, hb₄]
  · have h₁ : ar.size ≠ i := by omega
    have h₂ : ar.size + 1 ≠ i := by omega
    simp [h₁, h₂, Ne.symm hib]

/-- Zero or more is a loop around the fragment. -/
theorem closure_spec {a f : Fragment} (h : (closure cap a).run ar = .ok f ar')
    (ha : a.exit < ar.size) :
    f = ⟨ar.size, ar.size + 1⟩ ∧ ar'.size = ar.size + 2 ∧
      get ar' ar.size = ⟨false, none, #[ar.size + 1, a.entry]⟩ ∧
      get ar' (ar.size + 1) = ⟨true, none, #[]⟩ ∧
      get ar' a.exit =
        ⟨false, (get ar a.exit).edge, ((get ar a.exit).eps.push (ar.size + 1)).push a.entry⟩ ∧
      ∀ i, i < ar.size → i ≠ a.exit → get ar' i = get ar i :=
  loopAround_spec h ha

/-- One or more keeps the fragment's entry: the fragment's exit, demoted, leads to the
exit of a new loop around the fragment, back to its own entry, and to the loop's entry. -/
theorem oneOrMore_spec {a f : Fragment} (h : (oneOrMore cap a).run ar = .ok f ar')
    (ha : a.exit < ar.size) :
    f = ⟨a.entry, ar.size + 1⟩ ∧ ar'.size = ar.size + 2 ∧
      get ar' ar.size = ⟨false, none, #[ar.size + 1, a.entry]⟩ ∧
      get ar' (ar.size + 1) = ⟨true, none, #[]⟩ ∧
      get ar' a.exit = ⟨false, (get ar a.exit).edge,
        (((get ar a.exit).eps.push (ar.size + 1)).push a.entry).push ar.size⟩ ∧
      ∀ i, i < ar.size → i ≠ a.exit → get ar' i = get ar i := by
  simp only [oneOrMore, run_bind_eq_ok, run_demote] at h
  obtain ⟨_, ar₁, ⟨-, rfl⟩, r, ar₂, hloop, hcat⟩ := h
  have hsize₁ : (ar.modify a.exit fun s => { s with accepting := false }).size = ar.size := by simp
  obtain ⟨rfl, hsize₂, hentry, hexit, hbody, hframe⟩ := loopAround_spec hloop (by rw [hsize₁]; exact ha)
  rw [hsize₁] at hsize₂ hentry hexit hbody hframe hcat
  obtain ⟨hrun, hcat_exit⟩ := concat_spec a ⟨ar.size, ar.size + 1⟩ (show a.exit < ar₂.size by omega)
  rw [hrun] at hcat
  cases hcat
  refine ⟨rfl, by simp [hsize₂], ?_, ?_, ?_, fun i hi hia => ?_⟩
  · rw [get_concat_of_ne _ _ (by omega), hentry]
  · rw [get_concat_of_ne _ _ (by omega), hexit]
  · rw [hcat_exit, hbody]
    simp [ha]
  · rw [get_concat_of_ne _ _ hia, hframe i hi hia]
    simp [Ne.symm hia]

/-! ## Classes -/

/-- Appending one edge and then a run of consecutive targets is appending the longer
run. -/
theorem push_append_range (eps : Array Nat) (n k : Nat) :
    eps.push n ++ ((List.range k).map (n + 1 + ·)).toArray =
      eps ++ ((List.range (k + 1)).map (n + ·)).toArray := by
  rw [List.range_succ_eq_map]
  apply Array.toList_inj.mp
  simp only [Array.toList_append, Array.toList_push, List.map_cons, List.map_map,
    List.append_assoc, List.singleton_append, Nat.add_zero]
  congr 2
  refine List.map_congr_left fun x _ => ?_
  simp only [Function.comp_apply]
  omega

/-- Each member of a class gets a fresh branch state whose symbol edge leads to the
exit, and the entry gains an epsilon edge to each branch, in the order of the
members. -/
theorem addBranches_spec {entry exit : Nat} (ms : List Symbol) :
    ∀ {ar ar' : Array State}, (addBranches cap entry exit ms).run ar = .ok () ar' →
      entry < ar.size →
      ar'.size = ar.size + ms.length ∧
      get ar' entry = ⟨(get ar entry).accepting, (get ar entry).edge,
        (get ar entry).eps ++ ((List.range ms.length).map (ar.size + ·)).toArray⟩ ∧
      (∀ t (ht : t < ms.length), get ar' (ar.size + t) = ⟨false, some (ms[t], exit), #[]⟩) ∧
      ∀ i, i < ar.size → i ≠ entry → get ar' i = get ar i := by
  induction ms with
  | nil =>
    intro ar ar' h _
    simp only [addBranches, EStateM.run_pure, EStateM.Result.ok.injEq] at h
    obtain ⟨-, rfl⟩ := h
    refine ⟨by simp, by simp, fun t ht => absurd ht (by simp), fun i _ _ => rfl⟩
  | cons m ms ih =>
    intro ar ar' h hentry
    simp only [addBranches, run_bind_eq_ok, run_addState_eq_ok, run_addEps, run_setEdge] at h
    obtain ⟨_, _, ⟨-, rfl, rfl⟩, _, _, ⟨-, rfl⟩, _, _, ⟨-, rfl⟩, hrest⟩ := h
    have hentry₁ : ar.size ≠ entry := by omega
    obtain ⟨hsize, hget, hbranch, hframe⟩ := ih hrest (by simp; omega)
    simp only [Array.size_modify, Array.size_push] at hsize hget hbranch hframe
    refine ⟨by rw [hsize, List.length_cons]; omega, ?_, fun t ht => ?_, fun i hi hie => ?_⟩
    · rw [hget]
      have hlt : entry < ar.size + 1 := by omega
      simp only [get_modify, get_push, hentry₁, hlt, Array.size_push, Array.size_modify, and_self,
        false_and, if_true, if_false, List.length_cons, push_append_range]
    · cases t with
      | zero =>
        have h₁ := hframe ar.size (by omega) hentry₁
        simp [h₁, Ne.symm hentry₁, State.fresh]
      | succ t =>
        have ht' : t < ms.length := by simpa using ht
        have h₁ := hbranch t ht'
        rw [show ar.size + (t + 1) = ar.size + 1 + t by omega, h₁]
        simp
    · have h₁ := hframe i (by omega) hie
      have h₂ : ar.size ≠ i := by omega
      simp [h₁, h₂, Ne.symm hie]

/-- A class allocates its entry, its exit, and one branch per member, in that order. -/
theorem charClass_spec {ms : List Symbol} {f : Fragment} (h : (charClass cap ms).run ar = .ok f ar') :
    f = ⟨ar.size, ar.size + 1⟩ ∧ ar'.size = ar.size + 2 + ms.length ∧
      get ar' ar.size = ⟨false, none, ((List.range ms.length).map (ar.size + 2 + ·)).toArray⟩ ∧
      get ar' (ar.size + 1) = ⟨true, none, #[]⟩ ∧
      (∀ t (ht : t < ms.length), get ar' (ar.size + 2 + t) = ⟨false, some (ms[t], ar.size + 1), #[]⟩) ∧
      ∀ i, i < ar.size → get ar' i = get ar i := by
  simp only [charClass, run_bind_eq_ok, run_addState_eq_ok, EStateM.run_pure,
    EStateM.Result.ok.injEq] at h
  obtain ⟨_, _, ⟨-, rfl, rfl⟩, _, _, ⟨-, rfl, rfl⟩, _, ar₂, hbr, rfl, rfl⟩ := h
  obtain ⟨hsize, hentry, hbranch, hframe⟩ :=
    addBranches_spec ms hbr (by simp only [Array.size_push]; omega)
  simp only [Array.size_push] at hsize hentry hbranch hframe
  refine ⟨by simp, by omega, ?_, ?_, fun t ht => ?_, fun i hi => ?_⟩
  · rw [hentry]
    simp [State.fresh]
  · rw [hframe (ar.size + 1) (by omega) (by omega)]
    simp [State.fresh]
  · rw [show ar.size + 2 + t = ar.size + 1 + 1 + t by omega, hbranch t ht]
  · have h₁ : ar.size ≠ i := by omega
    have h₂ : ar.size + 1 ≠ i := by omega
    rw [hframe i (by omega) (by omega)]
    simp [h₁, h₂]

/-! ## Bounded repetition -/

/-- A test that throws when its condition holds lets a successful run through only
when the condition fails. -/
theorem run_guard_eq_ok {β : Type} {c : Prop} [Decidable c] {e : PatternError}
    {rest : Unit → Build β} {v : β} :
    (if c then throw e >>= rest else rest ()).run ar = .ok v ar' →
      ¬ c ∧ (rest ()).run ar = .ok v ar' := by
  intro h
  split at h
  · cases h
  · exact ⟨by assumption, h⟩

/-- The same for a test that only a cap can fail. -/
theorem run_capGuard_eq_ok {β : Type} {p : Nat → Prop} [DecidablePred p]
    {err : Nat → PatternError} {rest : Unit → Build β} {v : β} :
    (match cap with
      | some limit => if p limit then throw (err limit) >>= rest else rest ()
      | none => rest ()).run ar = .ok v ar' →
      (∀ l, cap = some l → ¬ p l) ∧ (rest ()).run ar = .ok v ar' := by
  intro h
  cases cap with
  | none => exact ⟨fun _ hl => (nomatch hl), h⟩
  | some l =>
    obtain ⟨hl, h⟩ := run_guard_eq_ok h
    refine ⟨fun l' hl' => ?_, h⟩
    cases hl'
    exact hl

/-- The single-symbol test reads the arena without changing it, and it answers a label
only for an entry whose one symbol edge, over that label, leads to the exit, with no
epsilon edge, and an exit without edges. -/
theorem singleSymbol_spec {a : Fragment} {r : Option Symbol}
    (h : (singleSymbol a).run ar = .ok r ar') :
    ar' = ar ∧ ∀ label, r = some label →
      (get ar a.entry).edge = some (label, a.exit) ∧ (get ar a.entry).eps = #[] ∧
        Quiet (get ar a.exit) := by
  simp only [singleSymbol, run_bind_eq_ok, run_stateAt] at h
  obtain ⟨_, _, ⟨rfl, rfl⟩, _, _, ⟨rfl, rfl⟩, h⟩ := h
  split at h
  · rename_i label target hedge
    split at h
    · rename_i hc
      simp only [EStateM.run_pure, EStateM.Result.ok.injEq] at h
      obtain ⟨rfl, rfl⟩ := h
      simp only [Bool.and_eq_true, decide_eq_true_eq, Array.isEmpty_iff,
        Option.isNone_iff_eq_none] at hc
      obtain ⟨⟨⟨rfl, heps⟩, hedge'⟩, heps'⟩ := hc
      refine ⟨rfl, fun l hl => ?_⟩
      cases hl
      exact ⟨hedge, heps, hedge', heps'⟩
    · simp only [EStateM.run_pure, EStateM.Result.ok.injEq] at h
      obtain ⟨rfl, rfl⟩ := h
      exact ⟨rfl, fun l hl => (nomatch hl)⟩
  · simp only [EStateM.run_pure, EStateM.Result.ok.injEq] at h
    obtain ⟨rfl, rfl⟩ := h
    exact ⟨rfl, fun l hl => (nomatch hl)⟩

/-- Extending a chain by `k` links allocates them in order; the chain's last link `p`
gets a symbol edge to the first new one, each new link to the next, and the last new
link has no edge yet. -/
theorem extendChain_spec {label : Symbol} (k : Nat) :
    ∀ {p : Nat} {rest : List Nat} {ar ar' : Array State} {links : List Nat},
      (extendChain cap label k (p :: rest)).run ar = .ok links ar' → p < ar.size →
      links = ((List.range k).map (ar.size + ·)).reverse ++ p :: rest ∧ ar'.size = ar.size + k ∧
      get ar' p = (if k = 0 then get ar p else
        ⟨(get ar p).accepting, some (label, ar.size), (get ar p).eps⟩) ∧
      (∀ t, t < k → get ar' (ar.size + t) =
        ⟨false, if t + 1 < k then some (label, ar.size + t + 1) else none, #[]⟩) ∧
      ∀ i, i < ar.size → i ≠ p → get ar' i = get ar i := by
  induction k with
  | zero =>
    intro p rest ar ar' links h _
    simp only [extendChain, EStateM.run_pure, EStateM.Result.ok.injEq] at h
    obtain ⟨rfl, rfl⟩ := h
    exact ⟨by simp, by simp, by simp, fun t ht => absurd ht (Nat.not_lt_zero t), fun _ _ _ => rfl⟩
  | succ k ih =>
    intro p rest ar ar' links h hp
    simp only [extendChain, List.headD_cons, run_bind_eq_ok, run_addState_eq_ok,
      run_setEdge] at h
    obtain ⟨_, _, ⟨-, rfl, rfl⟩, _, _, ⟨-, rfl⟩, hrest⟩ := h
    obtain ⟨hlinks, hsize, hnew, hchain, hframe⟩ := ih hrest (by simp)
    simp only [Array.size_modify, Array.size_push] at hlinks hsize hnew hchain hframe
    have hne : ar.size ≠ p := by omega
    have hlt : p < ar.size + 1 := by omega
    refine ⟨?_, by omega, ?_, fun t ht => ?_, fun i hi hip => ?_⟩
    · rw [hlinks, List.range_succ_eq_map]
      simp only [List.map_cons, List.map_map, List.reverse_cons, List.append_assoc,
        List.singleton_append, Nat.add_zero]
      congr 2
      refine List.map_congr_left fun x _ => ?_
      simp only [Function.comp_apply]
      omega
    · rw [hframe p hlt (Ne.symm hne)]
      simp [hne, hlt]
    · cases t with
      | zero =>
        rw [Nat.add_zero, hnew]
        by_cases hk : k = 0
        · subst hk
          simp [Ne.symm hne, State.fresh]
        · have hk' : 0 + 1 < k + 1 := by omega
          simp [hk, hk', Ne.symm hne, State.fresh]
      | succ t =>
        rw [show ar.size + (t + 1) = ar.size + 1 + t by omega, hchain t (by omega)]
        have hiff : (t + 1 < k) ↔ (t + 1 + 1 < k + 1) := by omega
        simp only [hiff, Nat.add_assoc]
    · rw [hframe i (by omega) (by omega)]
      have h₁ : ar.size ≠ i := by omega
      simp [h₁, Ne.symm hip]

/-- Adding an epsilon edge to the same target from each of a list of distinct states of
the arena. -/
theorem forM_addEps_spec {exit : Nat} (l : List Nat) :
    ∀ {ar ar' : Array State}, (l.forM fun link => addEps link exit).run ar = .ok () ar' →
      l.Nodup → (∀ x ∈ l, x < ar.size) →
      ar'.size = ar.size ∧
      ∀ i, get ar' i = if i ∈ l then
        ⟨(get ar i).accepting, (get ar i).edge, (get ar i).eps.push exit⟩ else get ar i := by
  induction l with
  | nil =>
    intro ar ar' h _ _
    simp only [List.forM, EStateM.run_pure, EStateM.Result.ok.injEq] at h
    obtain ⟨-, rfl⟩ := h
    simp
  | cons x l ih =>
    intro ar ar' h hnd hlt
    simp only [List.forM, run_bind_eq_ok, run_addEps] at h
    obtain ⟨_, _, ⟨-, rfl⟩, hrest⟩ := h
    obtain ⟨hx, hnd⟩ := List.nodup_cons.mp hnd
    obtain ⟨hsize, hget⟩ := ih hrest hnd (fun y hy => by simpa using hlt y (List.mem_cons_of_mem _ hy))
    refine ⟨by simpa using hsize, fun i => ?_⟩
    rw [hget]
    by_cases hix : i = x
    · subst hix
      simp [hx, hlt i List.mem_cons_self]
    · simp [hix, Ne.symm hix]

/-- The `j`-th link of the chain that a bounded repetition of the single-symbol
fragment `a` builds when its new exit is `n`: the fragment's entry, its exit, then the
states allocated right after the new exit. -/
def chainLink (a : Fragment) (n : Nat) : Nat → Nat
  | 0 => a.entry
  | 1 => a.exit
  | j + 2 => n + 1 + j

section Chain

variable {a : Fragment} {n : Nat}

theorem chainLink_lt {j max : Nat} (he : a.entry < n) (hx : a.exit < n) (hj : j ≤ max) :
    chainLink a n j < n + 1 + (max - 1) := by
  rcases j with _ | _ | j <;> simp only [chainLink] <;> omega

theorem chainLink_ne (j : Nat) (he : a.entry < n) (hx : a.exit < n) : chainLink a n j ≠ n := by
  rcases j with _ | _ | j <;> simp only [chainLink] <;> omega

theorem chainLink_inj {i j : Nat} (hne : a.entry ≠ a.exit) (he : a.entry < n) (hx : a.exit < n)
    (h : chainLink a n i = chainLink a n j) : i = j := by
  rcases i with _ | _ | i <;> rcases j with _ | _ | j <;> simp only [chainLink] at h <;> omega

/-- Dropping the first `min` links keeps exactly the links from the `min`-th on. -/
theorem chainLink_mem_drop_iff {min max j : Nat} (hne : a.entry ≠ a.exit) (he : a.entry < n)
    (hx : a.exit < n) (hj : j ≤ max) :
    chainLink a n j ∈ ((List.range (max + 1)).map (chainLink a n)).drop min ↔ min ≤ j := by
  rw [← List.map_drop, List.mem_map]
  constructor
  · rintro ⟨i, hi, heq⟩
    obtain ⟨t, ht, hget⟩ := List.mem_drop_iff_getElem.mp hi
    rw [List.getElem_range] at hget
    have := chainLink_inj hne he hx heq
    omega
  · intro hmin
    refine ⟨j, List.mem_drop_iff_getElem.mpr ⟨j - min, by simp; omega, ?_⟩, rfl⟩
    simp only [List.getElem_range]
    omega

/-- The chain of `m + 2` links: the fragment's entry and exit, then `m` new states. -/
theorem chain_eq_cons (m : Nat) :
    (List.range (m + 2)).map (chainLink a n) = a.entry :: a.exit :: (List.range m).map (n + 1 + ·) := by
  rw [List.range_succ_eq_map, List.range_succ_eq_map]
  simp only [List.map_cons, List.map_map]
  rfl

/-- What a bounded repetition has laid out before it links its chain to its new exit:
the new exit at the old end of the arena `ar₀`, accepting and without edges, and
`max + 1` links along symbol edges over `label`, none with an epsilon edge; when the
chain is only the entry, the old exit is left without edges and not accepting. -/
structure ChainLaid (ar₀ ar : Array State) (a : Fragment) (label : Symbol) (max : Nat) : Prop where
  size_eq : ar.size = ar₀.size + 1 + (max - 1)
  exit_eq : get ar ar₀.size = ⟨true, none, #[]⟩
  link_eq : ∀ j, j ≤ max → get ar (chainLink a ar₀.size j) =
    ⟨j == 0 && (get ar₀ a.entry).accepting,
      if j < max then some (label, chainLink a ar₀.size (j + 1)) else none, #[]⟩
  demoted : max = 0 → get ar a.exit = ⟨false, none, #[]⟩
  frame : ∀ i, i < ar₀.size → i ≠ a.entry → i ≠ a.exit → get ar i = get ar₀ i

/-- With no link beyond the entry, the entry loses its symbol edge. -/
theorem chainLaid_clear {label : Symbol} (ha : a.exit < ar.size) (he : a.entry < ar.size)
    (hne : a.entry ≠ a.exit) (heps : (get ar a.entry).eps = #[]) (hquiet : Quiet (get ar a.exit)) :
    ChainLaid ar (((ar.push (State.fresh true)).modify a.exit fun s => { s with accepting := false }).modify
      a.entry fun s => { s with edge := none }) a label 0 := by
  have he₁ : a.entry ≠ ar.size := by omega
  have hx₁ : a.exit ≠ ar.size := by omega
  have he₂ : a.entry < ar.size + 1 := by omega
  have hx₂ : a.exit < ar.size + 1 := by omega
  constructor
  · simp
  · simp [he₁, hx₁, State.fresh]
  · intro j hj
    obtain rfl : j = 0 := by omega
    simp [chainLink, Ne.symm hne, Ne.symm he₁, he₂, heps]
  · intro _
    simp [Ne.symm hx₁, hx₂, hquiet.1, hquiet.2]
  · intro i hi hie hix
    have h₁ : ar.size ≠ i := by omega
    simp [h₁, Ne.symm hie, Ne.symm hix]

/-- With `m + 1` links beyond the entry, the old exit is the second link and the chain
goes on through `m` new states. -/
theorem chainLaid_extend {label : Symbol} {m : Nat} {links : List Nat} {ar₃ : Array State}
    (h : (extendChain cap label m [a.exit, a.entry]).run
      ((ar.push (State.fresh true)).modify a.exit fun s => { s with accepting := false }) = .ok links ar₃)
    (ha : a.exit < ar.size) (he : a.entry < ar.size) (hne : a.entry ≠ a.exit)
    (hedge : (get ar a.entry).edge = some (label, a.exit)) (heps : (get ar a.entry).eps = #[])
    (hquiet : Quiet (get ar a.exit)) :
    links.reverse = (List.range (m + 1 + 1)).map (chainLink a ar.size) ∧
      ChainLaid ar ar₃ a label (m + 1) := by
  obtain ⟨hlinks, hsize, hexit, hnew, hframe⟩ := extendChain_spec m h (by simp; omega)
  simp only [Array.size_modify, Array.size_push] at hlinks hsize hexit hnew hframe
  have he₁ : a.entry ≠ ar.size := by omega
  have hx₁ : a.exit ≠ ar.size := by omega
  have hx₂ : a.exit < ar.size + 1 := by omega
  -- the old exit, demoted, before the chain runs on from it
  have hold : get ((ar.push (State.fresh true)).modify a.exit fun s => { s with accepting := false })
      a.exit = ⟨false, none, #[]⟩ := by
    simp [Ne.symm hx₁, hx₂, hquiet.1, hquiet.2]
  refine ⟨?_, ⟨by simp [hsize], ?_, fun j hj => ?_, fun h0 => absurd h0 (by omega), ?_⟩⟩
  · rw [hlinks, chain_eq_cons]
    simp
  · rw [hframe _ (by omega) (Ne.symm hx₁)]
    simp [State.fresh, hx₁]
  · rcases j with _ | _ | t
    · rw [show chainLink a ar.size 0 = a.entry from rfl, hframe _ (by omega) hne]
      have hpos : 0 < m + 1 := by omega
      simp only [chainLink, get_modify, get_push, Ne.symm hne, Ne.symm he₁, false_and, if_false,
        hpos, if_true, beq_self_eq_true, Bool.true_and]
      rw [← hedge, ← heps]
    · rw [show chainLink a ar.size (0 + 1) = a.exit from rfl, hexit, hold]
      by_cases hm : m = 0
      · simp [hm]
      · have hlt : 0 + 1 < m + 1 := by omega
        simp [hm, hlt, chainLink]
    · simp only [chainLink]
      rw [hnew t (by omega)]
      have hiff : (t + 1 < m) ↔ (t + 2 < m + 1) := by omega
      simp only [hiff, Nat.add_assoc]
      simp
  · intro i hi hie hix
    have h₁ : ar.size ≠ i := by omega
    rw [hframe i (by omega) hix]
    simp [h₁, Ne.symm hix]

end Chain

/-- Linking the chain from its `min`-th link on to the new exit completes the
repetition; the states off the chain keep what the chain left them. -/
theorem ChainLaid.link {ar₀ ar₃ ar₄ : Array State} {a : Fragment} {label : Symbol}
    {min max : Nat} {u : PUnit} (hlaid : ChainLaid ar₀ ar₃ a label max) (ha : a.exit < ar₀.size)
    (he : a.entry < ar₀.size) (hne : a.entry ≠ a.exit)
    (h : ((((List.range (max + 1)).map (chainLink a ar₀.size)).drop min).forM
      fun link => addEps link ar₀.size).run ar₃ = .ok u ar₄) :
    ar₄.size = ar₀.size + 1 + (max - 1) ∧
      get ar₄ ar₀.size = ⟨true, none, #[]⟩ ∧
      (∀ j, j ≤ max → get ar₄ (chainLink a ar₀.size j) =
        ⟨j == 0 && (get ar₀ a.entry).accepting,
          if j < max then some (label, chainLink a ar₀.size (j + 1)) else none,
          if min ≤ j then #[ar₀.size] else #[]⟩) ∧
      (max = 0 → get ar₄ a.exit = ⟨false, none, #[]⟩) ∧
      ∀ i, i < ar₀.size → i ≠ a.entry → i ≠ a.exit → get ar₄ i = get ar₀ i := by
  obtain ⟨chain, hchain⟩ : ∃ chain, chain = (List.range (max + 1)).map (chainLink a ar₀.size) :=
    ⟨_, rfl⟩
  rw [← hchain] at h
  have hnodup : chain.Nodup :=
    hchain ▸ List.nodup_iff_pairwise_ne.mpr (List.Pairwise.map _
      (fun _ _ hij heq => hij (chainLink_inj hne he ha heq)) (List.nodup_iff_pairwise_ne.mp List.nodup_range))
  have hmem : ∀ i, i ∈ chain ↔ ∃ j, j ≤ max ∧ chainLink a ar₀.size j = i := by
    simp only [hchain, List.mem_map, List.mem_range, Nat.lt_succ_iff, implies_true]
  -- a state that is no link of the chain gains no epsilon edge
  have hoff : ∀ i, (∀ j, j ≤ max → chainLink a ar₀.size j ≠ i) → i ∉ chain.drop min :=
    fun i hi hd => by
      obtain ⟨j, hj, hji⟩ := (hmem i).mp (List.mem_of_mem_drop hd)
      exact hi j hj hji
  obtain ⟨hsize, hget⟩ := forM_addEps_spec (chain.drop min) h (hnodup.sublist (List.drop_sublist _ _))
    fun x hx => by
      obtain ⟨j, hj, rfl⟩ := (hmem x).mp (List.mem_of_mem_drop hx)
      rw [hlaid.size_eq]
      exact chainLink_lt he ha hj
  refine ⟨by rw [hsize, hlaid.size_eq], ?_, fun j hj => ?_, fun h0 => ?_, fun i hi hie hix => ?_⟩
  · rw [hget, if_neg (hoff _ fun j _ => chainLink_ne j he ha), hlaid.exit_eq]
  · have hiff : chainLink a ar₀.size j ∈ chain.drop min ↔ min ≤ j :=
      hchain ▸ chainLink_mem_drop_iff hne he ha hj
    rw [hget, hlaid.link_eq j hj]
    by_cases hmin : min ≤ j
    · simp [hiff.mpr hmin, hmin]
    · simp [mt hiff.mp hmin, hmin]
  · -- with `max = 0` the old exit is no link
    have hx : a.exit ∉ chain.drop min := hoff _ fun j hj hjx => by
      obtain rfl : j = 0 := by omega
      exact hne hjx
    rw [hget, if_neg hx, hlaid.demoted h0]
  · have hi' : i ∉ chain.drop min := hoff _ fun j _ hji => by
      rcases j with _ | _ | j <;> simp only [chainLink] at hji <;> omega
    rw [hget, if_neg hi', hlaid.frame i hi hie hix]

/-- A bounded repetition of a single-symbol fragment: the range is checked, the
fragment's entry and exit become the first two links of a chain of `max + 1` links
along symbol edges over its label, and every link from the `min`-th on has an epsilon
edge to a new accepting exit allocated at the end of the arena. With `max = 0` the
chain is the entry alone, and the old exit is left without edges. -/
theorem boundedRepeat_spec {a f : Fragment} {min max : Nat}
    (h : (boundedRepeat cap a min max).run ar = .ok f ar') (ha : a.exit < ar.size) :
    ∃ label, min ≤ max ∧ max ≤ 10000 ∧
      (get ar a.entry).edge = some (label, a.exit) ∧ (get ar a.entry).eps = #[] ∧
      Quiet (get ar a.exit) ∧
      f = ⟨a.entry, ar.size⟩ ∧ ar'.size = ar.size + 1 + (max - 1) ∧
      get ar' ar.size = ⟨true, none, #[]⟩ ∧
      (∀ j, j ≤ max → get ar' (chainLink a ar.size j) =
        ⟨j == 0 && (get ar a.entry).accepting,
          if j < max then some (label, chainLink a ar.size (j + 1)) else none,
          if min ≤ j then #[ar.size] else #[]⟩) ∧
      (max = 0 → get ar' a.exit = ⟨false, none, #[]⟩) ∧
      ∀ i, i < ar.size → i ≠ a.entry → i ≠ a.exit → get ar' i = get ar i := by
  unfold boundedRepeat repeatChain at h
  replace h := run_guard_eq_ok h
  obtain ⟨hrange, h⟩ := h
  simp only [run_bind_eq_ok] at h
  obtain ⟨r, ar₁, hsym, h⟩ := h
  replace hsym := singleSymbol_spec hsym
  obtain ⟨hsame, hlabel⟩ := hsym
  subst ar₁
  cases r with
  | none => cases h
  | some label =>
  obtain ⟨hedge, heps, hquiet⟩ := hlabel label rfl
  have he : a.entry < ar.size := lt_size_of_targets (.inr ⟨label, hedge⟩)
  have hne : a.entry ≠ a.exit := fun heq => by
    rw [heq, hquiet.1] at hedge
    cases hedge
  simp only [run_bind_eq_ok, run_size] at h
  obtain ⟨_, _, ⟨rfl, rfl⟩, h⟩ := h
  replace h := run_capGuard_eq_ok h
  obtain ⟨-, h⟩ := h
  simp only [run_bind_eq_ok, run_addState_eq_ok, run_demote] at h
  obtain ⟨_, _, ⟨-, rfl, rfl⟩, _, _, ⟨-, rfl⟩, h⟩ := h
  -- both branches lay out the chain; the epsilon edges to the new exit follow
  obtain ⟨ar₃, hlaid, u, ar₄, hfor, hres⟩ : ∃ ar₃, ChainLaid ar ar₃ a label max ∧
      ∃ (u : PUnit) (ar₄ : Array State),
        ((((List.range (max + 1)).map (chainLink a ar.size)).drop min).forM
          fun link => addEps link ar.size).run ar₃ = .ok u ar₄ ∧
        (EStateM.Result.ok ⟨a.entry, ar.size⟩ ar₄ : EStateM.Result PatternError (Array State) Fragment) =
          .ok f ar' := by
    split at h
    · subst max
      simp only [run_bind_eq_ok, run_clearEdge, EStateM.run_pure] at h
      obtain ⟨_, _, ⟨-, rfl⟩, _, _, ⟨rfl, rfl⟩, hfor⟩ := h
      exact ⟨_, chainLaid_clear ha he hne heps hquiet, hfor⟩
    · obtain ⟨m, rfl⟩ := Nat.exists_eq_add_one_of_ne_zero ‹max ≠ 0›
      simp only [run_bind_eq_ok, EStateM.run_pure, Nat.add_sub_cancel] at h
      obtain ⟨links, ar₃, hext, _, _, ⟨rfl, rfl⟩, hfor⟩ := h
      obtain ⟨hchain, hlaid⟩ := chainLaid_extend hext ha he hne hedge heps hquiet
      rw [hchain] at hfor
      exact ⟨ar₃, hlaid, hfor⟩
  simp only [EStateM.Result.ok.injEq] at hres
  obtain ⟨rfl, rfl⟩ := hres
  have hbounds : min ≤ max ∧ max ≤ 10000 := by
    simp only [Bool.or_eq_true, decide_eq_true_eq, not_or, Nat.not_lt] at hrange
    exact hrange
  exact ⟨label, hbounds.1, hbounds.2, hedge, heps, hquiet, rfl, hlaid.link ha he hne hfor⟩

/-! ## Tokens -/

/-- What a token did when it succeeded: an operand or a class pushed the fragment its
combinator built, and an operator replaced its operands, top first, by the fragment
its combinator built from them. -/
inductive TokenRun (cap : Option Nat) (ar ar' : Array State) :
    Token → List Fragment → List Fragment → Prop
  | operand {s : Symbol} {f : Fragment} {stack : List Fragment} :
    (symbol cap s).run ar = .ok f ar' → TokenRun cap ar ar' (.operand s) stack (f :: stack)
  | charClass {ms : List Symbol} {f : Fragment} {stack : List Fragment} :
    (charClass cap ms).run ar = .ok f ar' → TokenRun cap ar ar' (.charClass ms) stack (f :: stack)
  | alt {r l f : Fragment} {rest : List Fragment} :
    (union cap l r).run ar = .ok f ar' → TokenRun cap ar ar' .alt (r :: l :: rest) (f :: rest)
  | cat {r l f : Fragment} {rest : List Fragment} :
    (concat l r).run ar = .ok f ar' → TokenRun cap ar ar' .cat (r :: l :: rest) (f :: rest)
  | opt {a f : Fragment} {rest : List Fragment} :
    (optional cap a).run ar = .ok f ar' → TokenRun cap ar ar' .opt (a :: rest) (f :: rest)
  | star {a f : Fragment} {rest : List Fragment} :
    (closure cap a).run ar = .ok f ar' → TokenRun cap ar ar' .star (a :: rest) (f :: rest)
  | plus {a f : Fragment} {rest : List Fragment} :
    (oneOrMore cap a).run ar = .ok f ar' → TokenRun cap ar ar' .plus (a :: rest) (f :: rest)
  | rep {min max : Nat} {a f : Fragment} {rest : List Fragment} :
    (boundedRepeat cap a min max).run ar = .ok f ar' →
      TokenRun cap ar ar' (.rep min max) (a :: rest) (f :: rest)

/-- A token that succeeds ran its combinator; a missing operand and a bracket fail. -/
theorem TokenRun.of_applyToken {t : Token} {stack stack' : List Fragment}
    (h : (applyToken cap t stack).run ar = .ok stack' ar') : TokenRun cap ar ar' t stack stack' := by
  cases t with
  | operand s =>
    simp only [applyToken, run_bind_eq_ok, EStateM.run_pure, EStateM.Result.ok.injEq] at h
    obtain ⟨f, _, hf, rfl, rfl⟩ := h
    exact .operand hf
  | charClass ms =>
    simp only [applyToken, run_bind_eq_ok, EStateM.run_pure, EStateM.Result.ok.injEq] at h
    obtain ⟨f, _, hf, rfl, rfl⟩ := h
    exact .charClass hf
  -- an operator runs its combinator when the stack holds its operands, and fails otherwise
  | alt =>
    simp only [applyToken] at h
    split at h
    · simp only [run_bind_eq_ok, EStateM.run_pure, EStateM.Result.ok.injEq] at h
      obtain ⟨f, _, hf, rfl, rfl⟩ := h
      exact .alt hf
    · cases h
  | cat =>
    simp only [applyToken] at h
    split at h
    · simp only [run_bind_eq_ok, EStateM.run_pure, EStateM.Result.ok.injEq] at h
      obtain ⟨f, _, hf, rfl, rfl⟩ := h
      exact .cat hf
    · cases h
  | opt =>
    simp only [applyToken] at h
    split at h
    · simp only [run_bind_eq_ok, EStateM.run_pure, EStateM.Result.ok.injEq] at h
      obtain ⟨f, _, hf, rfl, rfl⟩ := h
      exact .opt hf
    · cases h
  | star =>
    simp only [applyToken] at h
    split at h
    · simp only [run_bind_eq_ok, EStateM.run_pure, EStateM.Result.ok.injEq] at h
      obtain ⟨f, _, hf, rfl, rfl⟩ := h
      exact .star hf
    · cases h
  | plus =>
    simp only [applyToken] at h
    split at h
    · simp only [run_bind_eq_ok, EStateM.run_pure, EStateM.Result.ok.injEq] at h
      obtain ⟨f, _, hf, rfl, rfl⟩ := h
      exact .plus hf
    · cases h
  | rep min max =>
    simp only [applyToken] at h
    split at h
    · simp only [run_bind_eq_ok, EStateM.run_pure, EStateM.Result.ok.injEq] at h
      obtain ⟨f, _, hf, rfl, rfl⟩ := h
      exact .rep hf
    · cases h
  | openGroup => cases h
  | closeGroup => cases h

end Build

end SeqPattern
