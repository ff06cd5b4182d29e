import SeqPattern.Proofs.Layout
import SeqPattern.Proofs.Simulation
import SeqPattern.Pattern.Regex
/-!
# The compiled automaton matches the pattern's language

Evaluating a reverse Polish stream on a stack of trees, in step with the compiler's
stack of fragments, gives the pattern as a tree. This file proves that the automaton
the compiler returns matches exactly that tree's language.

Each fragment on the compiler's stack denotes its tree: the sequences consumed by the
paths from its entry to its exit are the tree's language (`Denotes`). The proof
carries this through every combinator. Since a combinator rewires old states in
place, the paths of the new arena are compared with those of the old one through the
fragments' intervals (`Layout.Owns`): a path that starts inside an owned interval
stays there until it reaches the interval's exit (`Owns.path_cross`), and the
interval's other states are as they were.

Two combinators add cycles. The paths through a loop are split at every return to the
body's exit by induction on the path itself (`loop_paths`), since a body that matches
the empty sequence makes a cycle that consumes nothing. The links of a bounded
repetition are followed one by one (`chain_paths`).

A bounded repetition only succeeds on a fragment whose entry has one symbol edge,
straight to its exit; the stack invariant records that such a fragment stands for that
symbol (`Faithful.shaped`), which is why every repetition in the tree repeats a symbol.

Main statement: `Nfa.compile_accepts_iff`.
-/

namespace SeqPattern

namespace Layout

open Arena Build Computability

variable {ar ar' : Array State} {term : Symbol}

/-! ## Paths out of one state -/

/-- The paths from a state without a symbol edge: the empty one, and those that go on
from one of its epsilon targets. -/
theorem path_iff_of_no_edge {i k : Nat} {w : List Symbol} (h : (get ar i).edge = none) :
    Path ar term i w k ↔ (k = i ∧ w = []) ∨ ∃ j ∈ (get ar i).eps, Path ar term j w k := by
  constructor
  · intro hp
    cases hp with
    | refl => exact .inl ⟨rfl, rfl⟩
    | eps hij hjk => exact .inr ⟨_, hij, hjk⟩
    | sym hij _ => simp [State.step, h] at hij
  · rintro (⟨rfl, rfl⟩ | ⟨j, hj, hjk⟩)
    · exact .refl _
    · exact .eps hj hjk

/-- The paths from a state without an epsilon edge: the empty one, and those that take
its symbol edge first. -/
theorem path_iff_of_no_eps {i k : Nat} {w : List Symbol} (h : (get ar i).eps = #[]) :
    Path ar term i w k ↔ (k = i ∧ w = []) ∨
      ∃ x w' j, w = x :: w' ∧ (get ar i).step x term = some j ∧ Path ar term j w' k := by
  constructor
  · intro hp
    cases hp with
    | refl => exact .inl ⟨rfl, rfl⟩
    | eps hij _ => simp [EpsStep, h] at hij
    | sym hij hjk => exact .inr ⟨_, _, _, rfl, hij, hjk⟩
  · rintro (⟨rfl, rfl⟩ | ⟨x, w', j, rfl, hij, hjk⟩)
    · exact .refl _
    · exact .sym hij hjk

/-- The only path from a state without edges is the empty one. -/
theorem path_iff_of_quiet {i k : Nat} {w : List Symbol} (h : Quiet (get ar i)) :
    Path ar term i w k ↔ k = i ∧ w = [] := by
  constructor
  · exact path_of_quiet h.1 h.2
  · rintro ⟨rfl, rfl⟩
    exact .refl _

theorem step_mk {acc : Bool} {l : Symbol} {t : Nat} {eps : Array Nat} {x : Symbol} :
    State.step ⟨acc, some (l, t), eps⟩ x term = if l.accepts x term then some t else none := rfl

/-! ## Paths inside an owned interval -/

section Region

variable {lo hi : Nat} {g : Fragment}

theorem Owns.closed (hg : Owns ar lo hi g) :
    ∀ i, lo ≤ i ∧ i < hi → i ≠ g.exit → ∀ j, Targets (get ar i) j → lo ≤ j ∧ j < hi :=
  fun i hi' _ j hj => hg.within i hi'.1 hi'.2 j hj

/-- **Crossing an owned fragment.** Let `ar'` agree with `ar` on the interval of `g`,
except perhaps at `g`'s exit. A path of `ar'` from `g`'s entry to a state outside the
interval crosses `g` in `ar` first, then goes on from `g`'s exit in `ar'`. -/
theorem Owns.path_cross (hg : Owns ar lo hi g)
    (hsame : ∀ i, lo ≤ i ∧ i < hi → i ≠ g.exit → get ar' i = get ar i) {k : Nat}
    (hk : ¬ (lo ≤ k ∧ k < hi)) {w : List Symbol} :
    Path ar' term g.entry w k ↔
      ∃ u v, w = u ++ v ∧ Path ar term g.entry u g.exit ∧ Path ar' term g.exit v k := by
  constructor
  · intro h
    rcases Path.escape hsame hg.closed h hg.entry_mem with ⟨_, hk'⟩ | hcross
    · exact absurd hk' hk
    · exact hcross
  · rintro ⟨u, v, rfl, hu, hv⟩
    exact (Path.lift hsame hg.closed hg.exit_quiet hu hg.entry_mem).1.append hv

/-- A path of `ar` across an owned fragment is a path of every arena that agrees with
`ar` on the interval off the exit. -/
theorem Owns.path_lift (hg : Owns ar lo hi g)
    (hsame : ∀ i, lo ≤ i ∧ i < hi → i ≠ g.exit → get ar' i = get ar i) {w : List Symbol}
    (h : Path ar term g.entry w g.exit) : Path ar' term g.entry w g.exit :=
  (Path.lift hsame hg.closed hg.exit_quiet h hg.entry_mem).1

/-- An arena that agrees with `ar` on the whole interval has the same paths across the
fragment. -/
theorem Owns.path_iff (hg : Owns ar lo hi g) (hsame : ∀ i, lo ≤ i ∧ i < hi → get ar' i = get ar i)
    {w : List Symbol} : Path ar' term g.entry w g.exit ↔ Path ar term g.entry w g.exit := by
  have hsame' : ∀ i, lo ≤ i ∧ i < hi → i ≠ g.exit → get ar' i = get ar i :=
    fun i hi' _ => hsame i hi'
  constructor
  · intro h
    rcases Path.escape hsame' hg.closed h hg.entry_mem with ⟨hp, _⟩ | ⟨u, v, rfl, hu, hv⟩
    · exact hp
    · -- the exit has no edge in `ar'` either, so the path stops there
      have hq : Quiet (get ar' g.exit) := (hsame _ hg.exit_mem) ▸ hg.exit_quiet
      obtain ⟨-, rfl⟩ := path_of_quiet hq.1 hq.2 hv
      simpa using hu
  · exact hg.path_lift hsame'

/-- A fragment whose exit now has one epsilon edge, into a state `t` without edges
outside the interval: the paths of `ar'` from its entry to `t` are its old paths. -/
theorem Owns.path_cross_iff (hg : Owns ar lo hi g)
    (hsame : ∀ i, lo ≤ i ∧ i < hi → i ≠ g.exit → get ar' i = get ar i) {t : Nat}
    (hx : get ar' g.exit = ⟨false, none, #[t]⟩) (ht : Quiet (get ar' t)) (hk : ¬ (lo ≤ t ∧ t < hi))
    {w : List Symbol} : Path ar' term g.entry w t ↔ Path ar term g.entry w g.exit := by
  have hne : t ≠ g.exit := fun h => hk (h ▸ hg.exit_mem)
  rw [hg.path_cross hsame hk]
  constructor
  · rintro ⟨u, v, rfl, hu, hv⟩
    rw [path_iff_of_no_edge (by rw [hx]), hx] at hv
    rcases hv with ⟨h, -⟩ | ⟨j, hj, hv⟩
    · exact absurd h hne
    · simp only [List.mem_toArray, List.mem_singleton] at hj
      subst hj
      obtain ⟨-, rfl⟩ := (path_iff_of_quiet ht).mp hv
      simpa using hu
  · intro hu
    exact ⟨w, [], by simp, hu, .eps (by rw [EpsStep, hx]; simp) (.refl _)⟩

end Region

/-! ## Fragments that denote trees -/

/-- A fragment denotes a tree in an arena: whatever symbol the wildcard must refuse, the
sequences that its paths from entry to exit consume are the tree's language. -/
def Denotes (ar : Array State) (f : Fragment) (e : Regex) : Prop :=
  ∀ term w, Path ar term f.entry w f.exit ↔ w ∈ e.lang term

/-- What the compiler's stack keeps of each fragment and the tree it stands for: the
fragment denotes the tree, a fragment whose entry has one symbol edge straight to its
exit stands for that symbol, and every repetition in the tree repeats a symbol. -/
structure Faithful (ar : Array State) (f : Fragment) (e : Regex) : Prop where
  denotes : Denotes ar f e
  shaped : ∀ l, (get ar f.entry).edge = some (l, f.exit) → (get ar f.entry).eps = #[] →
    e = .sym l
  reps : e.repsOnSymbols = true

/-- A fragment keeps its tree in every arena that agrees on its interval. -/
theorem Faithful.frame {lo hi : Nat} {f : Fragment} {e : Regex} (hf : Faithful ar f e)
    (ho : Owns ar lo hi f) (hsame : ∀ i, lo ≤ i ∧ i < hi → get ar' i = get ar i) :
    Faithful ar' f e where
  denotes term w := (ho.path_iff hsame).trans (hf.denotes term w)
  shaped l := by
    rw [hsame _ ho.entry_mem]
    exact hf.shaped l
  reps := hf.reps

/-- The fragments below the top keep their trees when only states above them change. -/
theorem Tiling.faithful_frame {hi : Nat} {fs : List Fragment} {es : List Regex}
    (ht : Tiling ar hi fs) (hf : List.Forall₂ (Faithful ar) fs es)
    (hsame : ∀ i, i < hi → get ar' i = get ar i) : List.Forall₂ (Faithful ar') fs es := by
  induction ht generalizing es with
  | nil =>
    cases hf
    exact .nil
  | cons _ ho ih =>
    cases hf with
    | cons hfe hrest =>
      have := ho.lo_lt
      exact .cons (hfe.frame ho fun i hi' => hsame i hi'.2) (ih hrest fun i hi' => hsame i (by omega))

/-! ## Leaves -/

section Leaves

variable {cap : Option Nat} {f : Fragment}

theorem Faithful.symbol {label : Symbol} (h : (Build.symbol cap label).run ar = .ok f ar') :
    Faithful ar' f (.sym label) := by
  obtain ⟨rfl, -, hentry, hexit, -⟩ := symbol_spec h
  have hquiet : Quiet (get ar' (ar.size + 1)) := by
    rw [hexit]
    exact ⟨rfl, rfl⟩
  refine ⟨fun term w => ?_, fun l hl _ => ?_, rfl⟩
  · -- the entry's one symbol edge leads into the exit, where every path stops
    show Path ar' term ar.size w (ar.size + 1) ↔ _
    rw [path_iff_of_no_eps (by rw [hentry]), Regex.mem_lang_sym]
    constructor
    · rintro (⟨h, -⟩ | ⟨x, w', j, rfl, hstep, hpath⟩)
      · omega
      · rw [hentry, step_mk] at hstep
        split at hstep
        · cases hstep
          obtain ⟨-, rfl⟩ := (path_iff_of_quiet hquiet).mp hpath
          exact ⟨x, rfl, ‹_›⟩
        · cases hstep
    · rintro ⟨y, rfl, hy⟩
      exact .inr ⟨y, [], _, rfl, by rw [hentry, step_mk, if_pos hy], .refl _⟩
  · rw [hentry] at hl
    cases hl
    rfl

theorem Faithful.epsilon (h : (Build.epsilon cap).run ar = .ok f ar') :
    Faithful ar' f .eps := by
  obtain ⟨rfl, -, hentry, hexit, -⟩ := epsilon_spec h
  have hquiet : Quiet (get ar' (ar.size + 1)) := by
    rw [hexit]
    exact ⟨rfl, rfl⟩
  refine ⟨fun term w => ?_, fun l hl _ => ?_, rfl⟩
  · -- the entry's one epsilon edge leads into the exit
    show Path ar' term ar.size w (ar.size + 1) ↔ _
    rw [path_iff_of_no_edge (by rw [hentry]), Regex.lang, Language.mem_one, hentry]
    constructor
    · rintro (⟨h, -⟩ | ⟨j, hj, hpath⟩)
      · omega
      · simp only [List.mem_toArray, List.mem_singleton] at hj
        subst hj
        exact ((path_iff_of_quiet hquiet).mp hpath).2
    · rintro rfl
      exact .inr ⟨_, by simp, .refl _⟩
  · rw [hentry] at hl
    cases hl

theorem Faithful.charClass {ms : List Symbol} (h : (Build.charClass cap ms).run ar = .ok f ar') :
    Faithful ar' f (.cls ms) := by
  obtain ⟨rfl, -, hentry, hexit, hbranch, -⟩ := charClass_spec h
  have hquiet : Quiet (get ar' (ar.size + 1)) := by
    rw [hexit]
    exact ⟨rfl, rfl⟩
  -- a branch consumes one symbol that its member accepts, into the exit
  have hbranch_path : ∀ term t (ht : t < ms.length) w,
      Path ar' term (ar.size + 2 + t) w (ar.size + 1) ↔ ∃ y, w = [y] ∧ ms[t].accepts y term = true := by
    intro term t ht w
    rw [path_iff_of_no_eps (by rw [hbranch t ht])]
    constructor
    · rintro (⟨h, -⟩ | ⟨x, w', j, rfl, hstep, hpath⟩)
      · omega
      · rw [hbranch t ht, step_mk] at hstep
        split at hstep
        · cases hstep
          obtain ⟨-, rfl⟩ := (path_iff_of_quiet hquiet).mp hpath
          exact ⟨x, rfl, ‹_›⟩
        · cases hstep
    · rintro ⟨y, rfl, hy⟩
      exact .inr ⟨y, [], _, rfl, by rw [hbranch t ht, step_mk, if_pos hy], .refl _⟩
  refine ⟨fun term w => ?_, fun l hl _ => ?_, rfl⟩
  · show Path ar' term ar.size w (ar.size + 1) ↔ _
    rw [path_iff_of_no_edge (by rw [hentry]), Regex.mem_lang_cls, hentry]
    simp only [List.mem_toArray, List.mem_map, List.mem_range]
    constructor
    · rintro (⟨h, -⟩ | ⟨_, ⟨t, ht, rfl⟩, hpath⟩)
      · omega
      · obtain ⟨y, rfl, hy⟩ := (hbranch_path term t ht w).mp hpath
        exact ⟨y, rfl, ms[t], List.getElem_mem ht, hy⟩
    · rintro ⟨y, rfl, m, hm, hy⟩
      obtain ⟨t, ht, rfl⟩ := List.getElem_of_mem hm
      exact .inr ⟨_, ⟨t, ht, rfl⟩, (hbranch_path term t ht [y]).mpr ⟨y, rfl, hy⟩⟩
  · rw [hentry] at hl
    cases hl

end Leaves

/-! ## Composites -/

section Composites

variable {cap : Option Nat} {f : Fragment} {fs : List Fragment}

theorem Faithful.concat {l r : Fragment} {el er : Regex} (ht : Tiling ar ar.size (r :: l :: fs))
    (hl : Faithful ar l el) (hr : Faithful ar r er) (h : (Build.concat l r).run ar = .ok f ar') :
    Faithful ar' f (.cat el er) := by
  obtain ⟨lo, m, -, hol, hor⟩ := ht.of_cons_cons
  have := hol.entry_mem
  have := hol.exit_mem
  have := hor.entry_mem
  have := hor.exit_mem
  obtain ⟨rfl, -, hlx, hsame⟩ := concat_run h (show l.exit < ar.size by omega)
  have hlx' : get ar' l.exit = ⟨false, none, #[r.entry]⟩ := by
    rw [hlx, hol.exit_quiet.1, hol.exit_quiet.2]
    rfl
  refine ⟨fun term w => ?_, fun lab hedge _ => ?_, by simp [Regex.repsOnSymbols, hl.reps, hr.reps]⟩
  · -- across the first fragment, over the new edge, and across the second
    show Path ar' term l.entry w r.exit ↔ _
    rw [hol.path_cross (fun i _ hi => hsame i hi) (by omega), Regex.lang, Language.mem_mul]
    have hsecond : ∀ v, Path ar' term l.exit v r.exit ↔ v ∈ er.lang term := by
      intro v
      rw [path_iff_of_no_edge (by rw [hlx']), hlx', ← hr.denotes term v,
        ← hor.path_iff fun i hi => hsame i (by omega)]
      simp only [List.mem_toArray, List.mem_singleton, exists_eq_left]
      constructor
      · rintro (⟨h, -⟩ | hv)
        · omega
        · exact hv
      · exact .inr
    constructor
    · rintro ⟨u, v, rfl, hu, hv⟩
      exact ⟨u, (hl.denotes term u).mp hu, v, (hsecond v).mp hv, rfl⟩
    · rintro ⟨u, hu, v, hv, rfl⟩
      exact ⟨u, v, rfl, (hl.denotes term u).mpr hu, (hsecond v).mpr hv⟩
  · -- the entry's symbol edge stays in the first interval, or it is gone
    by_cases he : l.entry = l.exit
    · rw [he, hlx'] at hedge
      cases hedge
    · rw [hsame _ he] at hedge
      have := hol.within _ hol.entry_mem.1 hol.entry_mem.2 r.exit (.inr ⟨lab, hedge⟩)
      omega

theorem Faithful.union {l r : Fragment} {el er : Regex} (ht : Tiling ar ar.size (r :: l :: fs))
    (hl : Faithful ar l el) (hr : Faithful ar r er) (h : (Build.union cap l r).run ar = .ok f ar') :
    Faithful ar' f (.alt el er) := by
  obtain ⟨lo, m, -, hol, hor⟩ := ht.of_cons_cons
  have := hol.entry_mem
  have := hol.exit_mem
  have := hor.entry_mem
  have := hor.exit_mem
  obtain ⟨rfl, -, hentry, hexit, hlx, hrx, hframe⟩ := union_spec h (by omega) (by omega) (by omega)
  have hquiet : Quiet (get ar' (ar.size + 1)) := by
    rw [hexit]
    exact ⟨rfl, rfl⟩
  have hlx' : get ar' l.exit = ⟨false, none, #[ar.size + 1]⟩ := by
    rw [hlx, hol.exit_quiet.1, hol.exit_quiet.2]
    rfl
  have hrx' : get ar' r.exit = ⟨false, none, #[ar.size + 1]⟩ := by
    rw [hrx, hor.exit_quiet.1, hor.exit_quiet.2]
    rfl
  refine ⟨fun term w => ?_, fun lab hedge _ => ?_, by simp [Regex.repsOnSymbols, hl.reps, hr.reps]⟩
  · -- the new entry leads into either fragment, whose exit leads to the new exit
    show Path ar' term ar.size w (ar.size + 1) ↔ _
    rw [path_iff_of_no_edge (by rw [hentry]), hentry, Regex.lang, Language.mem_add,
      ← hl.denotes term w, ← hr.denotes term w,
      ← hol.path_cross_iff (fun i hi hix => hframe i (by omega) hix (by omega)) hlx' hquiet (by omega),
      ← hor.path_cross_iff (fun i hi hix => hframe i (by omega) (by omega) hix) hrx' hquiet (by omega)]
    simp only [List.mem_toArray, List.mem_cons, List.not_mem_nil, or_false, exists_eq_or_imp,
      exists_eq_left]
    constructor
    · rintro (⟨h, -⟩ | hw)
      · omega
      · exact hw
    · exact .inr
  · rw [hentry] at hedge
    cases hedge

theorem Faithful.optional {a : Fragment} {e : Regex} (ht : Tiling ar ar.size (a :: fs))
    (ha : Faithful ar a e) (h : (Build.optional cap a).run ar = .ok f ar') :
    Faithful ar' f (.opt e) := by
  obtain ⟨lo, -, hoa⟩ := ht.of_cons
  have := hoa.entry_mem
  have := hoa.exit_mem
  obtain ⟨rfl, -, hentry, hexit, hax, hframe⟩ := optional_spec h (by omega)
  have hquiet : Quiet (get ar' (ar.size + 1)) := by
    rw [hexit]
    exact ⟨rfl, rfl⟩
  have hax' : get ar' a.exit = ⟨false, none, #[ar.size + 1]⟩ := by
    rw [hax, hoa.exit_quiet.1, hoa.exit_quiet.2]
    rfl
  refine ⟨fun term w => ?_, fun lab hedge _ => ?_, by simp [Regex.repsOnSymbols, ha.reps]⟩
  · -- the new entry skips to the new exit, or crosses the fragment
    show Path ar' term ar.size w (ar.size + 1) ↔ _
    rw [path_iff_of_no_edge (by rw [hentry]), hentry, Regex.lang, Language.mem_add,
      Language.mem_one, ← ha.denotes term w,
      ← hoa.path_cross_iff (fun i hi hix => hframe i (by omega) hix) hax' hquiet (by omega)]
    simp only [List.mem_toArray, List.mem_cons, List.not_mem_nil, or_false, exists_eq_or_imp,
      exists_eq_left, path_iff_of_quiet hquiet, true_and]
    constructor
    · rintro (⟨h, -⟩ | hw)
      · omega
      · exact hw
    · exact .inr
  · rw [hentry] at hedge
    cases hedge

end Composites

/-! ## Loops -/

section Loops

variable {lo n : Nat} {a : Fragment} {e : Regex}

/-- One match followed by a sequence of matches is a sequence of matches. -/
theorem append_mem_kstar {l : Language Symbol} {u v : List Symbol} (hu : u ∈ l) (hv : v ∈ l∗) :
    u ++ v ∈ l∗ := by
  obtain ⟨L, rfl, hL⟩ := Language.mem_kstar.mp hv
  refine Language.mem_kstar.mpr ⟨u :: L, rfl, fun y hy => ?_⟩
  rcases List.mem_cons.mp hy with rfl | hy
  · exact hu
  · exact hL y hy

/-- **The paths through a loop.** Let `a` own `[lo, n)` in `ar` and denote `e`, and let
`ar'` keep that interval except at `a`'s exit, which now has no symbol edge and epsilon
edges only to the new exit `n + 1`, back to `a`'s entry, or to `n`. Let `n` have no
symbol edge and epsilon edges only to `n + 1` and to `a`'s entry, and let `n + 1` have
no edge. A path of `ar'` into `n + 1` from the interval first reaches `a`'s exit by a
path of `ar`, then consumes a sequence of matches of `e`; a path from `n` consumes a
sequence of matches of `e`.

The induction is on the path itself, not on its length: a body that matches the empty
sequence closes a cycle that consumes nothing. -/
theorem loop_paths (hoa : Owns ar lo n a) (hd : Denotes ar a e)
    (hsame : ∀ i, lo ≤ i ∧ i < n → i ≠ a.exit → get ar' i = get ar i)
    (hxedge : (get ar' a.exit).edge = none)
    (hxeps : ∀ j ∈ (get ar' a.exit).eps, j = n + 1 ∨ j = a.entry ∨ j = n)
    (hnedge : (get ar' n).edge = none) (hneps : ∀ j ∈ (get ar' n).eps, j = n + 1 ∨ j = a.entry)
    (hquiet : Quiet (get ar' (n + 1))) {i k : Nat} {w : List Symbol}
    (h : Path ar' term i w k) (hk : k = n + 1) :
    (lo ≤ i ∧ i < n → ∃ u v, w = u ++ v ∧ Path ar term i u a.exit ∧ v ∈ (e.lang term)∗) ∧
      (i = n → w ∈ (e.lang term)∗) := by
  have hlt := hoa.lo_lt
  induction h with
  | refl =>
    subst hk
    exact ⟨fun h => absurd h.2 (by omega), fun h => absurd h (by omega)⟩
  | @eps i j k w hij hjk ih =>
    have ih := ih hk
    -- a path that enters `n + 1` stops there
    have hstop : j = n + 1 → w = [] := fun hj => by
      subst hj
      exact ((path_iff_of_quiet hquiet).mp hjk).2
    -- a return to the body's entry brings one more match of the body
    have hagain : j = a.entry → w ∈ (e.lang term)∗ := fun hj => by
      subst hj
      obtain ⟨u, v, rfl, hu, hv⟩ := ih.1 hoa.entry_mem
      exact append_mem_kstar ((hd term u).mp hu) hv
    refine ⟨fun hi => ?_, fun hin => ?_⟩
    · by_cases hix : i = a.exit
      · subst hix
        refine ⟨[], w, rfl, .refl _, ?_⟩
        rcases hxeps j hij with hj | hj | hj
        · rw [hstop hj]
          exact Language.nil_mem_kstar _
        · exact hagain hj
        · exact ih.2 hj
      · have hij' : EpsStep ar i j := by rwa [EpsStep, ← hsame i hi hix]
        obtain ⟨u, v, rfl, hu, hv⟩ := ih.1 (hoa.closed i hi hix j (targets_of_epsStep hij'))
        exact ⟨u, v, rfl, .eps hij' hu, hv⟩
    · subst hin
      rcases hneps j hij with hj | hj
      · rw [hstop hj]
        exact Language.nil_mem_kstar _
      · exact hagain hj
  | @sym i j k x w hij hjk ih =>
    have ih := ih hk
    refine ⟨fun hi => ?_, fun hin => ?_⟩
    · have hix : i ≠ a.exit := by
        rintro rfl
        simp [State.step, hxedge] at hij
      have hij' : (get ar i).step x term = some j := by rwa [← hsame i hi hix]
      obtain ⟨u, v, rfl, hu, hv⟩ := ih.1 (hoa.closed i hi hix j (targets_of_step hij'))
      exact ⟨x :: u, v, rfl, .sym hij' hu, hv⟩
    · subst hin
      simp [State.step, hnedge] at hij

/-- Conversely, from the body's exit, a loop that leads back to the body's entry and
on to the new exit consumes any sequence of matches of the body. -/
theorem loop_path_of_mem_kstar (hoa : Owns ar lo n a) (hd : Denotes ar a e)
    (hsame : ∀ i, lo ≤ i ∧ i < n → i ≠ a.exit → get ar' i = get ar i)
    (hback : a.entry ∈ (get ar' a.exit).eps) (hout : n + 1 ∈ (get ar' a.exit).eps)
    {v : List Symbol} (hv : v ∈ (e.lang term)∗) : Path ar' term a.exit v (n + 1) := by
  obtain ⟨L, rfl, hL⟩ := Language.mem_kstar.mp hv
  clear hv
  induction L with
  | nil => exact .eps hout (.refl _)
  | cons y L ih =>
    have hy := hoa.path_lift hsame ((hd term y).mpr (hL y List.mem_cons_self))
    exact .eps hback (hy.append (ih fun z hz => hL z (List.mem_cons_of_mem _ hz)))

variable {cap : Option Nat} {f : Fragment} {fs : List Fragment}

theorem Faithful.closure (ht : Tiling ar ar.size (a :: fs)) (ha : Faithful ar a e)
    (h : (Build.closure cap a).run ar = .ok f ar') : Faithful ar' f (.star e) := by
  obtain ⟨lo, -, hoa⟩ := ht.of_cons
  have := hoa.entry_mem
  have := hoa.exit_mem
  obtain ⟨rfl, -, hentry, hexit, hax, hframe⟩ := closure_spec h (by omega)
  have hquiet : Quiet (get ar' (ar.size + 1)) := by
    rw [hexit]
    exact ⟨rfl, rfl⟩
  have hax' : get ar' a.exit = ⟨false, none, #[ar.size + 1, a.entry]⟩ := by
    rw [hax, hoa.exit_quiet.1, hoa.exit_quiet.2]
    rfl
  have hsame : ∀ i, lo ≤ i ∧ i < ar.size → i ≠ a.exit → get ar' i = get ar i :=
    fun i hi hix => hframe i hi.2 hix
  have hxeps : ∀ j ∈ (get ar' a.exit).eps, j = ar.size + 1 ∨ j = a.entry ∨ j = ar.size := by
    intro j hj
    rw [hax'] at hj
    simp only [List.mem_toArray, List.mem_cons, List.not_mem_nil, or_false] at hj
    omega
  have hneps : ∀ j ∈ (get ar' ar.size).eps, j = ar.size + 1 ∨ j = a.entry := by
    intro j hj
    rw [hentry] at hj
    simpa using hj
  refine ⟨fun term w => ?_, fun lab hedge _ => ?_, by simp [Regex.repsOnSymbols, ha.reps]⟩
  · show Path ar' term ar.size w (ar.size + 1) ↔ _
    rw [Regex.lang]
    constructor
    · intro hw
      exact (loop_paths hoa ha.denotes hsame (by rw [hax']) hxeps (by rw [hentry]) hneps hquiet
        hw rfl).2 rfl
    · intro hw
      -- the empty sequence skips the body; any other match enters it first
      obtain ⟨L, rfl, hL⟩ := Language.mem_kstar.mp hw
      cases L with
      | nil => exact .eps (by rw [EpsStep, hentry]; simp) (.refl _)
      | cons y L =>
        have hy := hoa.path_lift hsame ((ha.denotes term y).mpr (hL y List.mem_cons_self))
        have hrest := loop_path_of_mem_kstar hoa ha.denotes hsame (by rw [hax']; simp)
          (by rw [hax']; simp) (Language.join_mem_kstar fun z hz => hL z (List.mem_cons_of_mem _ hz))
        exact .eps (by rw [EpsStep, hentry]; simp) (hy.append hrest)
  · rw [hentry] at hedge
    cases hedge

theorem Faithful.oneOrMore (ht : Tiling ar ar.size (a :: fs)) (ha : Faithful ar a e)
    (h : (Build.oneOrMore cap a).run ar = .ok f ar') : Faithful ar' f (.plus e) := by
  obtain ⟨lo, -, hoa⟩ := ht.of_cons
  have := hoa.entry_mem
  have := hoa.exit_mem
  obtain ⟨rfl, -, hentry, hexit, hax, hframe⟩ := oneOrMore_spec h (by omega)
  have hquiet : Quiet (get ar' (ar.size + 1)) := by
    rw [hexit]
    exact ⟨rfl, rfl⟩
  have hax' : get ar' a.exit = ⟨false, none, #[ar.size + 1, a.entry, ar.size]⟩ := by
    rw [hax, hoa.exit_quiet.1, hoa.exit_quiet.2]
    rfl
  have hsame : ∀ i, lo ≤ i ∧ i < ar.size → i ≠ a.exit → get ar' i = get ar i :=
    fun i hi hix => hframe i hi.2 hix
  have hxeps : ∀ j ∈ (get ar' a.exit).eps, j = ar.size + 1 ∨ j = a.entry ∨ j = ar.size := by
    intro j hj
    rw [hax'] at hj
    simpa using hj
  have hneps : ∀ j ∈ (get ar' ar.size).eps, j = ar.size + 1 ∨ j = a.entry := by
    intro j hj
    rw [hentry] at hj
    simpa using hj
  refine ⟨fun term w => ?_, fun lab hedge _ => ?_, by simp [Regex.repsOnSymbols, ha.reps]⟩
  · show Path ar' term a.entry w (ar.size + 1) ↔ _
    rw [Regex.lang, Language.mem_mul]
    constructor
    · intro hw
      obtain ⟨u, v, rfl, hu, hv⟩ := (loop_paths hoa ha.denotes hsame (by rw [hax']) hxeps
        (by rw [hentry]) hneps hquiet hw rfl).1 hoa.entry_mem
      exact ⟨u, (ha.denotes term u).mp hu, v, hv, rfl⟩
    · rintro ⟨u, hu, v, hv, rfl⟩
      exact (hoa.path_lift hsame ((ha.denotes term u).mpr hu)).append
        (loop_path_of_mem_kstar hoa ha.denotes hsame (by rw [hax']; simp) (by rw [hax']; simp) hv)
  · -- the entry's symbol edge stays in the body's interval, or it is gone
    by_cases he : a.entry = a.exit
    · rw [he, hax'] at hedge
      cases hedge
    · rw [hframe _ (by omega) he] at hedge
      have := hoa.within _ hoa.entry_mem.1 hoa.entry_mem.2 (ar.size + 1) (.inr ⟨lab, hedge⟩)
      omega

end Loops

/-! ## Chains -/

section Chains

variable {a : Fragment} {n min max : Nat} {label : Symbol}

/-- **The paths along a chain.** Let the links `chainLink a n j`, `j ≤ max`, of `ar'`
each have a symbol edge over `label` to the next link, but for the last one, and, from
the `min`-th link on, one epsilon edge into `n`, which has no edge. A path into `n`
from link `j` consumes `t` matches of `label` for some `t` with `min ≤ j + t ≤ max`. -/
theorem chain_paths
    (hedge : ∀ j, j ≤ max → (get ar' (chainLink a n j)).edge =
      if j < max then some (label, chainLink a n (j + 1)) else none)
    (heps : ∀ j, j ≤ max → (get ar' (chainLink a n j)).eps = if min ≤ j then #[n] else #[])
    (hne : ∀ j, chainLink a n j ≠ n) (hquiet : Quiet (get ar' n))
    {i k : Nat} {w : List Symbol} (h : Path ar' term i w k) (hk : k = n) :
    ∀ j, j ≤ max → i = chainLink a n j →
      ∃ t, min ≤ j + t ∧ j + t ≤ max ∧ w ∈ (Regex.sym label).lang term ^ t := by
  induction h with
  | refl =>
    intro j _ hij
    exact absurd (hij.symm.trans hk) (hne j)
  | @eps i i' k w hii' hrest _ =>
    intro j hj hij
    subst hij hk
    rw [EpsStep, heps j hj] at hii'
    split at hii'
    · -- the epsilon edge into `n` ends the path
      simp only [List.mem_toArray, List.mem_singleton] at hii'
      subst hii'
      obtain ⟨-, rfl⟩ := (path_iff_of_quiet hquiet).mp hrest
      exact ⟨0, by omega, by omega, by simp⟩
    · simp at hii'
  | @sym i i' k x w hii' _ ih =>
    intro j hj hij
    subst hij
    by_cases hlt : j < max
    · simp only [State.step, hedge j hj, if_pos hlt, Option.ite_none_right_eq_some,
        Option.some.injEq] at hii'
      obtain ⟨hx, rfl⟩ := hii'
      obtain ⟨t, h₁, h₂, hw⟩ := ih hk (j + 1) (by omega) rfl
      refine ⟨t + 1, by omega, by omega, ?_⟩
      rw [pow_succ', Language.mem_mul]
      exact ⟨[x], ⟨x, rfl, hx⟩, w, hw, rfl⟩
    · simp [State.step, hedge j hj, hlt] at hii'

/-- Conversely, `t` matches of `label` lead from link `j` into `n` when
`min ≤ j + t ≤ max`. -/
theorem chain_path_of_mem_pow
    (hedge : ∀ j, j ≤ max → (get ar' (chainLink a n j)).edge =
      if j < max then some (label, chainLink a n (j + 1)) else none)
    (heps : ∀ j, j ≤ max → (get ar' (chainLink a n j)).eps = if min ≤ j then #[n] else #[])
    (t : Nat) : ∀ j, min ≤ j + t → j + t ≤ max → ∀ w, w ∈ (Regex.sym label).lang term ^ t →
      Path ar' term (chainLink a n j) w n := by
  induction t with
  | zero =>
    intro j hmin hmax w hw
    rw [pow_zero, Language.mem_one] at hw
    subst hw
    exact .eps (by rw [EpsStep, heps j (by omega), if_pos (by omega)]; simp) (.refl _)
  | succ t ih =>
    intro j hmin hmax w hw
    rw [pow_succ', Language.mem_mul] at hw
    obtain ⟨_, ⟨y, rfl, hy⟩, v, hv, rfl⟩ := hw
    refine .sym ?_ (ih (j + 1) (by omega) (by omega) v hv)
    simp only [State.step, hedge j (by omega), if_pos (show j < max by omega), hy, if_true]

variable {cap : Option Nat} {f : Fragment} {fs : List Fragment} {e : Regex}

theorem Faithful.boundedRepeat (ht : Tiling ar ar.size (a :: fs)) (ha : Faithful ar a e)
    (h : (Build.boundedRepeat cap a min max).run ar = .ok f ar') :
    Faithful ar' f (.rep min max e) := by
  obtain ⟨lo, -, hoa⟩ := ht.of_cons
  obtain ⟨label, -, -, hedge, heps, -, rfl, -, hexit, hlink, -, -⟩ :=
    boundedRepeat_spec h hoa.exit_mem.2
  -- only a fragment of one symbol passes the test, and it stands for that symbol
  obtain rfl : e = .sym label := ha.shaped label hedge heps
  have hquiet : Quiet (get ar' ar.size) := by
    rw [hexit]
    exact ⟨rfl, rfl⟩
  have hne : ∀ j, chainLink a ar.size j ≠ ar.size :=
    fun j => chainLink_ne j hoa.entry_mem.2 hoa.exit_mem.2
  have hedge' : ∀ j, j ≤ max → (get ar' (chainLink a ar.size j)).edge =
      if j < max then some (label, chainLink a ar.size (j + 1)) else none :=
    fun j hj => by rw [hlink j hj]
  have heps' : ∀ j, j ≤ max → (get ar' (chainLink a ar.size j)).eps =
      if min ≤ j then #[ar.size] else #[] :=
    fun j hj => by rw [hlink j hj]
  refine ⟨fun term w => ?_, fun lab hl _ => ?_, rfl⟩
  · show Path ar' term (chainLink a ar.size 0) w ar.size ↔ _
    rw [Regex.mem_lang_rep]
    constructor
    · intro hw
      obtain ⟨t, h₁, h₂, hw⟩ := chain_paths hedge' heps' hne hquiet hw rfl 0 (Nat.zero_le _) rfl
      exact ⟨t, by omega, by omega, hw⟩
    · rintro ⟨t, h₁, h₂, hw⟩
      exact chain_path_of_mem_pow hedge' heps' t 0 (by omega) (by omega) w hw
  · -- the entry's symbol edge leads to the second link, never to the new exit
    change (get ar' (chainLink a ar.size 0)).edge = _ at hl
    rw [hedge' 0 (Nat.zero_le _)] at hl
    split at hl
    · simp only [Option.some.injEq, Prod.mk.injEq] at hl
      exact absurd hl.2 (hne 1)
    · cases hl

end Chains

/-! ## The compiler's loop, on fragments and on trees -/

section Loop

variable {cap : Option Nat}

/-- The fragments below a combinator's one operand keep their trees when it changes only
its operand's entry and exit and appends new states. -/
theorem Tiling.faithful_below_one {a : Fragment} {fs : List Fragment} {es : List Regex}
    (ht : Tiling ar ar.size (a :: fs)) (hf : List.Forall₂ (Faithful ar) fs es)
    (hsame : ∀ i, i < ar.size → i ≠ a.entry → i ≠ a.exit → get ar' i = get ar i) :
    List.Forall₂ (Faithful ar') fs es := by
  obtain ⟨lo, hrest, hoa⟩ := ht.of_cons
  have := hoa.entry_mem
  have := hoa.exit_mem
  exact hrest.faithful_frame hf fun i hi => hsame i (by omega) (by omega) (by omega)

/-- The same below two operands, whose exits alone may change. -/
theorem Tiling.faithful_below_two {l r : Fragment} {fs : List Fragment} {es : List Regex}
    (ht : Tiling ar ar.size (r :: l :: fs)) (hf : List.Forall₂ (Faithful ar) fs es)
    (hsame : ∀ i, i < ar.size → i ≠ l.exit → i ≠ r.exit → get ar' i = get ar i) :
    List.Forall₂ (Faithful ar') fs es := by
  obtain ⟨lo, m, hrest, hol, hor⟩ := ht.of_cons_cons
  have := hol.exit_mem
  have := hor.exit_mem
  have := hor.lo_lt
  exact hrest.faithful_frame hf fun i hi => hsame i (by omega) (by omega) (by omega)

theorem Tiling.exit_lt {a : Fragment} {fs : List Fragment} (ht : Tiling ar ar.size (a :: fs)) :
    a.exit < ar.size := by
  obtain ⟨_, _, hoa⟩ := ht.of_cons
  exact hoa.exit_mem.2

theorem Tiling.exits_lt {l r : Fragment} {fs : List Fragment} (ht : Tiling ar ar.size (r :: l :: fs)) :
    l.exit < ar.size ∧ r.exit < ar.size ∧ l.exit ≠ r.exit := by
  obtain ⟨_, m, _, hol, hor⟩ := ht.of_cons_cons
  have := hol.exit_mem
  have := hor.exit_mem
  omega

/-- **One token keeps the trees.** Let the compiler's stack tile the arena and its
fragments stand for a stack of trees. If the compiler accepts a token, evaluation on
trees accepts it too, and the new fragments stand for the new trees. -/
theorem Faithful.applyToken {t : Token} {fs fs' : List Fragment} {es : List Regex}
    (ht : Tiling ar ar.size fs) (hf : List.Forall₂ (Faithful ar) fs es)
    (h : (Build.applyToken cap t fs).run ar = .ok fs' ar') :
    ∃ es', Regex.pushToken t es = some es' ∧ List.Forall₂ (Faithful ar') fs' es' := by
  cases Build.TokenRun.of_applyToken h with
  | operand hrun =>
    obtain ⟨-, -, -, -, hframe⟩ := symbol_spec hrun
    exact ⟨_, rfl, .cons (.symbol hrun) (ht.faithful_frame hf hframe)⟩
  | charClass hrun =>
    obtain ⟨-, -, -, -, -, hframe⟩ := charClass_spec hrun
    exact ⟨_, rfl, .cons (.charClass hrun) (ht.faithful_frame hf hframe)⟩
  | alt hrun =>
    obtain ⟨hl, hr, hlr⟩ := ht.exits_lt
    obtain ⟨-, -, -, -, -, -, hframe⟩ := union_spec hrun hl hr hlr
    cases hf with
    | cons hfr hf =>
      cases hf with
      | cons hfl hrest =>
        exact ⟨_, rfl, .cons (.union ht hfl hfr hrun) (ht.faithful_below_two hrest hframe)⟩
  | cat hrun =>
    obtain ⟨-, -, -, hframe⟩ := concat_run hrun ht.exits_lt.1
    cases hf with
    | cons hfr hf =>
      cases hf with
      | cons hfl hrest =>
        exact ⟨_, rfl, .cons (.concat ht hfl hfr hrun)
          (ht.faithful_below_two hrest fun i _ hi _ => hframe i hi)⟩
  | opt hrun =>
    obtain ⟨-, -, -, -, -, hframe⟩ := optional_spec hrun ht.exit_lt
    cases hf with
    | cons hfa hrest =>
      exact ⟨_, rfl, .cons (.optional ht hfa hrun)
        (ht.faithful_below_one hrest fun i hi _ hix => hframe i hi hix)⟩
  | star hrun =>
    obtain ⟨-, -, -, -, -, hframe⟩ := closure_spec hrun ht.exit_lt
    cases hf with
    | cons hfa hrest =>
      exact ⟨_, rfl, .cons (.closure ht hfa hrun)
        (ht.faithful_below_one hrest fun i hi _ hix => hframe i hi hix)⟩
  | plus hrun =>
    obtain ⟨-, -, -, -, -, hframe⟩ := oneOrMore_spec hrun ht.exit_lt
    cases hf with
    | cons hfa hrest =>
      exact ⟨_, rfl, .cons (.oneOrMore ht hfa hrun)
        (ht.faithful_below_one hrest fun i hi _ hix => hframe i hi hix)⟩
  | rep hrun =>
    obtain ⟨_, -, -, -, -, -, -, -, -, -, -, hframe⟩ := boundedRepeat_spec hrun ht.exit_lt
    cases hf with
    | cons hfa hrest =>
      exact ⟨_, rfl, .cons (.boundedRepeat ht hfa hrun) (ht.faithful_below_one hrest hframe)⟩

/-- **Every run of the loop keeps the trees**, by induction on the stream. -/
theorem Faithful.applyTokens (ts : List Token) :
    ∀ {ar ar' : Array State} {fs fs' : List Fragment} {es : List Regex},
      Tiling ar ar.size fs → List.Forall₂ (Faithful ar) fs es →
      (Build.applyTokens cap ts fs).run ar = .ok fs' ar' →
      ∃ es', Regex.evalRpn ts es = some es' ∧ List.Forall₂ (Faithful ar') fs' es' := by
  induction ts with
  | nil =>
    intro ar ar' fs fs' es _ hf h
    simp only [Build.applyTokens, EStateM.run_pure, EStateM.Result.ok.injEq] at h
    obtain ⟨rfl, rfl⟩ := h
    exact ⟨es, rfl, hf⟩
  | cons t ts ih =>
    intro ar ar' fs fs' es ht hf h
    simp only [Build.applyTokens, run_bind_eq_ok] at h
    obtain ⟨mid, ar₁, hstep, hrest⟩ := h
    obtain ⟨es₁, hpush, hf₁⟩ := Faithful.applyToken ht hf hstep
    obtain ⟨es', heval, hf'⟩ := ih (ht.applyToken hstep) hf₁ hrest
    exact ⟨es', by simp [Regex.evalRpn, hpush, heval], hf'⟩

end Loop

end Layout

namespace Nfa

open Arena Layout

variable {cap : Option Nat}

/-- A successful compilation evaluates the stream on trees too, to one tree, and the
automaton's start and exit are those of a fragment that owns the whole arena and
stands for that tree. -/
theorem faithful_of_compileWith {ts : List Token} {a : Nfa} (h : compileWith cap ts = .ok a) :
    ∃ e, Regex.ofRpn ts = some e ∧ Owns a.states 0 a.states.size ⟨a.start, a.exit⟩ ∧
      Faithful a.states ⟨a.start, a.exit⟩ e := by
  unfold compileWith construct at h
  cases ts with
  | nil =>
    dsimp only at h
    split at h
    · rename_i f ar hrun
      cases h
      obtain ⟨lo, hnil, hown⟩ := (Tiling.nil.epsilon hrun).of_cons
      cases hnil
      exact ⟨.eps, rfl, hown, Faithful.epsilon hrun⟩
    · cases h
  | cons t ts =>
    dsimp only at h
    split at h
    · rename_i f ar hrun
      cases h
      simp only [Build.run_bind_eq_ok] at hrun
      obtain ⟨stack, ar₁, hstack, hlast⟩ := hrun
      have ht := Tiling.applyTokens (t :: ts) Tiling.nil hstack
      obtain ⟨es, heval, hf⟩ := Faithful.applyTokens (t :: ts) Tiling.nil .nil hstack
      split at hlast
      · simp only [EStateM.run_pure, EStateM.Result.ok.injEq] at hlast
        obtain ⟨rfl, rfl⟩ := hlast
        obtain ⟨lo, hnil, hown⟩ := ht.of_cons
        cases hnil
        obtain ⟨e, rfl⟩ : ∃ e, es = [e] := by
          cases hf with
          | cons _ hrest =>
            cases hrest
            exact ⟨_, rfl⟩
        exact ⟨e, by simp [Regex.ofRpn, heval], hown, List.forall₂_cons.mp hf |>.1⟩
      · cases hlast
    · cases h

/-- **The compiled automaton matches the pattern's language.** When the compiler accepts
a reverse Polish stream, evaluating the stream on a stack of trees leaves one tree (the
empty expression for the empty stream), every repetition in it repeats a single symbol,
and the automaton accepts exactly the sequences of that tree's language, the wildcard
refusing the default terminator. -/
theorem compile_accepts_iff {ts : List Token} {a : Nfa} (h : compile ts = .ok a) :
    ∃ e, Regex.ofRpn ts = some e ∧ e.repsOnSymbols = true ∧
      ∀ s, a.accepts s = true ↔ s ∈ e.lang .stop := by
  obtain ⟨e, he, hown, hf⟩ := faithful_of_compileWith h
  have hsingle : a.SingleExit := singleExit_ofFragment hown
  refine ⟨e, he, hf.reps, fun s => ?_⟩
  rw [accepts_iff_path, ← hf.denotes .stop s]
  constructor
  · rintro ⟨j, hp, hacc⟩
    rwa [(hsingle.accepting_iff j).mp hacc] at hp
  · intro hp
    exact ⟨a.exit, hp, (hsingle.accepting_iff _).mpr rfl⟩

/-- The pattern `a{1,2}.*` in reverse Polish form compiles, to an automaton of its
language. -/
theorem accepts_iff_lang_repeat_then_wildcards :
    ∃ a, compile [.operand (.char 'a'), .rep 1 2, .operand .wildcard, .star, .cat] = .ok a ∧
      ∃ e, Regex.ofRpn [.operand (.char 'a'), .rep 1 2, .operand .wildcard, .star, .cat] = some e ∧
        e.repsOnSymbols = true ∧ ∀ s, a.accepts s = true ↔ s ∈ e.lang .stop :=
  ⟨_, rfl, compile_accepts_iff rfl⟩

end Nfa

end SeqPattern
