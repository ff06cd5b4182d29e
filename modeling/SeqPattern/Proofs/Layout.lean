import SeqPattern.Automaton.Compile
import SeqPattern.Proofs.BuildRuns
/-!
# How the compiler lays out its arena

The compiler evaluates a reverse Polish stream on a stack of fragments over one
growing arena. This file proves the invariant that keeps that evaluation sound: from
the bottom of the stack up, the fragments own consecutive intervals of the arena, and
these intervals cover it. A fragment owns its interval when its entry and exit lie in
it, every edge of a state of the interval stays in the interval, the exit has no edge,
and the exit is the only accepting state of the interval.

Every combinator appends its new states at the end of the arena, so its result owns
the union of the intervals it consumed and the states it appended. Inside the old
intervals it changes only old exits, which it demotes and links onward, and, for a
bounded repetition, the old entry. One lemma per combinator keeps the invariant, one
lemma per token puts them together (`Tiling.applyToken`), and induction over the
stream carries it through every run of the compiler's loop (`Tiling.applyTokens`).

For the automaton as a whole this gives `Nfa.SingleExit`: every edge stays in the
arena, and the exit is the one accepting state and has no edge.
-/

namespace SeqPattern

namespace Layout

open Arena Build

/-! ## Owned intervals -/

/-- Every edge of a state leads into the interval `[lo, hi)`. -/
def Within (lo hi : Nat) (s : State) : Prop := ∀ j, Targets s j → lo ≤ j ∧ j < hi

section Within

variable {lo hi : Nat}

@[simp] theorem within_mk {acc : Bool} {e : Option (Symbol × Nat)} {eps : Array Nat} :
    Within lo hi ⟨acc, e, eps⟩ ↔
      (∀ j ∈ eps, lo ≤ j ∧ j < hi) ∧ ∀ l j, e = some (l, j) → lo ≤ j ∧ j < hi := by
  simp only [Within, Targets]
  constructor
  · intro h
    exact ⟨fun j hj => h j (.inl hj), fun l j he => h j (.inr ⟨l, he⟩)⟩
  · rintro ⟨heps, hedge⟩ j (hj | ⟨l, hl⟩)
    · exact heps j hj
    · exact hedge l j hl

theorem Within.mono {lo' hi' : Nat} {s : State} (h : Within lo hi s) (hlo : lo' ≤ lo)
    (hhi : hi ≤ hi') : Within lo' hi' s := fun j hj => by
  have := h j hj
  omega

theorem within_of_quiet {s : State} (h : Quiet s) : Within lo hi s := by
  rintro j (hj | ⟨l, hl⟩)
  · rw [h.2] at hj
    simp at hj
  · rw [h.1] at hl
    cases hl

end Within

/-- A fragment owns the interval `[lo, hi)` of an arena: its entry and exit lie in the
interval, every edge of a state of the interval stays in it, the exit has no edge, and
the exit is the only accepting state of the interval. -/
structure Owns (ar : Array State) (lo hi : Nat) (f : Fragment) : Prop where
  entry_mem : lo ≤ f.entry ∧ f.entry < hi
  exit_mem : lo ≤ f.exit ∧ f.exit < hi
  within : ∀ i, lo ≤ i → i < hi → Within lo hi (get ar i)
  exit_quiet : Quiet (get ar f.exit)
  accepting_iff : ∀ i, lo ≤ i → i < hi → ((get ar i).accepting = true ↔ i = f.exit)

/-- The fragments of a stack, top first, tile the first `hi` states of an arena: from the
bottom up they own consecutive intervals, the first starting at `0` and the last ending
at `hi`. -/
inductive Tiling (ar : Array State) : Nat → List Fragment → Prop
  | nil : Tiling ar 0 []
  | cons {lo hi : Nat} {f : Fragment} {fs : List Fragment} :
      Tiling ar lo fs → Owns ar lo hi f → Tiling ar hi (f :: fs)

variable {ar ar' : Array State}

section Owns

variable {lo hi : Nat} {f : Fragment}

theorem Owns.lo_lt (h : Owns ar lo hi f) : lo < hi := by
  have := h.entry_mem
  omega

/-- A state of an owned interval other than the exit keeps its edges in the interval
and does not accept. -/
theorem Owns.inner {i : Nat} (h : Owns ar lo hi f) (h₁ : lo ≤ i) (h₂ : i < hi) (hne : i ≠ f.exit) :
    Within lo hi (get ar i) ∧ (get ar i).accepting = false := by
  refine ⟨h.within i h₁ h₂, ?_⟩
  cases hacc : (get ar i).accepting
  · rfl
  · exact absurd ((h.accepting_iff i h₁ h₂).mp hacc) hne

/-- The same for two adjacent owned intervals, seen as one. -/
theorem Owns.inner₂ {m i : Nat} {g : Fragment} (hf : Owns ar lo m f) (hg : Owns ar m hi g)
    (h₁ : lo ≤ i) (h₂ : i < hi) (hf' : i ≠ f.exit) (hg' : i ≠ g.exit) :
    Within lo hi (get ar i) ∧ (get ar i).accepting = false := by
  have := hf.lo_lt
  have := hg.lo_lt
  by_cases him : i < m
  · obtain ⟨hw, hacc⟩ := hf.inner h₁ him hf'
    exact ⟨hw.mono (Nat.le_refl _) (by omega), hacc⟩
  · obtain ⟨hw, hacc⟩ := hg.inner (by omega) h₂ hg'
    exact ⟨hw.mono (by omega) (Nat.le_refl _), hacc⟩

/-- Ownership reads only the states of the interval. -/
theorem Owns.frame (h : Owns ar lo hi f) (hsame : ∀ i, lo ≤ i → i < hi → get ar' i = get ar i) :
    Owns ar' lo hi f where
  entry_mem := h.entry_mem
  exit_mem := h.exit_mem
  within i h₁ h₂ := hsame i h₁ h₂ ▸ h.within i h₁ h₂
  exit_quiet := hsame _ h.exit_mem.1 h.exit_mem.2 ▸ h.exit_quiet
  accepting_iff i h₁ h₂ := hsame i h₁ h₂ ▸ h.accepting_iff i h₁ h₂

/-- A fragment owns an interval as soon as each state of it keeps its edges in the
interval and accepts exactly when it is the exit, and the exit has no edge. -/
theorem Owns.of_states (hentry : lo ≤ f.entry ∧ f.entry < hi) (hexit : lo ≤ f.exit ∧ f.exit < hi)
    (hquiet : Quiet (get ar f.exit))
    (hstate : ∀ i, lo ≤ i → i < hi →
      Within lo hi (get ar i) ∧ ((get ar i).accepting = true ↔ i = f.exit)) :
    Owns ar lo hi f :=
  ⟨hentry, hexit, fun i h₁ h₂ => (hstate i h₁ h₂).1, hquiet, fun i h₁ h₂ => (hstate i h₁ h₂).2⟩

end Owns

section Tiling

variable {hi : Nat} {fs : List Fragment}

/-- The stack's tiling reads only the states below its top. -/
theorem Tiling.frame (h : Tiling ar hi fs) (hsame : ∀ i, i < hi → get ar' i = get ar i) :
    Tiling ar' hi fs := by
  induction h with
  | nil => exact .nil
  | cons _ hf ih =>
    have := hf.lo_lt
    exact .cons (ih fun i hi => hsame i (by omega)) (hf.frame fun i _ h₂ => hsame i h₂)

theorem Tiling.of_cons {f : Fragment} (h : Tiling ar hi (f :: fs)) :
    ∃ lo, Tiling ar lo fs ∧ Owns ar lo hi f := by
  cases h with
  | cons hfs hf => exact ⟨_, hfs, hf⟩

theorem Tiling.of_cons_cons {f g : Fragment} (h : Tiling ar hi (g :: f :: fs)) :
    ∃ lo m, Tiling ar lo fs ∧ Owns ar lo m f ∧ Owns ar m hi g := by
  obtain ⟨m, hfs, hg⟩ := h.of_cons
  obtain ⟨lo, hfs, hf⟩ := hfs.of_cons
  exact ⟨lo, m, hfs, hf, hg⟩

end Tiling

/-! ## What each combinator keeps -/

section Combinators

variable {cap : Option Nat} {f : Fragment} {fs : List Fragment}

/-- A new entry followed by a new accepting exit own the two states they occupy. -/
theorem owns_pair {n : Nat} {s : State} (hs : Within n (n + 2) s) (hacc : s.accepting = false)
    (hentry : get ar n = s) (hexit : get ar (n + 1) = ⟨true, none, #[]⟩) :
    Owns ar n (n + 2) ⟨n, n + 1⟩ := by
  refine .of_states (by simp) (by simp) (by rw [hexit]; exact ⟨rfl, rfl⟩) fun i h₁ h₂ => ?_
  obtain rfl | rfl : i = n ∨ i = n + 1 := by omega
  · rw [hentry, hacc]
    simp [hs]
  · rw [hexit]
    simp

/-- A combinator that appends a new entry and a new accepting exit to an old region
`[lo, n)`, and leaves every old state linked inside and not accepting, owns the region
together with the two new states. -/
theorem owns_wrap {lo n e : Nat} (he : lo ≤ e ∧ e < n + 2) (hn : lo ≤ n)
    (hentry : Within lo (n + 2) (get ar n) ∧ (get ar n).accepting = false)
    (hexit : get ar (n + 1) = ⟨true, none, #[]⟩)
    (hold : ∀ i, lo ≤ i → i < n → Within lo (n + 2) (get ar i) ∧ (get ar i).accepting = false) :
    Owns ar lo (n + 2) ⟨e, n + 1⟩ := by
  refine .of_states he (by simp; omega) (by rw [hexit]; exact ⟨rfl, rfl⟩) fun i h₁ h₂ => ?_
  by_cases hin : i = n
  · subst hin
    simp [hentry.1, hentry.2]
  by_cases hix : i = n + 1
  · subst hix
    rw [hexit]
    simp
  obtain ⟨hw, hacc⟩ := hold i h₁ (by omega)
  simp [hw, hacc, hix]

theorem Tiling.symbol {label : Symbol} (ht : Tiling ar ar.size fs)
    (h : (Build.symbol cap label).run ar = .ok f ar') : Tiling ar' ar'.size (f :: fs) := by
  obtain ⟨rfl, hsize, hentry, hexit, hframe⟩ := symbol_spec h
  rw [hsize]
  exact .cons (ht.frame hframe) (owns_pair (by simp) rfl hentry hexit)

theorem Tiling.epsilon (ht : Tiling ar ar.size fs) (h : (Build.epsilon cap).run ar = .ok f ar') :
    Tiling ar' ar'.size (f :: fs) := by
  obtain ⟨rfl, hsize, hentry, hexit, hframe⟩ := epsilon_spec h
  rw [hsize]
  exact .cons (ht.frame hframe) (owns_pair (by simp) rfl hentry hexit)

theorem Tiling.charClass {ms : List Symbol} (ht : Tiling ar ar.size fs)
    (h : (Build.charClass cap ms).run ar = .ok f ar') : Tiling ar' ar'.size (f :: fs) := by
  obtain ⟨rfl, hsize, hentry, hexit, hbranch, hframe⟩ := charClass_spec h
  rw [hsize]
  refine .cons (ht.frame hframe) (.of_states (by dsimp only; omega) (by dsimp only; omega)
    (by rw [hexit]; exact ⟨rfl, rfl⟩) fun i h₁ h₂ => ?_)
  -- the entry, the exit, or one of the branches
  by_cases hin : i = ar.size
  · subst hin
    rw [hentry]
    refine ⟨within_mk.mpr ⟨fun j hj => ?_, fun _ _ h => nomatch h⟩, by simp⟩
    simp only [List.mem_toArray, List.mem_map, List.mem_range] at hj
    obtain ⟨t, ht, rfl⟩ := hj
    omega
  by_cases hix : i = ar.size + 1
  · subst hix
    rw [hexit]
    simp
  obtain ⟨t, rfl⟩ : ∃ t, i = ar.size + 2 + t := ⟨i - (ar.size + 2), by omega⟩
  rw [hbranch t (by omega)]
  simp only [within_mk, Array.not_mem_empty, false_implies, implies_true, Option.some.injEq,
    Prod.mk.injEq, true_and, Bool.false_eq_true, false_iff]
  exact ⟨fun _ _ h => by omega, by omega⟩

/-- Concatenation merges the two top intervals: the first exit, demoted, leads to the
second entry, and the second exit is the exit of the whole. -/
theorem Tiling.concat {l r : Fragment} (ht : Tiling ar ar.size (r :: l :: fs))
    (h : (Build.concat l r).run ar = .ok f ar') : Tiling ar' ar'.size (f :: fs) := by
  obtain ⟨lo, m, hrest, hl, hr⟩ := ht.of_cons_cons
  have := hl.entry_mem
  have := hl.exit_mem
  have := hr.entry_mem
  have := hr.exit_mem
  obtain ⟨rfl, hsize, hlx, hframe⟩ := concat_run h (show l.exit < ar.size by omega)
  rw [hsize]
  refine .cons (hrest.frame fun i hi => hframe i (by omega))
    (.of_states (by dsimp only; omega) (by dsimp only; omega) ?_ fun i h₁ h₂ => ?_)
  · rw [hframe _ (by dsimp only; omega)]
    exact hr.exit_quiet
  by_cases hil : i = l.exit
  · subst hil
    rw [hlx, hl.exit_quiet.1, hl.exit_quiet.2]
    have hne : l.exit ≠ r.exit := by omega
    simp [hne]
    omega
  rw [hframe i hil]
  by_cases hir : i = r.exit
  · subst hir
    exact ⟨within_of_quiet hr.exit_quiet, hr.accepting_iff _ hr.exit_mem.1 hr.exit_mem.2⟩
  obtain ⟨hw, hacc⟩ := hl.inner₂ hr h₁ h₂ hil hir
  simp [hw, hacc, hir]

/-- Alternation merges the two top intervals with its new entry and exit: both old
exits, demoted, lead to the new exit. -/
theorem Tiling.union {l r : Fragment} (ht : Tiling ar ar.size (r :: l :: fs))
    (h : (Build.union cap l r).run ar = .ok f ar') : Tiling ar' ar'.size (f :: fs) := by
  obtain ⟨lo, m, hrest, hl, hr⟩ := ht.of_cons_cons
  have := hl.entry_mem
  have := hl.exit_mem
  have := hr.entry_mem
  have := hr.exit_mem
  obtain ⟨rfl, hsize, hentry, hexit, hlx, hrx, hframe⟩ :=
    union_spec h (by omega) (by omega) (by omega)
  rw [hsize]
  refine .cons (hrest.frame fun i hi => hframe i (by omega) (by omega) (by omega))
    (owns_wrap (by omega) (by omega) ?_ hexit fun i h₁ h₂ => ?_)
  · rw [hentry]
    simp
    omega
  by_cases hil : i = l.exit
  · subst hil
    rw [hlx, hl.exit_quiet.1, hl.exit_quiet.2]
    simp
    omega
  by_cases hir : i = r.exit
  · subst hir
    rw [hrx, hr.exit_quiet.1, hr.exit_quiet.2]
    simp
    omega
  obtain ⟨hw, hacc⟩ := hl.inner₂ hr h₁ h₂ hil hir
  rw [hframe i h₂ hil hir]
  exact ⟨hw.mono (Nat.le_refl _) (by omega), hacc⟩

/-- The shape shared by option, loop and one-or-more: a new entry and a new accepting
exit appended to the top interval, whose old exit is demoted and linked inside. -/
theorem Tiling.wrap {a : Fragment} {lo e : Nat} (hrest : Tiling ar lo fs) (ha : Owns ar lo ar.size a)
    (hsize : ar'.size = ar.size + 2) (he : lo ≤ e ∧ e < ar.size + 2)
    (hentry : Within lo (ar.size + 2) (get ar' ar.size) ∧ (get ar' ar.size).accepting = false)
    (hexit : get ar' (ar.size + 1) = ⟨true, none, #[]⟩)
    (hax : Within lo (ar.size + 2) (get ar' a.exit) ∧ (get ar' a.exit).accepting = false)
    (hframe : ∀ i, i < ar.size → i ≠ a.exit → get ar' i = get ar i) :
    Tiling ar' ar'.size (⟨e, ar.size + 1⟩ :: fs) := by
  have := ha.exit_mem
  rw [hsize]
  refine .cons (hrest.frame fun i hi => hframe i (by omega) (by omega))
    (owns_wrap he (by omega) hentry hexit fun i h₁ h₂ => ?_)
  by_cases hix : i = a.exit
  · subst hix
    exact hax
  obtain ⟨hw, hacc⟩ := ha.inner h₁ h₂ hix
  rw [hframe i h₂ hix]
  exact ⟨hw.mono (Nat.le_refl _) (by omega), hacc⟩

theorem Tiling.optional {a : Fragment} (ht : Tiling ar ar.size (a :: fs))
    (h : (Build.optional cap a).run ar = .ok f ar') : Tiling ar' ar'.size (f :: fs) := by
  obtain ⟨lo, hrest, ha⟩ := ht.of_cons
  have := ha.entry_mem
  have := ha.exit_mem
  obtain ⟨rfl, hsize, hentry, hexit, hax, hframe⟩ := optional_spec h ha.exit_mem.2
  refine hrest.wrap ha hsize (by omega) ?_ hexit ?_ hframe
  · rw [hentry]
    simp
    omega
  · rw [hax, ha.exit_quiet.1, ha.exit_quiet.2]
    simp
    omega

theorem Tiling.closure {a : Fragment} (ht : Tiling ar ar.size (a :: fs))
    (h : (Build.closure cap a).run ar = .ok f ar') : Tiling ar' ar'.size (f :: fs) := by
  obtain ⟨lo, hrest, ha⟩ := ht.of_cons
  have := ha.entry_mem
  have := ha.exit_mem
  obtain ⟨rfl, hsize, hentry, hexit, hax, hframe⟩ := closure_spec h ha.exit_mem.2
  refine hrest.wrap ha hsize (by omega) ?_ hexit ?_ hframe
  · rw [hentry]
    simp
    omega
  · rw [hax, ha.exit_quiet.1, ha.exit_quiet.2]
    simp
    omega

theorem Tiling.oneOrMore {a : Fragment} (ht : Tiling ar ar.size (a :: fs))
    (h : (Build.oneOrMore cap a).run ar = .ok f ar') : Tiling ar' ar'.size (f :: fs) := by
  obtain ⟨lo, hrest, ha⟩ := ht.of_cons
  have := ha.entry_mem
  have := ha.exit_mem
  obtain ⟨rfl, hsize, hentry, hexit, hax, hframe⟩ := oneOrMore_spec h ha.exit_mem.2
  refine hrest.wrap ha hsize (by omega) ?_ hexit ?_ hframe
  · rw [hentry]
    simp
    omega
  · rw [hax, ha.exit_quiet.1, ha.exit_quiet.2]
    simp
    omega

theorem chainLink_ge {a : Fragment} {lo n : Nat} (he : lo ≤ a.entry) (hx : lo ≤ a.exit)
    (hn : lo ≤ n) (j : Nat) : lo ≤ chainLink a n j := by
  rcases j with _ | _ | j <;> simp only [chainLink] <;> omega

/-- A bounded repetition keeps the top interval and appends its new exit and the rest of
its chain: every link leads to the next one and, from the `min`-th on, to the new exit. -/
theorem Tiling.boundedRepeat {a : Fragment} {min max : Nat} (ht : Tiling ar ar.size (a :: fs))
    (h : (Build.boundedRepeat cap a min max).run ar = .ok f ar') : Tiling ar' ar'.size (f :: fs) := by
  obtain ⟨lo, hrest, ha⟩ := ht.of_cons
  have := ha.entry_mem
  have := ha.exit_mem
  obtain ⟨label, -, -, hedge, -, hquiet, rfl, hsize, hexit, hlink, hzero, hframe⟩ :=
    boundedRepeat_spec h ha.exit_mem.2
  have hne : a.entry ≠ a.exit := fun heq => by
    rw [heq, hquiet.1] at hedge
    cases hedge
  have hacc : (get ar a.entry).accepting = false := (ha.inner ha.entry_mem.1 ha.entry_mem.2 hne).2
  -- every link keeps its edges inside and does not accept
  have hchain : ∀ j, j ≤ max → Within lo (ar.size + 1 + (max - 1)) (get ar' (chainLink a ar.size j)) ∧
      (get ar' (chainLink a ar.size j)).accepting = false := by
    intro j hj
    rw [hlink j hj]
    refine ⟨within_mk.mpr ⟨fun k hk => ?_, fun l k hk => ?_⟩, ?_⟩
    · split at hk
      · simp only [List.mem_toArray, List.mem_singleton] at hk
        omega
      · simp at hk
    · split at hk
      · simp only [Option.some.injEq, Prod.mk.injEq] at hk
        obtain ⟨-, rfl⟩ := hk
        exact ⟨chainLink_ge (by omega) (by omega) (by omega) _,
          chainLink_lt ha.entry_mem.2 ha.exit_mem.2 (by omega)⟩
      · cases hk
    · cases j <;> simp [hacc]
  rw [hsize]
  refine .cons (hrest.frame fun i hi => hframe i (by omega) (by omega) (by omega))
    (.of_states (by dsimp only; omega) (by dsimp only; omega) (by rw [hexit]; exact ⟨rfl, rfl⟩)
      fun i h₁ h₂ => ?_)
  -- the new exit, a link of the chain, the old exit left out of it, or an untouched state
  by_cases hin : i = ar.size
  · subst hin
    rw [hexit]
    simp
  have hlinked : ∀ j, j ≤ max → chainLink a ar.size j = i →
      Within lo (ar.size + 1 + (max - 1)) (get ar' i) ∧
        ((get ar' i).accepting = true ↔ i = ar.size) := by
    rintro j hj rfl
    obtain ⟨hw, hfalse⟩ := hchain j hj
    simp [hw, hfalse, hin]
  by_cases hie : i = a.entry
  · exact hlinked 0 (Nat.zero_le _) hie.symm
  by_cases hix : i = a.exit
  · by_cases hmax : max = 0
    · rw [hix, hzero hmax]
      simp
      omega
    · exact hlinked 1 (by omega) hix.symm
  by_cases hnew : ar.size < i
  · obtain ⟨t, rfl⟩ : ∃ t, i = ar.size + 1 + t := ⟨i - ar.size - 1, by omega⟩
    exact hlinked (t + 2) (by omega) rfl
  obtain ⟨hw, hfalse⟩ := ha.inner h₁ (by omega) hix
  rw [hframe i (by omega) hie hix]
  exact ⟨hw.mono (Nat.le_refl _) (by omega), by simp [hfalse, hin]⟩

end Combinators

/-! ## The compiler's loop -/

variable {cap : Option Nat}

/-- **One token keeps the tiling.** Whatever token the compiler reads, if it succeeds,
the stack it leaves tiles the arena it leaves. -/
theorem Tiling.applyToken {t : Token} {stack stack' : List Fragment}
    (ht : Tiling ar ar.size stack) (h : (Build.applyToken cap t stack).run ar = .ok stack' ar') :
    Tiling ar' ar'.size stack' := by
  cases TokenRun.of_applyToken h with
  | operand hf => exact ht.symbol hf
  | charClass hf => exact ht.charClass hf
  | alt hf => exact ht.union hf
  | cat hf => exact ht.concat hf
  | opt hf => exact ht.optional hf
  | star hf => exact ht.closure hf
  | plus hf => exact ht.oneOrMore hf
  | rep hf => exact ht.boundedRepeat hf

/-- **Every run of the loop keeps the tiling**, by induction on the stream. -/
theorem Tiling.applyTokens (ts : List Token) :
    ∀ {ar ar' : Array State} {stack stack' : List Fragment}, Tiling ar ar.size stack →
      (Build.applyTokens cap ts stack).run ar = .ok stack' ar' → Tiling ar' ar'.size stack' := by
  induction ts with
  | nil =>
    intro ar ar' stack stack' ht h
    simp only [Build.applyTokens, EStateM.run_pure, EStateM.Result.ok.injEq] at h
    obtain ⟨rfl, rfl⟩ := h
    exact ht
  | cons t ts ih =>
    intro ar ar' stack stack' ht h
    simp only [Build.applyTokens, run_bind_eq_ok] at h
    obtain ⟨mid, ar₁, hstep, hrest⟩ := h
    exact ih (ht.applyToken hstep) hrest

end Layout

/-! ## Automata with a single exit -/

namespace Nfa

open Arena Layout

/-- An automaton with a single exit: its start and exit lie in the arena, every edge
leads into the arena, the exit is the only accepting state, and the exit has no edge. -/
structure SingleExit (a : Nfa) : Prop where
  start_lt : a.start < a.stateCount
  exit_lt : a.exit < a.stateCount
  targets_lt : ∀ i j, Targets (a.stateAt i) j → j < a.stateCount
  accepting_iff : ∀ i, (a.stateAt i).accepting = true ↔ i = a.exit
  exit_quiet : Quiet (a.stateAt a.exit)

/-- A fragment that owns its whole arena makes an automaton with a single exit. -/
theorem singleExit_ofFragment {ar : Array State} {f : Fragment} (h : Owns ar 0 ar.size f) :
    (ofFragment ar f).SingleExit where
  start_lt := h.entry_mem.2
  exit_lt := h.exit_mem.2
  targets_lt i j hj := (h.within i (Nat.zero_le _) (lt_size_of_targets hj) j hj).2
  accepting_iff i := by
    by_cases hi : i < ar.size
    · exact h.accepting_iff i (Nat.zero_le _) hi
    · have := h.exit_mem.2
      change (get ar i).accepting = true ↔ i = f.exit
      rw [get_of_size_le (by omega)]
      simp [State.fresh]
      omega
  exit_quiet := h.exit_quiet

/-- The arena a successful compilation ends with is tiled by the one fragment it
returns. -/
theorem tiling_of_compileWith {ts : List Token} {a : Nfa} (h : compileWith cap ts = .ok a) :
    ∃ ar f, a = ofFragment ar f ∧ Tiling ar ar.size [f] := by
  unfold compileWith construct at h
  cases ts with
  | nil =>
    dsimp only at h
    split at h
    · rename_i f ar hrun
      cases h
      exact ⟨ar, f, rfl, Tiling.nil.epsilon hrun⟩
    · cases h
  | cons t ts =>
    dsimp only at h
    split at h
    · rename_i f ar hrun
      cases h
      simp only [Build.run_bind_eq_ok] at hrun
      obtain ⟨stack, ar₁, hstack, hlast⟩ := hrun
      have ht := Tiling.applyTokens (t :: ts) Tiling.nil hstack
      split at hlast
      · simp only [EStateM.run_pure, EStateM.Result.ok.injEq] at hlast
        obtain ⟨rfl, rfl⟩ := hlast
        exact ⟨_, _, rfl, ht⟩
      · cases hlast
    · cases h

/-- Every automaton the compiler returns, under any cap, has a single exit. -/
theorem compileWith_singleExit {ts : List Token} {a : Nfa} (h : compileWith cap ts = .ok a) :
    a.SingleExit := by
  obtain ⟨ar, f, rfl, ht⟩ := tiling_of_compileWith h
  obtain ⟨lo, hnil, hf⟩ := ht.of_cons
  cases hnil
  exact singleExit_ofFragment hf

/-- **The layout of a compiled automaton.** After every token of the compiler's loop
(any stream is a prefix of a longer one), the fragments on the stack own consecutive
intervals that cover the arena; so every automaton the compiler returns has its start,
its exit and every edge in range, and its exit is its only accepting state and has no
edge. -/
theorem compile_layout (ts : List Token) :
    (∀ stack ar, (Build.applyTokens (some Build.maxStates) ts []).run #[] = .ok stack ar →
      Tiling ar ar.size stack) ∧
    ∀ a, compile ts = .ok a → a.SingleExit :=
  ⟨fun _ _ h => Tiling.applyTokens ts .nil h, fun _ h => compileWith_singleExit h⟩

end Nfa

end SeqPattern
