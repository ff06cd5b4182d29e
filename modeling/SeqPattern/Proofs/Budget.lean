import SeqPattern.Proofs.BuildRuns
import SeqPattern.Automaton.Compile
/-!
# The state budget

The compiler allocates states one at a time, and under a budget of `l` states an
allocation that finds the arena full fails with `tooManyStates l`. This file shows that
the budget changes nothing else: a compilation under the budget gives exactly the
answer of the same compilation without one, unless that one ends with more than `l`
states, and then it fails on the budget instead, having never held more than `l`
states.

The comparison is one relation between two programs over the arena, `Agrees l x y`:
run from any arena within the budget, `x` (under the budget) gives the run of `y`
(without it) when `y` ends within the budget, and a budget failure within the budget
when `y` ends beyond it; and `y` never shrinks the arena. Allocation agrees with itself
across the budget, every step that allocates nothing agrees with itself, and agreement
survives sequencing (`Agrees.bind`), because a program run after a part that overran
the budget ends beyond it too. Every combinator is built from these, except the bounded
repetition, which checks the budget once up front for all the states of its chain: that
check fails exactly when the chain, built without a budget, would overrun it
(`Agrees.boundedRepeat`).

The counts come from `Adds k y`: without a budget, `y` always succeeds and allocates
exactly `k` states. Besides the budget, a token fails only for a missing operand, a
bracket, or a bounded repetition with a bad range or not over a single symbol, and each
of these is raised before the token allocates anything (`applyToken_error_keeps`).

Main statements: `Build.Agrees.bind`, `Build.Agrees.boundedRepeat`,
`Build.Agrees.applyTokens`, `Nfa.compileWith_budget` and `Nfa.compile_budget`.
-/

namespace SeqPattern

namespace Build

open Arena

/-! ## Runs that end within a budget -/

/-- A run ends with the arena `ar`, whether it succeeds or fails. -/
def EndsIn {α : Type} (r : EStateM.Result PatternError (Array State) α) (ar : Array State) : Prop :=
  (∃ v, r = .ok v ar) ∨ ∃ e, r = .error e ar

section EndsIn

variable {α : Type} {r : EStateM.Result PatternError (Array State) α} {ar ar' : Array State}

@[simp] theorem endsIn_ok {v : α} : EndsIn (.ok v ar) ar' ↔ ar' = ar := by
  simp [EndsIn, eq_comm]

@[simp] theorem endsIn_error {e : PatternError} : EndsIn (.error e ar : EStateM.Result _ _ α) ar' ↔ ar' = ar := by
  simp [EndsIn, eq_comm]

theorem EndsIn.exists (r : EStateM.Result PatternError (Array State) α) : ∃ ar, EndsIn r ar := by
  cases r with
  | ok v ar => exact ⟨ar, .inl ⟨v, rfl⟩⟩
  | error e ar => exact ⟨ar, .inr ⟨e, rfl⟩⟩

theorem EndsIn.unique (h : EndsIn r ar) (h' : EndsIn r ar') : ar = ar' := by
  rcases h with ⟨v, rfl⟩ | ⟨e, rfl⟩
  · exact (endsIn_ok.mp h').symm
  · exact (endsIn_error.mp h').symm

end EndsIn

/-- The run `rc` under a budget of `l` states answers for the run `ru` without one: it is
`ru` when `ru` ends within the budget, and a budget failure within the budget when `ru`
ends beyond it. -/
def Fits {α : Type} (l : Nat) (rc ru : EStateM.Result PatternError (Array State) α) : Prop :=
  ∀ ar, EndsIn ru ar → (ar.size ≤ l → rc = ru) ∧
    (l < ar.size → ∃ ar', rc = .error (.tooManyStates l) ar' ∧ ar'.size ≤ l)

/-- `x`, run under a budget of `l` states, answers for `y`, run without one, from every
arena within the budget; and `y` never shrinks the arena. -/
structure Agrees {α : Type} (l : Nat) (x y : Build α) : Prop where
  grows : ∀ ar ar', EndsIn (y.run ar) ar' → ar.size ≤ ar'.size
  fits : ∀ ar, ar.size ≤ l → Fits l (x.run ar) (y.run ar)

variable {l : Nat} {α β : Type}

/-- A run under a budget that answers for another never holds more than the budget. -/
theorem Fits.size_le {rc ru : EStateM.Result PatternError (Array State) α} (h : Fits l rc ru)
    {ar : Array State} (hend : EndsIn rc ar) : ar.size ≤ l := by
  obtain ⟨aru, haru⟩ := EndsIn.exists ru
  by_cases hle : aru.size ≤ l
  · rw [(h aru haru).1 hle] at hend
    rw [hend.unique haru]
    exact hle
  · obtain ⟨ar', rfl, hsize⟩ := (h aru haru).2 (by omega)
    rw [hend.unique (.inr ⟨_, rfl⟩)]
    exact hsize

/-! ## Agreement, step by step -/

/-- A step that leaves the size of the arena alone agrees with itself. -/
theorem Agrees.keep (x : Build α) (hx : ∀ ar ar', EndsIn (x.run ar) ar' → ar'.size = ar.size) :
    Agrees l x x where
  grows ar ar' h := Nat.le_of_eq (hx ar ar' h).symm
  fits ar hl ar' h := ⟨fun _ => rfl, fun hlt => absurd (hx ar ar' h ▸ hlt) (by omega)⟩

theorem Agrees.pure (v : α) : Agrees l (Pure.pure v : Build α) (Pure.pure v) :=
  .keep _ fun ar ar' h => by
    rw [EStateM.run_pure, endsIn_ok] at h
    rw [h]

theorem Agrees.throw (e : PatternError) : Agrees l (MonadExcept.throw e : Build α) (MonadExcept.throw e) :=
  .keep _ fun ar ar' h => by
    have hrun : (MonadExcept.throw e : Build α).run ar = .error e ar := rfl
    rw [hrun, endsIn_error] at h
    rw [h]

/-- An allocation under the budget agrees with one without it: both push the same state
when the arena has room, and the one under the budget fails when it is full. -/
theorem Agrees.addState (acc : Bool) : Agrees l (addState (some l) acc) (addState none acc) where
  grows ar ar' h := by
    rw [run_addState_of_room (fun _ h => by cases h), endsIn_ok] at h
    simp [h]
  fits ar hl ar' h := by
    have hu : (Build.addState none acc).run ar = .ok ar.size (ar.push (State.fresh acc)) :=
      run_addState_of_room fun _ h => by cases h
    rw [hu, endsIn_ok] at h
    subst h
    rw [hu]
    by_cases hroom : ar.size < l
    · refine ⟨fun _ => run_addState_of_room fun l' hl' => ?_, fun hlt => absurd hlt (by simp; omega)⟩
      cases hl'
      exact hroom
    · have hfull : l ≤ ar.size := by omega
      exact ⟨fun hle => absurd hle (by simp; omega), fun _ => ⟨ar, run_addState_of_full hfull, hl⟩⟩

/-- **Agreement survives sequencing.** When the first parts agree and the rests agree
after every value, the whole programs agree. A first part that overran the budget
fails under it, and without it the rest only adds to an arena already beyond it. -/
theorem Agrees.bind {x y : Build α} {f g : α → Build β} (hxy : Agrees l x y)
    (hfg : ∀ v, Agrees l (f v) (g v)) : Agrees l (x >>= f) (y >>= g) where
  grows ar ar'' h := by
    rw [EStateM.run_bind] at h
    cases hy : y.run ar with
    | ok v ar' =>
      rw [hy] at h
      exact Nat.le_trans (hxy.grows ar ar' (by simp [hy])) ((hfg v).grows ar' ar'' h)
    | error e ar' =>
      rw [hy] at h
      simp only [endsIn_error] at h
      subst h
      exact hxy.grows ar _ (by simp [hy])
  fits ar hl ar'' h := by
    have hfit := hxy.fits ar hl
    simp only [EStateM.run_bind] at h ⊢
    cases hy : y.run ar with
    | ok v ar' =>
      simp only [hy] at h hfit ⊢
      by_cases hle : ar'.size ≤ l
      · -- within the budget the first parts are the same run, and so are the rests
        simp only [(hfit ar' (by simp)).1 hle]
        exact (hfg v).fits ar' hle ar'' h
      · obtain ⟨arc, hxc, hsize⟩ := (hfit ar' (by simp)).2 (by omega)
        simp only [hxc]
        have hgrow := (hfg v).grows ar' ar'' h
        exact ⟨fun hle' => absurd (Nat.le_trans hgrow hle') hle, fun _ => ⟨arc, rfl, hsize⟩⟩
    | error e ar' =>
      simp only [hy, endsIn_error] at h hfit ⊢
      subst h
      by_cases hle : ar''.size ≤ l
      · rw [(hfit ar'' (by simp)).1 hle]
        exact ⟨fun _ => rfl, fun hlt => absurd hle (by omega)⟩
      · obtain ⟨arc, hxc, hsize⟩ := (hfit ar'' (by simp)).2 (by omega)
        simp only [hxc]
        exact ⟨fun hle' => absurd hle' hle, fun _ => ⟨arc, rfl, hsize⟩⟩

theorem Agrees.ite {c : Prop} [Decidable c] {x₁ x₂ y₁ y₂ : Build α} (h₁ : c → Agrees l x₁ y₁)
    (h₂ : ¬ c → Agrees l x₂ y₂) : Agrees l (if c then x₁ else x₂) (if c then y₁ else y₂) := by
  by_cases hc : c
  · simpa only [hc, if_true] using h₁ hc
  · simpa only [hc, if_false] using h₂ hc

/-- A step that always succeeds and keeps the size of the arena agrees with itself. -/
theorem Agrees.of_run {x : Build α} (v : Array State → α) (f : Array State → Array State)
    (hrun : ∀ ar, x.run ar = .ok (v ar) (f ar)) (hsize : ∀ ar, (f ar).size = ar.size) :
    Agrees l x x :=
  .keep x fun ar ar' h => by
    rw [hrun, endsIn_ok] at h
    rw [h, hsize]

theorem Agrees.addEps (src dst : Nat) : Agrees l (addEps src dst) (addEps src dst) :=
  .of_run _ _ (fun _ => run_addEps src dst) fun _ => Array.size_modify ..

theorem Agrees.setEdge (src : Nat) (label : Symbol) (dst : Nat) :
    Agrees l (setEdge src label dst) (setEdge src label dst) :=
  .of_run _ _ (fun _ => run_setEdge src label dst) fun _ => Array.size_modify ..

theorem Agrees.clearEdge (src : Nat) : Agrees l (clearEdge src) (clearEdge src) :=
  .of_run _ _ (fun _ => run_clearEdge src) fun _ => Array.size_modify ..

theorem Agrees.demote (i : Nat) : Agrees l (demote i) (demote i) :=
  .of_run _ _ (fun _ => run_demote i) fun _ => Array.size_modify ..

theorem Agrees.stateAt (i : Nat) : Agrees l (stateAt i) (stateAt i) :=
  .of_run _ id (fun _ => run_stateAt i) fun _ => rfl

theorem Agrees.size : Agrees l size size :=
  .of_run _ id (fun _ => run_size) fun _ => rfl

/-- A program that fails at once agrees with any other that fails at once in the same way. -/
theorem Agrees.throw_bind (e : PatternError) (f g : Unit → Build α) :
    Agrees l (MonadExcept.throw e >>= f) (MonadExcept.throw e >>= g) := by
  have hrun : ∀ (k : Unit → Build α) ar, (MonadExcept.throw e >>= k).run ar = .error e ar :=
    fun _ _ => rfl
  refine ⟨fun ar ar' h => ?_, fun ar _ ar' h => ?_⟩
  · rw [hrun, endsIn_error] at h
    subst h
    exact Nat.le_refl _
  · rw [hrun, endsIn_error] at h
    subst h
    rw [hrun, hrun]
    exact ⟨fun _ => rfl, fun hlt => absurd hlt (by omega)⟩

/-! ## The combinators -/

variable (l)

theorem Agrees.epsilon : Agrees l (epsilon (some l)) (epsilon none) :=
  .bind (.addState _) fun entry => .bind (.addState _) fun exit =>
    .bind (.addEps entry exit) fun _ => .pure _

theorem Agrees.symbol (label : Symbol) : Agrees l (symbol (some l) label) (symbol none label) :=
  .bind (.addState _) fun entry => .bind (.addState _) fun exit =>
    .bind (.setEdge entry label exit) fun _ => .pure _

theorem Agrees.concat (a b : Fragment) : Agrees l (concat a b) (concat a b) :=
  .bind (.addEps _ _) fun _ => .bind (.demote _) fun _ => .pure _

theorem Agrees.union (a b : Fragment) : Agrees l (union (some l) a b) (union none a b) :=
  .bind (.addState _) fun _ => .bind (.addEps _ _) fun _ => .bind (.addEps _ _) fun _ =>
    .bind (.addState _) fun _ => .bind (.addEps _ _) fun _ => .bind (.demote _) fun _ =>
      .bind (.addEps _ _) fun _ => .bind (.demote _) fun _ => .pure _

theorem Agrees.optional (a : Fragment) : Agrees l (optional (some l) a) (optional none a) :=
  .bind (.addState _) fun _ => .bind (.addState _) fun _ =>
    .bind (.addEps _ _) fun _ => .bind (.addEps _ _) fun _ => .bind (.addEps _ _) fun _ =>
      .bind (.demote _) fun _ => .pure _

theorem Agrees.loopAround (bodyEntry bodyExit : Nat) :
    Agrees l (loopAround (some l) bodyEntry bodyExit) (loopAround none bodyEntry bodyExit) :=
  .bind (.addState _) fun _ => .bind (.addState _) fun _ =>
    .bind (.addEps _ _) fun _ => .bind (.addEps _ _) fun _ => .bind (.addEps _ _) fun _ =>
      .bind (.addEps _ _) fun _ => .bind (.demote _) fun _ => .pure _

theorem Agrees.closure (a : Fragment) : Agrees l (closure (some l) a) (closure none a) :=
  .loopAround l a.entry a.exit

theorem Agrees.oneOrMore (a : Fragment) : Agrees l (oneOrMore (some l) a) (oneOrMore none a) :=
  .bind (.demote _) fun _ => .bind (.loopAround l _ _) fun r => .concat l a r

theorem Agrees.addBranches (entry exit : Nat) :
    ∀ ms : List Symbol, Agrees l (addBranches (some l) entry exit ms) (addBranches none entry exit ms)
  | [] => .pure _
  | _ :: ms => .bind (.addState _) fun _ => .bind (.addEps _ _) fun _ =>
      .bind (.setEdge _ _ _) fun _ => Agrees.addBranches entry exit ms

theorem Agrees.charClass (ms : List Symbol) : Agrees l (charClass (some l) ms) (charClass none ms) :=
  .bind (.addState _) fun entry => .bind (.addState _) fun exit =>
    .bind (.addBranches l entry exit ms) fun _ => .pure _

theorem Agrees.singleSymbol (a : Fragment) : Agrees l (singleSymbol a) (singleSymbol a) :=
  .bind (.stateAt _) fun s => .bind (.stateAt _) fun e => by
    split
    · exact .ite (fun _ => .pure _) (fun _ => .pure _)
    · exact .pure _

theorem Agrees.extendChain (label : Symbol) :
    ∀ (k : Nat) (chain : List Nat),
      Agrees l (extendChain (some l) label k chain) (extendChain none label k chain)
  | 0, _ => .pure _
  | k + 1, chain => .bind (.addState _) fun next => .bind (.setEdge _ _ _) fun _ =>
      Agrees.extendChain label k (next :: chain)

theorem Agrees.forM_addEps (exit : Nat) :
    ∀ links : List Nat, Agrees l (links.forM fun link => Build.addEps link exit)
      (links.forM fun link => Build.addEps link exit)
  | [] => .pure _
  | _ :: links => .bind (.addEps _ _) fun _ => Agrees.forM_addEps exit links

theorem Agrees.repeatChain (a : Fragment) (label : Symbol) (min max : Nat) :
    Agrees l (repeatChain (some l) a label min max) (repeatChain none a label min max) :=
  -- both ways of laying the chain continue with the epsilon edges to the exit
  .bind (.addState _) fun exit => .bind (.demote _) fun _ =>
    .ite (fun _ => .bind (.clearEdge _) fun _ => .bind (.pure _) fun _ =>
        .bind (.forM_addEps l exit _) fun _ => .pure _)
      (fun _ => .bind (.extendChain l label _ _) fun _ => .bind (.pure _) fun _ =>
        .bind (.forM_addEps l exit _) fun _ => .pure _)

/-! ## Allocation counts without a budget -/

variable {l}

/-- `y` always succeeds and allocates exactly `k` states. -/
def Adds (k : Nat) (y : Build α) : Prop :=
  ∀ ar, ∃ v ar', y.run ar = .ok v ar' ∧ ar'.size = ar.size + k

theorem Adds.bind {k₁ k₂ : Nat} {y : Build α} {g : α → Build β} (hy : Adds k₁ y)
    (hg : ∀ v, Adds k₂ (g v)) : Adds (k₁ + k₂) (y >>= g) := by
  intro ar
  obtain ⟨v, ar₁, hrun₁, hsize₁⟩ := hy ar
  obtain ⟨w, ar₂, hrun₂, hsize₂⟩ := hg v ar₁
  refine ⟨w, ar₂, ?_, by omega⟩
  rw [EStateM.run_bind, hrun₁]
  exact hrun₂

theorem Adds.size_eq {k : Nat} {y : Build α} (hy : Adds k y) {ar ar' : Array State}
    (h : EndsIn (y.run ar) ar') : ar'.size = ar.size + k := by
  obtain ⟨v, ar₁, hrun, hsize⟩ := hy ar
  rw [hrun, endsIn_ok] at h
  rw [h, hsize]

theorem Adds.of_eq {k k' : Nat} {y : Build α} (hk : k = k') (hy : Adds k y) : Adds k' y := hk ▸ hy

theorem Adds.ite {k : Nat} {c : Prop} [Decidable c] {y₁ y₂ : Build α} (h₁ : c → Adds k y₁)
    (h₂ : ¬ c → Adds k y₂) : Adds k (if c then y₁ else y₂) := by
  by_cases hc : c
  · simpa only [hc, if_true] using h₁ hc
  · simpa only [hc, if_false] using h₂ hc

theorem Adds.of_run {x : Build α} (v : Array State → α) (f : Array State → Array State)
    (hrun : ∀ ar, x.run ar = .ok (v ar) (f ar)) (hsize : ∀ ar, (f ar).size = ar.size) : Adds 0 x :=
  fun ar => ⟨v ar, f ar, hrun ar, hsize ar⟩

theorem Adds.pure (v : α) : Adds 0 (Pure.pure v : Build α) :=
  .of_run _ id (fun _ => rfl) fun _ => rfl

theorem Adds.addState (acc : Bool) : Adds 1 (addState none acc) :=
  fun ar => ⟨_, _, run_addState_of_room (fun _ h => by cases h), Array.size_push ..⟩

theorem Adds.addEps (src dst : Nat) : Adds 0 (addEps src dst) :=
  .of_run _ _ (fun _ => run_addEps src dst) fun _ => Array.size_modify ..

theorem Adds.setEdge (src : Nat) (label : Symbol) (dst : Nat) : Adds 0 (setEdge src label dst) :=
  .of_run _ _ (fun _ => run_setEdge src label dst) fun _ => Array.size_modify ..

theorem Adds.clearEdge (src : Nat) : Adds 0 (clearEdge src) :=
  .of_run _ _ (fun _ => run_clearEdge src) fun _ => Array.size_modify ..

theorem Adds.demote (i : Nat) : Adds 0 (demote i) :=
  .of_run _ _ (fun _ => run_demote i) fun _ => Array.size_modify ..

/-- Without a budget, extending a chain by `k` links allocates exactly `k` states. -/
theorem Adds.extendChain (label : Symbol) :
    ∀ (k : Nat) (chain : List Nat), Adds k (extendChain none label k chain)
  | 0, _ => .pure _
  | k + 1, chain => by
    have h := Adds.bind (Adds.addState false) fun next =>
      Adds.bind (.setEdge (chain.headD 0) label next) fun _ => Adds.extendChain label k (next :: chain)
    rwa [Nat.zero_add, Nat.add_comm] at h

theorem Adds.forM_addEps (exit : Nat) :
    ∀ links : List Nat, Adds 0 (links.forM fun link => Build.addEps link exit)
  | [] => .pure _
  | link :: links => by
    have h := Adds.bind (.addEps link exit) fun _ => Adds.forM_addEps exit links
    rwa [Nat.zero_add] at h


theorem Adds.stateAt (i : Nat) : Adds 0 (stateAt i) :=
  .of_run _ id (fun _ => run_stateAt i) fun _ => rfl

/-! Without a budget every combinator succeeds, and the Thompson fragments allocate two
states each, one per branch for a class. -/

theorem Adds.epsilon : Adds 2 (epsilon none) :=
  .bind (.addState _) fun entry => .bind (.addState _) fun exit =>
    .bind (.addEps entry exit) fun _ => .pure _

theorem Adds.symbol (label : Symbol) : Adds 2 (symbol none label) :=
  .bind (.addState _) fun entry => .bind (.addState _) fun exit =>
    .bind (.setEdge entry label exit) fun _ => .pure _

theorem Adds.concat (a b : Fragment) : Adds 0 (concat a b) :=
  .bind (.addEps _ _) fun _ => .bind (.demote _) fun _ => .pure _

theorem Adds.union (a b : Fragment) : Adds 2 (union none a b) :=
  .bind (.addState _) fun _ => .bind (.addEps _ _) fun _ => .bind (.addEps _ _) fun _ =>
    .bind (.addState _) fun _ => .bind (.addEps _ _) fun _ => .bind (.demote _) fun _ =>
      .bind (.addEps _ _) fun _ => .bind (.demote _) fun _ => .pure _

theorem Adds.optional (a : Fragment) : Adds 2 (optional none a) :=
  .bind (.addState _) fun _ => .bind (.addState _) fun _ =>
    .bind (.addEps _ _) fun _ => .bind (.addEps _ _) fun _ => .bind (.addEps _ _) fun _ =>
      .bind (.demote _) fun _ => .pure _

theorem Adds.loopAround (bodyEntry bodyExit : Nat) : Adds 2 (loopAround none bodyEntry bodyExit) :=
  .bind (.addState _) fun _ => .bind (.addState _) fun _ =>
    .bind (.addEps _ _) fun _ => .bind (.addEps _ _) fun _ => .bind (.addEps _ _) fun _ =>
      .bind (.addEps _ _) fun _ => .bind (.demote _) fun _ => .pure _

theorem Adds.closure (a : Fragment) : Adds 2 (closure none a) :=
  .loopAround a.entry a.exit

theorem Adds.oneOrMore (a : Fragment) : Adds 2 (oneOrMore none a) :=
  .bind (.demote _) fun _ => .bind (.loopAround _ _) fun r => .concat a r

theorem Adds.addBranches (entry exit : Nat) :
    ∀ ms : List Symbol, Adds ms.length (addBranches none entry exit ms)
  | [] => .pure _
  | m :: ms => by
    have h := Adds.bind (Adds.addState false) fun branch => Adds.bind (.addEps entry branch) fun _ =>
      Adds.bind (.setEdge branch m exit) fun _ => Adds.addBranches entry exit ms
    rwa [Nat.zero_add, Nat.zero_add, Nat.add_comm] at h

theorem Adds.charClass (ms : List Symbol) : Adds (2 + ms.length) (charClass none ms) := by
  have h : Adds _ (Build.charClass none ms) :=
    .bind (.addState _) fun entry => .bind (.addState _) fun exit =>
      .bind (.addBranches entry exit ms) fun _ => .pure _
  exact .of_eq (by omega) h

theorem Adds.singleSymbol (a : Fragment) : Adds 0 (singleSymbol a) := by
  have h : Adds (0 + (0 + 0)) (Build.singleSymbol a) :=
    .bind (.stateAt _) fun s => .bind (.stateAt _) fun e => by
      split
      · exact .ite (fun _ => .pure _) (fun _ => .pure _)
      · exact .pure _
  exact h

/-- Without a budget the chain of a bounded repetition allocates its exit and `max - 1`
new links; the entry and the old exit are its first two links. -/
theorem Adds.repeatChain (a : Fragment) (label : Symbol) (min max : Nat) :
    Adds (max - 1 + 1) (repeatChain none a label min max) := by
  have h : Adds _ (Build.repeatChain none a label min max) :=
    .bind (.addState _) fun exit => .bind (.demote _) fun _ =>
      .ite (fun h0 => .of_eq (by omega) (.bind (.clearEdge _) fun _ => .bind (.pure _) fun _ =>
          .bind (.forM_addEps exit _) fun _ => .pure _))
        (fun _ => .bind (.extendChain label _ _) fun _ => .bind (.pure _) fun _ =>
          .bind (.forM_addEps exit _) fun _ => .pure _)
  exact .of_eq (by omega) h

/-! ## The bounded repetition -/

/-- The up-front check of a bounded repetition: under the budget it fails at once when
`max` more states would overrun it, and it stands for a rest that, without the budget,
allocates at least `max` states. -/
theorem Agrees.budgetCheck {max k : Nat} {kc ku : Build α} (hk : Agrees l kc ku) (hadd : Adds k ku)
    (hmax : max ≤ k) :
    Agrees l (Build.size >>= fun n =>
        if l < n + max then (MonadExcept.throw (.tooManyStates l) : Build Unit) >>= fun _ => kc
        else kc)
      (Build.size >>= fun _ => ku) where
  grows ar ar' h := by
    simp only [EStateM.run_bind, run_size] at h
    exact hk.grows ar ar' h
  fits ar hl ar' h := by
    simp only [EStateM.run_bind, run_size] at h ⊢
    by_cases hover : l < ar.size + max
    · -- the check fails within the budget; the rest without it ends beyond the budget
      rw [if_pos hover]
      have hbeyond := hadd.size_eq h
      exact ⟨fun hle => absurd hle (by omega), fun _ => ⟨ar, rfl, hl⟩⟩
    · rw [if_neg hover]
      exact hk.fits ar hl ar' h

/-- **The up-front check agrees with the chain.** A bounded repetition under the budget
answers for one without it: the range and single-symbol checks come first and allocate
nothing, and the budget check fails exactly when the exit and the `max - 1` new links
the chain allocates without a budget (the exit alone when `max = 0`) would overrun the
budget, which the allocations themselves then do not. -/
theorem Agrees.boundedRepeat (a : Fragment) (min max : Nat) :
    Agrees l (boundedRepeat (some l) a min max) (boundedRepeat none a min max) := by
  unfold Build.boundedRepeat
  dsimp only
  refine .ite (fun _ => .throw_bind _ _ _) (fun _ => .bind (.singleSymbol l a) fun r => ?_)
  cases r with
  | none => exact .throw _
  | some label =>
    dsimp only
    -- `max ≤ max - 1 + 1` covers both the chain and the lone exit of `max = 0`
    exact .budgetCheck (.repeatChain l a label min max) (.repeatChain a label min max) (by omega)

/-! ## Tokens and streams -/

variable (l)

theorem Agrees.applyToken (t : Token) (stack : List Fragment) :
    Agrees l (applyToken (some l) t stack) (applyToken none t stack) := by
  -- each token first checks the operands it needs, which allocates nothing
  cases t with
  | operand s => exact .bind (.symbol l s) fun _ => .pure _
  | charClass ms => exact .bind (.charClass l ms) fun _ => .pure _
  | alt =>
    rcases stack with _ | ⟨r, _ | ⟨f, rest⟩⟩
    · exact .throw _
    · exact .throw _
    · exact .bind (.union l f r) fun _ => .pure _
  | cat =>
    rcases stack with _ | ⟨r, _ | ⟨f, rest⟩⟩
    · exact .throw _
    · exact .throw _
    · exact .bind (.concat l f r) fun _ => .pure _
  | opt =>
    rcases stack with _ | ⟨f, rest⟩
    · exact .throw _
    · exact .bind (.optional l f) fun _ => .pure _
  | star =>
    rcases stack with _ | ⟨f, rest⟩
    · exact .throw _
    · exact .bind (.closure l f) fun _ => .pure _
  | plus =>
    rcases stack with _ | ⟨f, rest⟩
    · exact .throw _
    · exact .bind (.oneOrMore l f) fun _ => .pure _
  | rep min max =>
    rcases stack with _ | ⟨f, rest⟩
    · exact .throw _
    · exact .bind (.boundedRepeat f min max) fun _ => .pure _
  | openGroup => exact .throw _
  | closeGroup => exact .throw _

/-- **A stream under the budget answers for the stream without it.** -/
theorem Agrees.applyTokens :
    ∀ (ts : List Token) (stack : List Fragment),
      Agrees l (applyTokens (some l) ts stack) (applyTokens none ts stack)
  | [], _ => .pure _
  | t :: ts, stack => .bind (.applyToken l t stack) fun stack' => Agrees.applyTokens ts stack'

theorem Agrees.construct (ts : List Token) :
    Agrees l (Nfa.construct (some l) ts) (Nfa.construct none ts) := by
  cases ts with
  | nil => exact .epsilon l
  | cons t ts =>
    -- the stream must leave one fragment; either way the last step allocates nothing
    refine .bind (.applyTokens l (t :: ts) []) fun stack => ?_
    rcases stack with _ | ⟨f, _ | ⟨g, rest⟩⟩
    · exact .throw _
    · exact .pure _
    · exact .throw _

/-! ## Errors raised before allocation -/

variable {l}

/-- `y` either succeeds or fails at once, leaving the arena as it found it. -/
def Settles (y : Build α) : Prop :=
  ∀ ar, (∃ v ar', y.run ar = .ok v ar') ∨ ∃ e, y.run ar = .error e ar

theorem Adds.settles {k : Nat} {y : Build α} (hy : Adds k y) : Settles y := by
  intro ar
  obtain ⟨v, ar', hrun, -⟩ := hy ar
  exact .inl ⟨v, ar', hrun⟩

theorem Settles.throw (e : PatternError) : Settles (MonadExcept.throw e : Build α) :=
  fun _ => .inr ⟨e, rfl⟩

theorem Settles.throw_bind (e : PatternError) (f : Unit → Build α) :
    Settles (MonadExcept.throw e >>= f) :=
  fun _ => .inr ⟨e, rfl⟩

theorem Settles.ite {c : Prop} [Decidable c] {y₁ y₂ : Build α} (h₁ : c → Settles y₁)
    (h₂ : ¬ c → Settles y₂) : Settles (if c then y₁ else y₂) := by
  by_cases hc : c
  · simpa only [hc, if_true] using h₁ hc
  · simpa only [hc, if_false] using h₂ hc

/-- A read that always succeeds, followed by a rest that settles, settles. -/
theorem Settles.bind_read {x : Build α} {f : α → Build β} (hx : ∀ ar, ∃ v, x.run ar = .ok v ar)
    (hf : ∀ v, Settles (f v)) : Settles (x >>= f) := by
  intro ar
  obtain ⟨v, hrun⟩ := hx ar
  simp only [EStateM.run_bind, hrun]
  exact hf v ar

/-- A step that settles, followed by one that always succeeds, settles. -/
theorem Settles.bind_adds {k : Nat} {x : Build α} {f : α → Build β} (hx : Settles x)
    (hf : ∀ v, Adds k (f v)) : Settles (x >>= f) := by
  intro ar
  rcases hx ar with ⟨v, ar', hrun⟩ | ⟨e, hrun⟩
  · obtain ⟨w, ar'', hrun', -⟩ := hf v ar'
    simp only [EStateM.run_bind, hrun, hrun']
    exact .inl ⟨w, ar'', rfl⟩
  · simp only [EStateM.run_bind, hrun]
    exact .inr ⟨e, rfl⟩

theorem singleSymbol_reads (a : Fragment) (ar : Array State) :
    ∃ r, (singleSymbol a).run ar = .ok r ar := by
  obtain ⟨r, ar', hrun, -⟩ := Adds.singleSymbol a ar
  obtain ⟨rfl, -⟩ := singleSymbol_spec hrun
  exact ⟨r, hrun⟩

/-- Without a budget a bounded repetition fails only on its range or on a fragment
that is not a single symbol, both before it allocates anything. -/
theorem boundedRepeat_settles (a : Fragment) (min max : Nat) :
    Settles (boundedRepeat none a min max) := by
  unfold Build.boundedRepeat
  dsimp only
  refine .ite (fun _ => .throw_bind _ _) (fun _ => .bind_read (singleSymbol_reads a) fun r => ?_)
  cases r with
  | none => exact .throw _
  | some label =>
    exact .bind_read (fun _ => ⟨_, run_size⟩) fun _ => (Adds.repeatChain a label min max).settles

/-- Without a budget a token either succeeds or fails before it allocates anything. -/
theorem applyToken_settles (t : Token) (stack : List Fragment) :
    Settles (applyToken none t stack) := by
  cases t with
  | operand s => exact (Adds.bind (.symbol s) fun _ => .pure _).settles
  | charClass ms => exact (Adds.bind (.charClass ms) fun _ => .pure _).settles
  | alt =>
    rcases stack with _ | ⟨r, _ | ⟨f, rest⟩⟩
    · exact .throw _
    · exact .throw _
    · exact (Adds.bind (.union f r) fun _ => .pure _).settles
  | cat =>
    rcases stack with _ | ⟨r, _ | ⟨f, rest⟩⟩
    · exact .throw _
    · exact .throw _
    · exact (Adds.bind (.concat f r) fun _ => .pure _).settles
  | opt =>
    rcases stack with _ | ⟨f, rest⟩
    · exact .throw _
    · exact (Adds.bind (.optional f) fun _ => .pure _).settles
  | star =>
    rcases stack with _ | ⟨f, rest⟩
    · exact .throw _
    · exact (Adds.bind (.closure f) fun _ => .pure _).settles
  | plus =>
    rcases stack with _ | ⟨f, rest⟩
    · exact .throw _
    · exact (Adds.bind (.oneOrMore f) fun _ => .pure _).settles
  | rep min max =>
    rcases stack with _ | ⟨f, rest⟩
    · exact .throw _
    · exact .bind_adds (boundedRepeat_settles f min max) fun _ => .pure _
  | openGroup => exact .throw _
  | closeGroup => exact .throw _

/-- A run under the budget that answers for one that settles fails, from an arena within
the budget, either on the budget or with the arena as it found it. -/
theorem Agrees.error_keeps {x y : Build α} (hxy : Agrees l x y) (hy : Settles y)
    {ar ar' : Array State} {e : PatternError} (hl : ar.size ≤ l) (h : x.run ar = .error e ar')
    (he : e ≠ .tooManyStates l) : ar' = ar := by
  obtain ⟨aru, hend⟩ := EndsIn.exists (y.run ar)
  have hfit := hxy.fits ar hl aru hend
  by_cases hle : aru.size ≤ l
  · -- within the budget the run is the one without it, which settles
    rw [hfit.1 hle] at h
    rcases hy ar with ⟨v, ar'', hrun⟩ | ⟨e', hrun⟩
    · rw [hrun] at h
      cases h
    · rw [hrun] at h
      cases h
      rfl
  · obtain ⟨_, hrc, -⟩ := hfit.2 (by omega)
    rw [hrc] at h
    cases h
    exact absurd rfl he

/-- **Token errors come before allocation.** Under the budget, a token that fails for any
reason but the budget fails before it allocates anything. -/
theorem applyToken_error_keeps (t : Token) (stack : List Fragment) {ar ar' : Array State}
    {e : PatternError} (hl : ar.size ≤ l) (h : (applyToken (some l) t stack).run ar = .error e ar')
    (he : e ≠ .tooManyStates l) : ar' = ar :=
  (Agrees.applyToken l t stack).error_keeps (applyToken_settles t stack) hl h he

end Build

namespace Nfa

open Build

/-- **Compiling under a budget of `l` states.** The answer is that of the same
compilation without a budget, unless the latter ends with more than `l` states, and
then it is the budget failure. -/
theorem compileWith_budget (l : Nat) (ts : List Token) {ar : Array State}
    (hend : EndsIn ((construct none ts).run #[]) ar) :
    compileWith (some l) ts =
      if l < ar.size then .error (.tooManyStates l) else compileWith none ts := by
  have hfit := (Agrees.construct l ts).fits #[] (Nat.zero_le _) ar hend
  unfold compileWith
  by_cases hover : l < ar.size
  · obtain ⟨ar', hrun, -⟩ := hfit.2 hover
    rw [if_pos hover, hrun]
  · rw [if_neg hover, hfit.1 (by omega)]

/-- A stream whose automaton, built without a budget, has at most `2^20` states compiles
to that automaton within the budget. -/
theorem compile_of_size_le {ts : List Token} {a : Nfa} (h : compileWith none ts = .ok a)
    (hsize : a.states.size ≤ Build.maxStates) : compile ts = .ok a := by
  obtain ⟨ar, hend⟩ := EndsIn.exists ((construct none ts).run #[])
  -- the automaton's states are the arena the construction ends with
  have har : a.states = ar := by
    unfold compileWith at h
    split at h
    · rename_i f ar' hrun
      cases h
      rw [hrun, endsIn_ok] at hend
      exact hend.symm
    · cases h
  rw [har] at hsize
  unfold compile
  rw [compileWith_budget _ ts hend, if_neg (by omega), h]

/-- **The state budget.** Let `ar` be the arena the construction of a stream ends with
when no budget is set. Compiling under the budget of `2^20` states gives the answer of
the compilation without one, unless `ar` holds more than `2^20` states, and then the
budget failure; so an automaton of at most `2^20` states compiles. Under the budget the
arena never ends with more than `2^20` states, and a token that fails on anything but
the budget fails before it allocates. -/
theorem compile_budget (ts : List Token) (ar : Array State)
    (hend : EndsIn ((construct none ts).run #[]) ar) :
    (compile ts = if Build.maxStates < ar.size then .error (.tooManyStates Build.maxStates)
      else compileWith none ts) ∧
    (∀ a, compileWith none ts = .ok a → a.states.size ≤ Build.maxStates → compile ts = .ok a) ∧
    (∀ ar', EndsIn ((construct (some Build.maxStates) ts).run #[]) ar' →
      ar'.size ≤ Build.maxStates) ∧
    ∀ (t : Token) (stack : List Fragment) (ar₀ ar₁ : Array State) (e : PatternError),
      ar₀.size ≤ Build.maxStates →
      (Build.applyToken (some Build.maxStates) t stack).run ar₀ = .error e ar₁ →
      e ≠ .tooManyStates Build.maxStates → ar₁ = ar₀ := by
  refine ⟨compileWith_budget _ ts hend, fun _ h hsize => compile_of_size_le h hsize, ?_, ?_⟩
  · -- the run under the budget answers for the one without it, from the empty arena
    intro ar' hend'
    exact ((Agrees.construct _ ts).fits #[] (Nat.zero_le _)).size_le hend'
  · intro t stack ar₀ ar₁ e hl h he
    exact applyToken_error_keeps t stack hl h he

/-- One symbol needs two states, well within the budget. -/
theorem compile_budget_symbol :
    EndsIn ((construct none [.operand (.char 'a')]).run #[])
        #[⟨false, some (.char 'a', 1), #[]⟩, ⟨true, none, #[]⟩] ∧
      ((compile [.operand (.char 'a')] =
          if Build.maxStates < (#[⟨false, some (.char 'a', 1), #[]⟩, ⟨true, none, #[]⟩] :
              Array State).size then .error (.tooManyStates Build.maxStates)
          else compileWith none [.operand (.char 'a')]) ∧
        (∀ a, compileWith none [.operand (.char 'a')] = .ok a →
          a.states.size ≤ Build.maxStates → compile [.operand (.char 'a')] = .ok a) ∧
        (∀ ar', EndsIn ((construct (some Build.maxStates) [.operand (.char 'a')]).run #[]) ar' →
          ar'.size ≤ Build.maxStates) ∧
        ∀ (t : Token) (stack : List Fragment) (ar₀ ar₁ : Array State) (e : PatternError),
          ar₀.size ≤ Build.maxStates →
          (Build.applyToken (some Build.maxStates) t stack).run ar₀ = .error e ar₁ →
          e ≠ .tooManyStates Build.maxStates → ar₁ = ar₀) := by
  have hend : EndsIn ((construct none [.operand (.char 'a')]).run #[])
      #[⟨false, some (.char 'a', 1), #[]⟩, ⟨true, none, #[]⟩] := .inl ⟨⟨0, 1⟩, rfl⟩
  exact ⟨hend, compile_budget _ _ hend⟩

end Nfa

end SeqPattern
