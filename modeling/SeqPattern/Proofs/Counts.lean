import Mathlib
import SeqPattern.Proofs.InRange
/-!
# How many states and epsilon edges a compiled automaton has

Each token of a reverse Polish stream adds a fixed number of states and epsilon edges
to the arena, whatever the fragments it works on:

| token | states | epsilon edges |
|---|---|---|
| operand | 2 | 0 |
| class of `n` members | `2 + n` | `n` |
| alternation | 2 | 4 |
| concatenation | 0 | 1 |
| zero or one | 2 | 3 |
| zero or more | 2 | 4 |
| one or more | 2 | 5 |
| `min` to `max` copies | `max`, and 1 when `max = 0` | `max - min + 1` |

One or more shares its operand's states with the loop it builds around it, and a
bounded repetition reuses the two states of its single-symbol operand as the first two
links of its chain, so it allocates only its new exit and the `max - 1` further links.
The empty stream compiles to the automaton of the empty sequence, two states and one
edge.

The epsilon edges of an arena are counted state by state (`Arena.epsTotal`). A new
state brings none; an edge added at a state of the arena brings one; every other
update keeps the count. Each combinator is unfolded once into these updates, and the
operands' exits it writes to lie in the arena because the compiler's stack tiles it
(`Layout.Tiling`). What a run adds is `Build.Grows`, and runs compose by adding.

Main statements: `Build.applyTokens_grows` and `Nfa.compile_counts`.
-/

namespace SeqPattern

/-! ## The cost of a token -/

namespace Token

/-- The states a token adds to the arena. -/
def stateCost : Token → Nat
  | .operand _ => 2
  | .charClass ms => 2 + ms.length
  | .alt | .opt | .star | .plus => 2
  | .cat => 0
  | .rep _ max => if max = 0 then 1 else max
  | .openGroup | .closeGroup => 0

/-- The epsilon edges a token adds to the arena. -/
def epsCost : Token → Nat
  | .operand _ => 0
  | .charClass ms => ms.length
  | .alt => 4
  | .cat => 1
  | .opt => 3
  | .star => 4
  | .plus => 5
  | .rep min max => max - min + 1
  | .openGroup | .closeGroup => 0

end Token

/-! ## Counting epsilon edges -/

namespace Arena

open Finset

variable {ar : Array State}

/-- The epsilon edges of an arena, summed over its states. -/
def epsTotal (ar : Array State) : Nat := ∑ i ∈ range ar.size, (get ar i).eps.size

@[simp] theorem epsTotal_empty : epsTotal #[] = 0 := rfl

@[simp] theorem epsTotal_push (s : State) : epsTotal (ar.push s) = epsTotal ar + s.eps.size := by
  unfold epsTotal
  rw [Array.size_push, sum_range_succ, get_push, if_pos rfl]
  congr 1
  refine sum_congr rfl fun j hj => ?_
  rw [get_push, if_neg (Nat.ne_of_gt (mem_range.mp hj))]

/-- An update of one state changes exactly its own summand; outside the arena it
changes nothing. -/
theorem epsTotal_modify (i : Nat) (g : State → State) :
    epsTotal (ar.modify i g) + (if i < ar.size then (get ar i).eps.size else 0) =
      epsTotal ar + (if i < ar.size then (g (get ar i)).eps.size else 0) := by
  unfold epsTotal
  rw [Array.size_modify]
  by_cases hi : i < ar.size
  · rw [if_pos hi, if_pos hi, ← add_sum_erase _ _ (mem_range.mpr hi),
      ← add_sum_erase _ _ (mem_range.mpr hi)]
    have hrest : ∑ j ∈ (range ar.size).erase i, (get (ar.modify i g) j).eps.size =
        ∑ j ∈ (range ar.size).erase i, (get ar j).eps.size :=
      sum_congr rfl fun j hj => by
        rw [get_modify, if_neg fun h : i = j ∧ j < ar.size => (mem_erase.mp hj).1 h.1.symm]
    rw [hrest, get_modify, if_pos ⟨rfl, hi⟩]
    omega
  · rw [if_neg hi, if_neg hi]
    refine congrArg (· + 0) (sum_congr rfl fun j _ => ?_)
    rw [get_modify, if_neg fun h : i = j ∧ j < ar.size => hi (h.1 ▸ h.2)]

/-- An epsilon edge added at a state of the arena is one more edge. -/
@[simp] theorem epsTotal_addEps {i : Nat} (d : Nat) (hi : i < ar.size) :
    epsTotal (ar.modify i fun s => { s with eps := s.eps.push d }) = epsTotal ar + 1 := by
  have h := @epsTotal_modify ar i fun s => { s with eps := s.eps.push d }
  simp only [hi, if_true, Array.size_push] at h
  omega

theorem epsTotal_modify_keep (i : Nat) {g : State → State} (hg : ∀ s, (g s).eps = s.eps) :
    epsTotal (ar.modify i g) = epsTotal ar := by
  have h := @epsTotal_modify ar i g
  rw [hg] at h
  omega

@[simp] theorem epsTotal_setEdge (i : Nat) (label : Symbol) (d : Nat) :
    epsTotal (ar.modify i fun s => { s with edge := some (label, d) }) = epsTotal ar :=
  epsTotal_modify_keep i fun _ => rfl

@[simp] theorem epsTotal_clearEdge (i : Nat) :
    epsTotal (ar.modify i fun s => { s with edge := none }) = epsTotal ar :=
  epsTotal_modify_keep i fun _ => rfl

@[simp] theorem epsTotal_demote (i : Nat) :
    epsTotal (ar.modify i fun s => { s with accepting := false }) = epsTotal ar :=
  epsTotal_modify_keep i fun _ => rfl

end Arena

namespace Build

open Arena

/-! ## What a run adds -/

/-- The arena went from `ar` to `ar'` by `k` new states and `e` new epsilon edges. -/
structure Grows (ar ar' : Array State) (k e : Nat) : Prop where
  size_eq : ar'.size = ar.size + k
  eps_eq : epsTotal ar' = epsTotal ar + e

variable {cap : Option Nat} {ar ar' ar'' : Array State} {k e k' e' : Nat}

theorem Grows.refl (ar : Array State) : Grows ar ar 0 0 := ⟨rfl, rfl⟩

theorem Grows.trans (h : Grows ar ar' k e) (h' : Grows ar' ar'' k' e') :
    Grows ar ar'' (k + k') (e + e') := by
  obtain ⟨hk, he⟩ := h
  obtain ⟨hk', he'⟩ := h'
  exact ⟨by omega, by omega⟩

/-- An update that keeps a state's epsilon edges adds nothing. -/
theorem grows_modify (i : Nat) {g : State → State} (hg : ∀ s, (g s).eps = s.eps) :
    Grows ar (ar.modify i g) 0 0 :=
  ⟨Array.size_modify .., epsTotal_modify_keep i hg⟩

theorem Grows.of_eq (h : Grows ar ar' k e) (hk : k = k') (he : e = e') : Grows ar ar' k' e' :=
  hk ▸ he ▸ h

/-! ## The combinators -/

theorem epsilon_grows {f : Fragment} (h : (epsilon cap).run ar = .ok f ar') : Grows ar ar' 2 1 := by
  simp only [epsilon, run_bind_eq_ok, run_addState_eq_ok, run_addEps, EStateM.run_pure,
    EStateM.Result.ok.injEq] at h
  obtain ⟨_, _, ⟨-, rfl, rfl⟩, _, _, ⟨-, rfl, rfl⟩, _, _, ⟨-, rfl⟩, rfl, rfl⟩ := h
  constructor
  · simp
  · simp (disch := simp only [Array.size_push]; omega) [State.fresh]

theorem symbol_grows {label : Symbol} {f : Fragment} (h : (symbol cap label).run ar = .ok f ar') :
    Grows ar ar' 2 0 := by
  simp only [symbol, run_bind_eq_ok, run_addState_eq_ok, run_setEdge, EStateM.run_pure,
    EStateM.Result.ok.injEq] at h
  obtain ⟨_, _, ⟨-, rfl, rfl⟩, _, _, ⟨-, rfl, rfl⟩, _, _, ⟨-, rfl⟩, rfl, rfl⟩ := h
  constructor <;> simp [State.fresh]

theorem concat_grows {a b f : Fragment} (h : (concat a b).run ar = .ok f ar')
    (ha : a.exit < ar.size) : Grows ar ar' 0 1 := by
  simp only [concat, run_bind_eq_ok, run_addEps, run_demote, EStateM.run_pure,
    EStateM.Result.ok.injEq] at h
  obtain ⟨_, _, ⟨-, rfl⟩, _, _, ⟨-, rfl⟩, rfl, rfl⟩ := h
  constructor <;> simp [ha]

theorem union_grows {a b f : Fragment} (h : (union cap a b).run ar = .ok f ar')
    (ha : a.exit < ar.size) (hb : b.exit < ar.size) : Grows ar ar' 2 4 := by
  simp only [union, run_bind_eq_ok, run_addState_eq_ok, run_addEps, run_demote, EStateM.run_pure,
    EStateM.Result.ok.injEq] at h
  obtain ⟨_, _, ⟨-, rfl, rfl⟩, _, _, ⟨-, rfl⟩, _, _, ⟨-, rfl⟩, _, _, ⟨-, rfl, rfl⟩, _, _, ⟨-, rfl⟩,
    _, _, ⟨-, rfl⟩, _, _, ⟨-, rfl⟩, _, _, ⟨-, rfl⟩, rfl, rfl⟩ := h
  constructor
  · simp
  · simp (disch := simp only [Array.size_push, Array.size_modify]; omega) [State.fresh]

theorem optional_grows {a f : Fragment} (h : (optional cap a).run ar = .ok f ar')
    (ha : a.exit < ar.size) : Grows ar ar' 2 3 := by
  simp only [optional, run_bind_eq_ok, run_addState_eq_ok, run_addEps, run_demote,
    EStateM.run_pure, EStateM.Result.ok.injEq] at h
  obtain ⟨_, _, ⟨-, rfl, rfl⟩, _, _, ⟨-, rfl, rfl⟩, _, _, ⟨-, rfl⟩, _, _, ⟨-, rfl⟩, _, _, ⟨-, rfl⟩,
    _, _, ⟨-, rfl⟩, rfl, rfl⟩ := h
  constructor
  · simp
  · simp (disch := simp only [Array.size_push, Array.size_modify]; omega) [State.fresh]

theorem loopAround_grows {bodyEntry bodyExit : Nat} {f : Fragment}
    (h : (loopAround cap bodyEntry bodyExit).run ar = .ok f ar') (hb : bodyExit < ar.size) :
    Grows ar ar' 2 4 := by
  simp only [loopAround, run_bind_eq_ok, run_addState_eq_ok, run_addEps, run_demote,
    EStateM.run_pure, EStateM.Result.ok.injEq] at h
  obtain ⟨_, _, ⟨-, rfl, rfl⟩, _, _, ⟨-, rfl, rfl⟩, _, _, ⟨-, rfl⟩, _, _, ⟨-, rfl⟩, _, _, ⟨-, rfl⟩,
    _, _, ⟨-, rfl⟩, _, _, ⟨-, rfl⟩, rfl, rfl⟩ := h
  constructor
  · simp
  · simp (disch := simp only [Array.size_push, Array.size_modify]; omega) [State.fresh]

theorem closure_grows {a f : Fragment} (h : (closure cap a).run ar = .ok f ar')
    (ha : a.exit < ar.size) : Grows ar ar' 2 4 :=
  loopAround_grows h ha

/-- One or more adds the loop's two states and four edges, and one edge from the
operand's exit into the loop. -/
theorem oneOrMore_grows {a f : Fragment} (h : (oneOrMore cap a).run ar = .ok f ar')
    (ha : a.exit < ar.size) : Grows ar ar' 2 5 := by
  simp only [oneOrMore, run_bind_eq_ok, run_demote] at h
  obtain ⟨_, ar₁, ⟨-, rfl⟩, r, ar₂, hloop, hcat⟩ := h
  have hdemote : Grows ar (ar.modify a.exit fun s => { s with accepting := false }) 0 0 :=
    grows_modify a.exit fun _ => rfl
  have hloop' := loopAround_grows hloop (by simpa using ha)
  have hcat' := concat_grows hcat (by rw [hloop'.size_eq, hdemote.size_eq]; omega)
  exact (hdemote.trans hloop').trans hcat'

/-- Each member of a class adds a branch state and an epsilon edge to it. -/
theorem addBranches_grows {entry exit : Nat} (ms : List Symbol) :
    ∀ {ar ar' : Array State}, (addBranches cap entry exit ms).run ar = .ok () ar' →
      entry < ar.size → Grows ar ar' ms.length ms.length := by
  induction ms with
  | nil =>
    intro ar ar' h _
    simp only [addBranches, EStateM.run_pure, EStateM.Result.ok.injEq] at h
    obtain ⟨-, rfl⟩ := h
    exact .refl ar
  | cons m ms ih =>
    intro ar ar' h hentry
    simp only [addBranches, run_bind_eq_ok, run_addState_eq_ok, run_addEps, run_setEdge] at h
    obtain ⟨_, _, ⟨-, rfl, rfl⟩, _, _, ⟨-, rfl⟩, _, _, ⟨-, rfl⟩, hrest⟩ := h
    have hbranch : Grows ar (((ar.push (State.fresh false)).modify entry fun s =>
        { s with eps := s.eps.push ar.size }).modify ar.size fun s =>
          { s with edge := some (m, exit) }) 1 1 := by
      constructor
      · simp
      · simp (disch := simp only [Array.size_push]; omega) [State.fresh]
    have hentry' : entry < (((ar.push (State.fresh false)).modify entry fun s =>
        { s with eps := s.eps.push ar.size }).modify ar.size fun s =>
          { s with edge := some (m, exit) }).size := by
      simp only [Array.size_modify, Array.size_push]
      omega
    exact (hbranch.trans (ih hrest hentry')).of_eq (by rw [List.length_cons]; omega)
      (by rw [List.length_cons]; omega)

theorem charClass_grows {ms : List Symbol} {f : Fragment} (h : (charClass cap ms).run ar = .ok f ar') :
    Grows ar ar' (2 + ms.length) ms.length := by
  simp only [charClass, run_bind_eq_ok, run_addState_eq_ok, EStateM.run_pure,
    EStateM.Result.ok.injEq] at h
  obtain ⟨_, _, ⟨-, rfl, rfl⟩, _, _, ⟨-, rfl, rfl⟩, _, ar₃, hbranches, rfl, rfl⟩ := h
  have hpair : Grows ar ((ar.push (State.fresh false)).push (State.fresh true)) 2 0 := by
    constructor <;> simp [State.fresh]
  have hentry : ar.size < ((ar.push (State.fresh false)).push (State.fresh true)).size := by
    simp only [Array.size_push]
    omega
  exact (hpair.trans (addBranches_grows ms hbranches hentry)).of_eq rfl (Nat.zero_add _)

/-! ## The bounded repetition -/

/-- Extending a chain allocates its new links and adds no epsilon edge. -/
theorem extendChain_grows {label : Symbol} (k : Nat) :
    ∀ {chain links : List Nat} {ar ar' : Array State},
      (extendChain cap label k chain).run ar = .ok links ar' → Grows ar ar' k 0 := by
  induction k with
  | zero =>
    intro chain links ar ar' h
    simp only [extendChain, EStateM.run_pure, EStateM.Result.ok.injEq] at h
    obtain ⟨-, rfl⟩ := h
    exact .refl ar
  | succ k ih =>
    intro chain links ar ar' h
    simp only [extendChain, run_bind_eq_ok, run_addState_eq_ok, run_setEdge] at h
    obtain ⟨_, _, ⟨-, rfl, rfl⟩, _, _, ⟨-, rfl⟩, hrest⟩ := h
    have hlink : Grows ar ((ar.push (State.fresh false)).modify (chain.headD 0) fun s =>
        { s with edge := some (label, ar.size) }) 1 0 := by
      constructor <;> simp [State.fresh]
    exact (hlink.trans (ih hrest)).of_eq (Nat.add_comm 1 k) rfl

/-- Linking each of a list of states of the arena to one target adds one epsilon edge
per state. -/
theorem forM_addEps_grows {exit : Nat} (l : List Nat) :
    ∀ {ar ar' : Array State}, (l.forM fun link => addEps link exit).run ar = .ok () ar' →
      (∀ x ∈ l, x < ar.size) → Grows ar ar' 0 l.length := by
  induction l with
  | nil =>
    intro ar ar' h _
    simp only [List.forM, EStateM.run_pure, EStateM.Result.ok.injEq] at h
    obtain ⟨-, rfl⟩ := h
    exact .refl ar
  | cons x l ih =>
    intro ar ar' h hlt
    simp only [List.forM, run_bind_eq_ok, run_addEps] at h
    obtain ⟨_, _, ⟨-, rfl⟩, hrest⟩ := h
    have hedge : Grows ar (ar.modify x fun s => { s with eps := s.eps.push exit }) 0 1 :=
      ⟨Array.size_modify .., epsTotal_addEps exit (hlt x List.mem_cons_self)⟩
    have hrest' := ih hrest fun y hy => by
      simpa only [Array.size_modify] using hlt y (List.mem_cons_of_mem _ hy)
    exact (hedge.trans hrest').of_eq rfl (by rw [List.length_cons]; omega)

/-- The chain of a bounded repetition adds its new exit and `max - 1` new links (one
state when `max = 0`), and an epsilon edge from each of its `max + 1` links from the
`min`-th on. -/
theorem repeatChain_grows {a f : Fragment} {label : Symbol} {min max : Nat}
    (h : (repeatChain cap a label min max).run ar = .ok f ar')
    (he : a.entry < ar.size) (hx : a.exit < ar.size) :
    Grows ar ar' (if max = 0 then 1 else max) (max + 1 - min) := by
  simp only [repeatChain, run_bind_eq_ok, run_addState_eq_ok] at h
  obtain ⟨_, _, ⟨-, rfl, rfl⟩, _, ar₂, hdemote, h⟩ := h
  have hexit : Grows ar ar₂ 1 0 := by
    rw [run_demote] at hdemote
    cases hdemote
    constructor <;> simp [State.fresh]
  have he₂ : a.entry < ar₂.size := by
    rw [hexit.size_eq]
    omega
  have hx₂ : a.exit < ar₂.size := by
    rw [hexit.size_eq]
    omega
  -- the chain is the entry alone, or the entry, the old exit and `max - 1` new links
  split at h
  · rename_i h0
    subst h0
    simp only [run_bind_eq_ok, run_clearEdge, EStateM.run_pure, EStateM.Result.ok.injEq] at h
    obtain ⟨_, _, ⟨-, rfl⟩, _, _, ⟨rfl, rfl⟩, _, _, hfor, rfl, rfl⟩ := h
    have hclear : Grows ar₂ (ar₂.modify a.entry fun s => { s with edge := none }) 0 0 :=
      grows_modify a.entry fun _ => rfl
    have hlinks := forM_addEps_grows _ hfor fun x hmem => by
      obtain rfl : x = a.entry := List.mem_singleton.mp (List.mem_of_mem_drop hmem)
      rw [hclear.size_eq]
      exact he₂
    exact ((hexit.trans hclear).trans hlinks).of_eq rfl
      (by simp only [List.length_drop, List.length_singleton]; omega)
  · rename_i h0
    obtain ⟨m, rfl⟩ := Nat.exists_eq_add_one_of_ne_zero h0
    simp only [run_bind_eq_ok, EStateM.run_pure, Nat.add_sub_cancel,
      EStateM.Result.ok.injEq] at h
    obtain ⟨links, _, hext, _, _, ⟨rfl, rfl⟩, _, _, hfor, rfl, rfl⟩ := h
    have hgrow := extendChain_grows m hext
    obtain ⟨hlinks, -⟩ := extendChain_spec m hext hx₂
    -- the links are the entry, the old exit and the new states, all in the arena
    have hlinks' := forM_addEps_grows _ hfor fun x hmem => by
      rw [hgrow.size_eq]
      simp only [hlinks, List.reverse_append, List.reverse_reverse, List.reverse_cons,
        List.reverse_nil, List.nil_append, List.cons_append] at hmem
      rcases List.mem_cons.mp (List.mem_of_mem_drop hmem) with rfl | hmem
      · omega
      rcases List.mem_cons.mp hmem with rfl | hmem
      · omega
      obtain ⟨t, ht, rfl⟩ := List.mem_map.mp hmem
      rw [List.mem_range] at ht
      omega
    have hlen : (links.reverse.drop min).length = m + 1 + 1 - min := by
      simp only [hlinks, List.length_drop, List.length_reverse, List.length_append,
        List.length_map, List.length_range, List.length_cons, List.length_nil]
    exact ((hexit.trans hgrow).trans hlinks').of_eq (by rw [if_neg (Nat.succ_ne_zero m)]; omega)
      (by omega)

/-- A bounded repetition adds the states of its chain and `max - min + 1` epsilon
edges; it succeeds only with `min ≤ max`. -/
theorem boundedRepeat_grows {a f : Fragment} {min max : Nat}
    (h : (boundedRepeat cap a min max).run ar = .ok f ar')
    (he : a.entry < ar.size) (hx : a.exit < ar.size) :
    Grows ar ar' (if max = 0 then 1 else max) (max - min + 1) := by
  unfold boundedRepeat at h
  obtain ⟨hrange, h⟩ := run_guard_eq_ok h
  simp only [run_bind_eq_ok] at h
  obtain ⟨r, ar₁, hsym, h⟩ := h
  obtain ⟨rfl, -⟩ := singleSymbol_spec hsym
  cases r with
  | none => cases h
  | some label =>
    simp only [run_bind_eq_ok, run_size] at h
    obtain ⟨_, _, ⟨rfl, rfl⟩, h⟩ := h
    obtain ⟨-, h⟩ := run_capGuard_eq_ok h
    have hle : min ≤ max := by
      simp only [Bool.or_eq_true, decide_eq_true_eq, not_or, Nat.not_lt] at hrange
      exact hrange.1
    exact (repeatChain_grows h he hx).of_eq rfl (by omega)

/-! ## The compiler's loop -/

open Layout

/-- **One token adds its cost.** On a stack that tiles the arena, a token that succeeds
adds the states and epsilon edges of its cost. -/
theorem applyToken_grows {t : Token} {stack stack' : List Fragment}
    (ht : Tiling ar ar.size stack) (h : (applyToken cap t stack).run ar = .ok stack' ar') :
    Grows ar ar' t.stateCost t.epsCost := by
  -- the operands' ends lie in the arena, since the stack tiles it
  have hends := ht.ends_lt
  cases TokenRun.of_applyToken h with
  | operand hf => exact symbol_grows hf
  | charClass hf => exact charClass_grows hf
  | alt hf => exact union_grows hf (hends _ (by simp)).2.1 (hends _ (by simp)).2.1
  | cat hf => exact concat_grows hf (hends _ (by simp)).2.1
  | opt hf => exact optional_grows hf (hends _ (by simp)).2.1
  | star hf => exact closure_grows hf (hends _ (by simp)).2.1
  | plus hf => exact oneOrMore_grows hf (hends _ (by simp)).2.1
  | rep hf => exact boundedRepeat_grows hf (hends _ (by simp)).1 (hends _ (by simp)).2.1

/-- **A run of the loop adds the costs of its tokens**, by induction on the stream; the
tiling of the stack is carried along. -/
theorem applyTokens_grows (ts : List Token) :
    ∀ {ar ar' : Array State} {stack stack' : List Fragment}, Tiling ar ar.size stack →
      (applyTokens cap ts stack).run ar = .ok stack' ar' →
      Grows ar ar' (ts.map Token.stateCost).sum (ts.map Token.epsCost).sum := by
  induction ts with
  | nil =>
    intro ar ar' stack stack' _ h
    simp only [applyTokens, EStateM.run_pure, EStateM.Result.ok.injEq] at h
    obtain ⟨-, rfl⟩ := h
    exact .refl ar
  | cons t ts ih =>
    intro ar ar' stack stack' ht h
    simp only [applyTokens, run_bind_eq_ok] at h
    obtain ⟨mid, ar₁, hstep, hrest⟩ := h
    exact ((applyToken_grows ht hstep).trans (ih (ht.applyToken hstep) hrest)).of_eq
      (by simp only [List.map_cons, List.sum_cons]) (by simp only [List.map_cons, List.sum_cons])

end Build

namespace Nfa

/-- The epsilon edges of an automaton are those of its arena. -/
theorem epsilonCount_ofFragment (ar : Array State) (f : Fragment) :
    (ofFragment ar f).epsilonCount = Arena.epsTotal ar := by
  rw [epsilonCount_eq_sum]
  rfl

open Build Layout

/-- Under any cap, an automaton compiled from a stream has the states and epsilon edges
of the stream's costs, and the empty stream gives two states and one edge. -/
theorem compileWith_counts {cap : Option Nat} {ts : List Token} {a : Nfa}
    (h : compileWith cap ts = .ok a) :
    a.stateCount = (if ts = [] then 2 else (ts.map Token.stateCost).sum) ∧
      a.epsilonCount = (if ts = [] then 1 else (ts.map Token.epsCost).sum) := by
  unfold compileWith construct at h
  cases ts with
  | nil =>
    dsimp only at h
    split at h
    · rename_i f ar hrun
      cases h
      obtain ⟨hsize, heps⟩ := epsilon_grows hrun
      exact ⟨hsize, by rw [epsilonCount_ofFragment, heps]; rfl⟩
    · cases h
  | cons t ts =>
    dsimp only at h
    split at h
    · rename_i f ar hrun
      cases h
      simp only [run_bind_eq_ok] at hrun
      obtain ⟨stack, ar₁, hstack, hlast⟩ := hrun
      obtain ⟨hsize, heps⟩ := applyTokens_grows (t :: ts) Tiling.nil hstack
      -- the loop's one fragment is returned as it is
      split at hlast
      · simp only [EStateM.run_pure, EStateM.Result.ok.injEq] at hlast
        obtain ⟨rfl, rfl⟩ := hlast
        rw [if_neg (List.cons_ne_nil t ts), if_neg (List.cons_ne_nil t ts)]
        constructor
        · show ar₁.size = _
          rw [hsize, Array.size_empty, Nat.zero_add]
        · rw [epsilonCount_ofFragment, heps, Arena.epsTotal_empty, Nat.zero_add]
      · cases hlast
    · cases h

/-- **The size of a compiled automaton.** A stream that compiles gives an automaton
whose states and epsilon edges are the sums of its tokens' costs (`Token.stateCost`,
`Token.epsCost`); the empty stream gives the automaton of the empty sequence, with two
states and one edge. -/
theorem compile_counts (ts : List Token) (a : Nfa) (h : compile ts = .ok a) :
    a.stateCount = (if ts = [] then 2 else (ts.map Token.stateCost).sum) ∧
      a.epsilonCount = (if ts = [] then 1 else (ts.map Token.epsCost).sum) :=
  compileWith_counts h

/-- A class, a symbol repeated twice or thrice, and one or more of a symbol. -/
theorem compile_counts_class_repeat_plus :
    ∃ a, compile [.charClass [.char 'a', .char 'b'], .operand (.char 'c'), .rep 2 3, .cat,
        .operand (.char 'd'), .plus, .cat] = .ok a ∧
      a.stateCount = 13 ∧ a.epsilonCount = 11 := by
  obtain ⟨a, ha⟩ : ∃ a, compile [.charClass [.char 'a', .char 'b'], .operand (.char 'c'),
      .rep 2 3, .cat, .operand (.char 'd'), .plus, .cat] = .ok a := ⟨_, rfl⟩
  obtain ⟨hstates, hedges⟩ := compile_counts _ a ha
  exact ⟨a, ha, by rw [hstates]; decide, by rw [hedges]; decide⟩

end Nfa

end SeqPattern
