import SeqPattern.Automaton.Basic
import SeqPattern.Pattern.Error
/-!
# Building automata from fragments

A fragment is a piece of automaton under construction, given by its entry and
exit states. The Thompson combinators below build fragments in a growing arena.
Each one allocates its new states in a fixed order, which fixes the numbering of
every compiled automaton:

- a symbol and the empty fragment allocate their entry, then their exit;
- union, option and loop allocate their new entry, then their new exit;
- a class allocates its entry, its exit, then one branch per member;
- a bounded repetition allocates its new exit first, then the links of its chain.

The arena may hold at most `cap` states, when a cap is given; allocating past it
fails with `tooManyStates`. A failing combinator keeps what it did before the
failure in the arena, since a builder driven step by step can still show it.
-/

namespace SeqPattern

/-- A fragment of automaton: its entry and exit states. -/
structure Fragment where
  /-- The state the fragment is entered by. -/
  entry : Nat
  /-- The state the fragment is left by. -/
  exit : Nat
deriving Repr, Inhabited, DecidableEq

/-- A computation over a growing arena that may fail with a pattern error; the arena
built up to a failure is kept. -/
abbrev Build := EStateM PatternError (Array State)

namespace Build

/-- The largest number of states an automaton may hold, `2^20`. -/
def maxStates : Nat := 1048576

/-- The number of states allocated so far. -/
def size : Build Nat := modifyGet fun ar => (ar.size, ar)

/-- The state at an index, or the empty state outside the arena. -/
def stateAt (i : Nat) : Build State :=
  modifyGet fun ar => (ar[i]?.getD (State.fresh false), ar)

/-- Allocates a fresh state, unless the arena already holds `cap` states. -/
def addState (cap : Option Nat) (accepting : Bool) : Build Nat := do
  let n ← size
  match cap with
  | some limit => if limit ≤ n then throw (.tooManyStates limit)
  | none => pure ()
  modify (·.push (State.fresh accepting))
  pure n

/-- Adds an epsilon edge. -/
def addEps (src dst : Nat) : Build Unit :=
  modify fun ar => ar.modify src fun s => { s with eps := s.eps.push dst }

/-- Sets the symbol edge of a state. -/
def setEdge (src : Nat) (label : Symbol) (dst : Nat) : Build Unit :=
  modify fun ar => ar.modify src fun s => { s with edge := some (label, dst) }

/-- Removes the symbol edge of a state. -/
def clearEdge (src : Nat) : Build Unit :=
  modify fun ar => ar.modify src fun s => { s with edge := none }

/-- Makes a state non-accepting. -/
def demote (i : Nat) : Build Unit :=
  modify fun ar => ar.modify i fun s => { s with accepting := false }

/-! ## Combinators -/

/-- The fragment of the empty sequence. -/
def epsilon (cap : Option Nat) : Build Fragment := do
  let entry ← addState cap false
  let exit ← addState cap true
  addEps entry exit
  pure ⟨entry, exit⟩

/-- The fragment of one symbol. -/
def symbol (cap : Option Nat) (label : Symbol) : Build Fragment := do
  let entry ← addState cap false
  let exit ← addState cap true
  setEdge entry label exit
  pure ⟨entry, exit⟩

/-- Concatenation: the first fragment's exit leads to the second's entry. -/
def concat (a b : Fragment) : Build Fragment := do
  addEps a.exit b.entry
  demote a.exit
  pure ⟨a.entry, b.exit⟩

/-- Alternation: a new entry leads to both entries, both exits lead to a new exit. -/
def union (cap : Option Nat) (a b : Fragment) : Build Fragment := do
  let entry ← addState cap false
  addEps entry a.entry
  addEps entry b.entry
  let exit ← addState cap true
  addEps a.exit exit
  demote a.exit
  addEps b.exit exit
  demote b.exit
  pure ⟨entry, exit⟩

/-- Zero or one: a new entry leads to the new exit directly or through the fragment. -/
def optional (cap : Option Nat) (a : Fragment) : Build Fragment := do
  let entry ← addState cap false
  let exit ← addState cap true
  addEps entry exit
  addEps entry a.entry
  addEps a.exit exit
  demote a.exit
  pure ⟨entry, exit⟩

/-- A loop around a body: the new entry leads to the new exit or into the body, and the
body's exit leads to the new exit or back into the body. -/
def loopAround (cap : Option Nat) (bodyEntry bodyExit : Nat) : Build Fragment := do
  let entry ← addState cap false
  let exit ← addState cap true
  addEps entry exit
  addEps entry bodyEntry
  addEps bodyExit exit
  addEps bodyExit bodyEntry
  demote bodyExit
  pure ⟨entry, exit⟩

/-- Zero or more. -/
def closure (cap : Option Nat) (a : Fragment) : Build Fragment := loopAround cap a.entry a.exit

/-- One or more: the fragment followed by a loop around the fragment itself. -/
def oneOrMore (cap : Option Nat) (a : Fragment) : Build Fragment := do
  demote a.exit
  let r ← loopAround cap a.entry a.exit
  concat a r

/-- Adds one branch per member, each from `entry` to `exit` over the member. -/
def addBranches (cap : Option Nat) (entry exit : Nat) : List Symbol → Build Unit
  | [] => pure ()
  | m :: ms => do
    let branch ← addState cap false
    addEps entry branch
    setEdge branch m exit
    addBranches cap entry exit ms

/-- Exactly one of the members, each on a branch of its own. -/
def charClass (cap : Option Nat) (members : List Symbol) : Build Fragment := do
  let entry ← addState cap false
  let exit ← addState cap true
  addBranches cap entry exit members
  pure ⟨entry, exit⟩

/-- The label of a fragment that is a single symbol edge and nothing else. -/
def singleSymbol (a : Fragment) : Build (Option Symbol) := do
  let s ← stateAt a.entry
  let e ← stateAt a.exit
  match s.edge with
  | some (label, target) =>
    if target = a.exit && s.eps.isEmpty && e.edge.isNone && e.eps.isEmpty then pure (some label)
    else pure none
  | none => pure none

/-- Extends a chain of links over `label` by `k` new links, the last link first in
`chain`. -/
def extendChain (cap : Option Nat) (label : Symbol) : Nat → List Nat → Build (List Nat)
  | 0, chain => pure chain
  | k + 1, chain => do
    let next ← addState cap false
    setEdge (chain.headD 0) label next
    extendChain cap label k (next :: chain)

/-- The chain of a bounded repetition of the single-symbol fragment `a` over `label`:
`max` edges over the label, whose links from the `min`-th on lead to a new exit. -/
def repeatChain (cap : Option Nat) (a : Fragment) (label : Symbol) (min max : Nat) :
    Build Fragment := do
  let exit ← addState cap true
  demote a.exit
  let chain ← if max = 0 then do
      clearEdge a.entry
      pure [a.entry]
    else do
      let links ← extendChain cap label (max - 1) [a.exit, a.entry]
      pure links.reverse
  (chain.drop min).forM fun link => addEps link exit
  pure ⟨a.entry, exit⟩

/-- Between `min` and `max` copies of a single symbol, checked up front: the range, that
the fragment is a single symbol, and that the chain fits the cap. -/
def boundedRepeat (cap : Option Nat) (a : Fragment) (min max : Nat) : Build Fragment := do
  if max < min || 10000 < max then throw (.repeatRange min max)
  let some label ← singleSymbol a | throw .repeatOnGroup
  let n ← size
  match cap with
  | some limit => if limit < n + max then throw (.tooManyStates limit)
  | none => pure ()
  repeatChain cap a label min max

end Build

end SeqPattern
