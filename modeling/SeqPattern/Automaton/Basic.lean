import SeqPattern.Symbol
/-!
# Automata in an arena

An automaton is an array of states, its arena, with a designated start and exit
state, both arena indices. A state may be accepting, has at most one symbol edge,
and any number of epsilon edges, kept in the order they were added. Indices are
observable: the order in which states were allocated is part of what an automaton
is.

Reading a state outside the arena gives the empty state, which accepts nothing
and has no edge; automata built by this library never do so.
-/

namespace SeqPattern

/-- One state of an arena. -/
structure State where
  /-- Whether the state accepts. -/
  accepting : Bool
  /-- The symbol edge: its label and target, if any. -/
  edge : Option (Symbol × Nat)
  /-- The epsilon edges' targets, in insertion order. -/
  eps : Array Nat
deriving Repr, Inhabited, DecidableEq

namespace State

/-- A fresh state without edges. -/
def fresh (accepting : Bool) : State := ⟨accepting, none, #[]⟩

/-- The label of the symbol edge, if any. -/
def edgeSymbol (s : State) : Option Symbol := s.edge.map Prod.fst

/-- The target reached by consuming `input`, when the symbol edge's label accepts it;
the wildcard refuses the terminator `term`. -/
def step (s : State) (input term : Symbol) : Option Nat :=
  match s.edge with
  | some (label, target) => if label.accepts input term then some target else none
  | none => none

end State

/-- A compiled automaton: the arena with its start and exit states. -/
structure Nfa where
  /-- The arena, indexed by state number. -/
  states : Array State
  /-- The state the automaton starts in. -/
  start : Nat
  /-- The designated exit state of the whole automaton. -/
  exit : Nat
deriving Repr, Inhabited

namespace Nfa

/-- The number of states. -/
def stateCount (a : Nfa) : Nat := a.states.size

/-- The state at an index; outside the arena, the empty state. -/
def stateAt (a : Nfa) (i : Nat) : State := a.states[i]?.getD (State.fresh false)

/-- The total number of epsilon edges. -/
def epsilonCount (a : Nfa) : Nat := a.states.foldl (fun n s => n + s.eps.size) 0

/-- Whether any of the given states accepts. -/
def anyAccepting (a : Nfa) (ids : List Nat) : Bool := ids.any fun i => (a.stateAt i).accepting

end Nfa

end SeqPattern
