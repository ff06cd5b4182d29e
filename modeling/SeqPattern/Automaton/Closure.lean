import SeqPattern.Automaton.Basic
import SeqPattern.Input
/-!
# Epsilon closure and matching

The epsilon closure of a list of seed states is every state reachable from a seed
over epsilon edges alone, each once, in depth-first discovery order: the seeds are
explored in order, a state's first epsilon edge first, and a state already
discovered is skipped when it is reached again. Stepping a closed set of states on
an input symbol follows each state's matching symbol edge, in the order of the
states, and closes the targets. A sequence matches when an accepting state is live
after the whole sequence, with the terminator as the one symbol the wildcard
refuses.
-/

namespace SeqPattern

namespace Nfa

/-- The depth-first search behind the closure: `stack` holds the states still to
reach, top first, `seen` the discovered states, and `out` the closure so far, last
first. Each round pops one state, and `fuel` bounds the rounds. -/
def closureGo (a : Nfa) : Nat → List Nat → Array Bool → List Nat → List Nat
  | 0, _, _, out => out.reverse
  | _, [], _, out => out.reverse
  | fuel + 1, i :: stack, seen, out =>
    if seen[i]?.getD true then a.closureGo fuel stack seen out
    else a.closureGo fuel ((a.stateAt i).eps.toList ++ stack) (seen.set! i true) (i :: out)

/-- Enough rounds for the closure of `seeds`: every round pops a seed or the target of
an epsilon edge of a state discovered once. -/
def closureFuel (a : Nfa) (seeds : List Nat) : Nat := seeds.length + a.epsilonCount + 1

/-- The epsilon closure of the seeds, in depth-first discovery order. -/
def closure (a : Nfa) (seeds : List Nat) : List Nat :=
  a.closureGo (a.closureFuel seeds) seeds (Array.replicate a.stateCount false) []

/-- The states live before any input. -/
def startClosure (a : Nfa) : List Nat := a.closure [a.start]

/-- The closed set of states reached from `live` by consuming `input`; the wildcard
refuses `term`. -/
def step (a : Nfa) (live : List Nat) (input term : Symbol) : List Nat :=
  a.closure (live.filterMap fun i => (a.stateAt i).step input term)

/-- Runs the rest of a sequence from a live set; an empty live set rejects at once. -/
def acceptsFrom (a : Nfa) : List Symbol → List Nat → Bool
  | [], live => a.anyAccepting live
  | x :: xs, live =>
    let next := a.step live x .stop
    if next.isEmpty then false else a.acceptsFrom xs next

/-- Whether the automaton accepts the whole sequence. -/
def accepts (a : Nfa) (seq : List Symbol) : Bool := a.acceptsFrom seq a.startClosure

/-- Whether the automaton accepts a sequence argument, after the comma shorthand. -/
def acceptsInput (a : Nfa) (seq : Input) : Bool := a.accepts seq.toSymbols

end Nfa

end SeqPattern
