import SeqPattern.Automaton.Basic
/-!
# The text of an automaton

The dump renders an automaton as nested depth-first paths from its start state. A
state contributes `!` when it accepts; a symbol edge contributes its label, a space,
and the path from its target; epsilon edges contribute `eps` and then one bracketed
path per edge, in order. A state already rendered contributes nothing, so cycles
end.

The summary names the state count, the start and exit states and the number of
epsilon edges.
-/

namespace SeqPattern

namespace Nfa

/-- A pending piece of a dump: a state to render, or text to write. -/
inductive DumpTask where
  | visit (i : Nat)
  | write (s : String)

/-- The pieces that render a state not yet rendered, after its accepting mark and
label: the path from its edge's target, then its epsilon paths. -/
def stateTasks (s : State) : List DumpTask :=
  let edge := match s.edge with
    | some (_, target) => [DumpTask.visit target]
    | none => []
  let eps := if s.eps.isEmpty then []
    else .write "eps" :: s.eps.toList.flatMap fun e => [.write " [", .visit e, .write "]"]
  edge ++ eps

/-- The text a state writes before its pending pieces. -/
def stateHead (s : State) : String :=
  (if s.accepting then "!" else "") ++
  (match s.edge with
    | some (label, _) => label.display ++ " "
    | none => "")

/-- Runs the pending pieces, with the rendered states in `seen`; `fuel` bounds the
pieces run. -/
def dumpGo (a : Nfa) : Nat → List DumpTask → Array Bool → String → String
  | 0, _, _, out => out
  | _, [], _, out => out
  | fuel + 1, .write s :: tasks, seen, out => a.dumpGo fuel tasks seen (out ++ s)
  | fuel + 1, .visit i :: tasks, seen, out =>
    if seen[i]?.getD true then a.dumpGo fuel tasks seen out
    else
      let s := a.stateAt i
      a.dumpGo fuel (stateTasks s ++ tasks) (seen.set! i true) (out ++ stateHead s)

/-- Enough pieces for a whole dump: every state rendered pends at most two pieces and
three per epsilon edge. -/
def dumpFuel (a : Nfa) : Nat := 2 * a.stateCount + 3 * a.epsilonCount + 2

/-- The nested-path text of the automaton. -/
def dump (a : Nfa) : String :=
  a.dumpGo a.dumpFuel [.visit a.start] (Array.replicate a.stateCount false) ""

/-- The name of a state, `s` and its index. -/
def stateName (i : Nat) : String := "s" ++ toString i

/-- A one-line summary of the automaton's shape. -/
def summary (a : Nfa) : String :=
  "Nfa \x7b state_count: " ++ toString a.stateCount ++ ", start: StateId(" ++ toString a.start ++
  "), end: StateId(" ++ toString a.exit ++ "), epsilon_count: " ++ toString a.epsilonCount ++ " \x7d"

end Nfa

end SeqPattern
