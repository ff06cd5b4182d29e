import SeqPattern.Automaton.Compile
/-!
# Builder scripts

A builder script drives the fragment combinators directly, one step at a time, on
a stack of fragments. Every step reports the arena size and the stack, bottom
first. A step that finds too few fragments fails without touching the stack. A
combinator that fails has already taken its operands off the stack, which are lost,
and pushes nothing; what it allocated before failing stays in the arena. Later steps
run either way. After the last step, the top fragment, if any, is the automaton.
-/

namespace SeqPattern

/-- One step of a builder script. -/
inductive BuildStep where
  | symbol (s : Symbol)
  | epsilon
  | charClass (members : List Symbol)
  | concat
  | union
  | closure
  | optional
  | plus
  | rep (min max : Nat)
  /-- Reports without changing anything. -/
  | info
deriving Repr, Inhabited

/-- Why a step of a builder script failed. -/
inductive StepFailure where
  /-- The step needs more fragments than the stack holds. -/
  | underflow (step : String) (needed : Nat)
  /-- The combinator failed. -/
  | pattern (e : PatternError)
deriving Repr, Inhabited

/-- The words of a step failure. -/
def StepFailure.message : StepFailure → String
  | .underflow step n => step ++ " needs " ++ toString n ++ " fragments"
  | .pattern e => e.message

/-- What a step reports. -/
structure StepReport where
  /-- The arena size after the step. -/
  size : Nat
  /-- Whether the arena is empty, reported by an info step only. -/
  isEmpty : Option Bool
  /-- The stack after the step, bottom first. -/
  stack : List Fragment
  /-- The failure, if the step failed. -/
  failure : Option StepFailure
deriving Repr, Inhabited

/-- A builder at work: the arena and the fragment stack, top first. -/
structure Bench where
  arena : Array State
  stack : List Fragment
deriving Inhabited

namespace BuildStep

/-- The name of a step. -/
def name : BuildStep → String
  | .symbol _ => "symbol"
  | .epsilon => "epsilon"
  | .charClass _ => "class"
  | .concat => "concat"
  | .union => "union"
  | .closure => "closure"
  | .optional => "optional"
  | .plus => "plus"
  | .rep _ _ => "repeat"
  | .info => "info"

/-- How many fragments a step takes off the stack. -/
def arity : BuildStep → Nat
  | .concat => 2
  | .union => 2
  | .closure => 1
  | .optional => 1
  | .plus => 1
  | .rep _ _ => 1
  | _ => 0

/-- The combinator of a step, on its operands, top first. -/
def combinator (cap : Option Nat) (st : BuildStep) (operands : List Fragment) : Build Fragment :=
  match st, operands with
  | .symbol s, _ => Build.symbol cap s
  | .charClass ms, _ => Build.charClass cap ms
  | .concat, [r, l] => Build.concat l r
  | .union, [r, l] => Build.union cap l r
  | .closure, [a] => Build.closure cap a
  | .optional, [a] => Build.optional cap a
  | .plus, [a] => Build.oneOrMore cap a
  | .rep min max, [a] => Build.boundedRepeat cap a min max
  | _, _ => Build.epsilon cap

end BuildStep

namespace Bench

/-- Runs one step within the state budget and reports it. -/
def run (b : Bench) (st : BuildStep) : Bench × StepReport :=
  let report (b : Bench) (f : Option StepFailure) : StepReport :=
    ⟨b.arena.size, none, b.stack.reverse, f⟩
  match st with
  | .info => (b, ⟨b.arena.size, some b.arena.isEmpty, b.stack.reverse, none⟩)
  | _ =>
    if b.stack.length < st.arity then (b, report b (some (.underflow st.name st.arity)))
    else
      let rest := b.stack.drop st.arity
      match (st.combinator (some Build.maxStates) (b.stack.take st.arity)).run b.arena with
      | .ok f ar => let b' := ⟨ar, f :: rest⟩; (b', report b' none)
      | .error e ar => let b' := ⟨ar, rest⟩; (b', report b' (some (.pattern e)))

/-- Runs a script from an empty builder: the reports, then the automaton of the top
fragment, if any is left. -/
def runScript (steps : List BuildStep) : List StepReport × Option Nfa :=
  let (b, reports) := steps.foldl (fun (b, acc) st => let (b', r) := b.run st; (b', r :: acc))
    ((⟨#[], []⟩ : Bench), [])
  (reports.reverse, b.stack.head?.map (Nfa.ofFragment b.arena))

end Bench

end SeqPattern
