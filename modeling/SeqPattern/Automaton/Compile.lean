import SeqPattern.Automaton.Builder
import SeqPattern.Automaton.Closure
import SeqPattern.Pattern.Rpn
/-!
# Compiling reverse Polish streams

A reverse Polish stream is evaluated on a stack of fragments: an operand or a class
pushes its fragment, a binary operator pops its right operand and then its left one,
a unary operator or a repetition pops one. The empty stream compiles to the
automaton of the empty sequence; any other stream must leave exactly one fragment.
Brackets have no place in a reverse Polish stream. Matching a sequence against a
pattern compiles the pattern first, and only the pattern can fail.
-/

namespace SeqPattern

namespace Build

/-- The effect of one token on the fragment stack, top first. -/
def applyToken (cap : Option Nat) (t : Token) (stack : List Fragment) : Build (List Fragment) :=
  match t with
  | .operand s => do pure ((← symbol cap s) :: stack)
  | .charClass ms => do pure ((← charClass cap ms) :: stack)
  | .alt =>
    match stack with
    | r :: l :: rest => do pure ((← union cap l r) :: rest)
    | _ => throw (.missingOperand t)
  | .cat =>
    match stack with
    | r :: l :: rest => do pure ((← concat l r) :: rest)
    | _ => throw (.missingOperand t)
  | .opt =>
    match stack with
    | a :: rest => do pure ((← optional cap a) :: rest)
    | [] => throw (.missingOperand t)
  | .star =>
    match stack with
    | a :: rest => do pure ((← closure cap a) :: rest)
    | [] => throw (.missingOperand t)
  | .plus =>
    match stack with
    | a :: rest => do pure ((← oneOrMore cap a) :: rest)
    | [] => throw (.missingOperand t)
  | .rep min max =>
    match stack with
    | a :: rest => do pure ((← boundedRepeat cap a min max) :: rest)
    | [] => throw (.missingOperand t)
  | .openGroup => throw .mismatchedParens
  | .closeGroup => throw .mismatchedParens

/-- Evaluates a stream on a fragment stack, top first. -/
def applyTokens (cap : Option Nat) : List Token → List Fragment → Build (List Fragment)
  | [], stack => pure stack
  | t :: ts, stack => do applyTokens cap ts (← applyToken cap t stack)

end Build

namespace Nfa

/-- The automaton of a fragment in an arena. -/
def ofFragment (states : Array State) (f : Fragment) : Nfa := ⟨states, f.entry, f.exit⟩

/-- The construction a compilation runs: the empty stream stands for the empty word,
and any other stream must leave exactly one fragment on the stack. -/
def construct (cap : Option Nat) (ts : List Token) : Build Fragment :=
  match ts with
  | [] => Build.epsilon cap
  | _ => do
    match ← Build.applyTokens cap ts [] with
    | [f] => pure f
    | stack => throw (.unbalanced stack.length)

/-- Compiles a reverse Polish stream in an arena of at most `cap` states, when a cap
is given. -/
def compileWith (cap : Option Nat) (ts : List Token) : Except PatternError Nfa :=
  match (construct cap ts).run #[] with
  | .ok f ar => .ok (ofFragment ar f)
  | .error e _ => .error e

/-- Compiles a reverse Polish stream within the state budget of `2^20` states. -/
def compile (ts : List Token) : Except PatternError Nfa := compileWith (some Build.maxStates) ts

/-- Reads and compiles a pattern. -/
def ofPattern (p : Input) : Except PatternError Nfa := do
  compile (← Pattern.rpnOf p)

/-- Compiles a pattern and matches one sequence argument against it; only the pattern
can fail. -/
def matchOne (pattern seq : Input) : Except PatternError Bool := do
  pure ((← ofPattern pattern).acceptsInput seq)

end Nfa

end SeqPattern
