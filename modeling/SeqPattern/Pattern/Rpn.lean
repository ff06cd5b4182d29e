import SeqPattern.Pattern.Scan
/-!
# Reverse Polish form

Two steps turn a token stream into reverse Polish form. First, juxtaposition
becomes explicit: a concatenation marker goes between a token that ends a value (an
operand, a class, a quantifier, a repetition, a closing bracket) and a token that
starts one (an operand, a class, an opening bracket). Then the operator-precedence
reordering moves every operator behind its operands: an incoming operator first
pops every stacked operator that binds at least as tightly, and brackets group
without reaching the output.
-/

namespace SeqPattern.Pattern

open Token

/-- Whether a token ends a value. -/
def endsValue (t : Token) : Bool :=
  t.isValue || t.isQuantifier || t == .closeGroup || (match t with | .rep _ _ => true | _ => false)

/-- Whether a token starts a value. -/
def startsValue (t : Token) : Bool := t.isValue || t == .openGroup

/-- Inserts the concatenation markers, with the output so far in `acc`, last first. -/
def joinConcatGo : List Token → List Token → List Token
  | [], acc => acc.reverse
  | [t], acc => (t :: acc).reverse
  | t :: u :: rest, acc =>
    joinConcatGo (u :: rest) (if endsValue t && startsValue u then .cat :: t :: acc else t :: acc)

/-- The stream with explicit concatenation markers between juxtaposed values. -/
def joinConcat (ts : List Token) : List Token := joinConcatGo ts []

/-- Pops operators to the output up to the nearest opening bracket, which is dropped. -/
def popToOpen : List Token → List Token → Except PatternError (List Token × List Token)
  | [], _ => .error .mismatchedParens
  | .openGroup :: stack, out => .ok (stack, out)
  | op :: stack, out => popToOpen stack (op :: out)

/-- Pops every stacked operator that binds at least as tightly as precedence `p`,
stopping at an opening bracket. -/
def popTighter (p : Option Nat) : List Token → List Token → List Token × List Token
  | [], out => ([], out)
  | top :: stack, out =>
    match top.precedence with
    | none => (top :: stack, out)
    | some q =>
      let looser := match p with
        | some r => decide (q < r)
        | none => false
      if looser then (top :: stack, out) else popTighter p stack (top :: out)

/-- Moves the remaining operators to the output; an opening bracket left over has no
partner. -/
def drainOps : List Token → List Token → Except PatternError (List Token)
  | [], out => .ok out.reverse
  | .openGroup :: _, _ => .error .mismatchedParens
  | op :: stack, out => drainOps stack (op :: out)

/-- The reordering loop, with the operator stack and the output so far, last first. -/
def toRpnGo : List Token → List Token → List Token → Except PatternError (List Token)
  | [], stack, out => drainOps stack out
  | t :: ts, stack, out =>
    match t with
    | .operand _ => toRpnGo ts stack (t :: out)
    | .charClass _ => toRpnGo ts stack (t :: out)
    | .openGroup => toRpnGo ts (t :: stack) out
    | .closeGroup =>
      match popToOpen stack out with
      | .ok (stack', out') => toRpnGo ts stack' out'
      | .error e => .error e
    | op =>
      let (stack', out') := popTighter op.precedence stack out
      toRpnGo ts (op :: stack') out'

/-- The reverse Polish form of an explicit-concatenation stream. -/
def toRpn (ts : List Token) : Except PatternError (List Token) := toRpnGo ts [] []

/-- Reads a pattern and returns its reverse Polish form. -/
def rpnOf (p : Input) : Except PatternError (List Token) := do
  toRpn (joinConcat (← tokenize p))

end SeqPattern.Pattern
