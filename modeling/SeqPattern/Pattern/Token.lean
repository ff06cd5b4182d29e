import SeqPattern.Symbol
/-!
# Pattern tokens

A pattern is read as a stream of tokens: operands (a literal symbol or the
wildcard), character classes, bounded repetitions, the operators `|`, `?`, `*`,
`+`, the group brackets, and the explicit concatenation marker `#`, which the
reader never produces but which the reverse Polish form needs.

Operators bind, from loosest to tightest: alternation, concatenation, then the
postfix quantifiers and repetitions.
-/

namespace SeqPattern

/-- A pattern token. -/
inductive Token where
  /-- A literal symbol or the wildcard. -/
  | operand (s : Symbol)
  /-- Alternation, written `|`. -/
  | alt
  /-- The explicit concatenation marker, written `#`. -/
  | cat
  /-- Zero or one, written `?`. -/
  | opt
  /-- Zero or more, written `*`. -/
  | star
  /-- One or more, written `+`. -/
  | plus
  /-- An opening group bracket. -/
  | openGroup
  /-- A closing group bracket. -/
  | closeGroup
  /-- Exactly one of the listed symbols. -/
  | charClass (members : List Symbol)
  /-- Between `min` and `max` copies of one literal symbol. -/
  | rep (min max : Nat)
deriving DecidableEq, Repr, Inhabited

namespace Token

/-- Binding strength of an operator, loosest first; operands, classes and brackets
have none. -/
def precedence : Token → Option Nat
  | .alt => some 0
  | .cat => some 1
  | .opt => some 2
  | .star => some 2
  | .plus => some 2
  | .rep _ _ => some 2
  | _ => none

/-- Whether a token is a value on its own: an operand or a class. -/
def isValue : Token → Bool
  | .operand _ => true
  | .charClass _ => true
  | _ => false

/-- Whether a token is one of the quantifiers `?`, `*`, `+`. -/
def isQuantifier : Token → Bool
  | .opt => true
  | .star => true
  | .plus => true
  | _ => false

/-- The text of a bounded repetition, `{min,max}`. -/
def repText (min max : Nat) : String :=
  "\x7b" ++ toString min ++ "," ++ toString max ++ "\x7d"

/-- The text of a class: its members between square brackets, with a comma before
every member after the first that is not a character. -/
def classText (members : List Symbol) : String :=
  let body := members.zipIdx.map fun (m, i) =>
    (if i > 0 && !(match m with | .char _ => true | _ => false) then "," else "") ++ m.display
  "[" ++ String.join body ++ "]"

/-- The text of a token. -/
def display : Token → String
  | .operand s => s.display
  | .alt => "|"
  | .cat => "#"
  | .opt => "?"
  | .star => "*"
  | .plus => "+"
  | .openGroup => "("
  | .closeGroup => ")"
  | .charClass ms => classText ms
  | .rep min max => repText min max

/-- A token stream as text: the tokens' texts separated by single spaces. -/
def renderStream (ts : List Token) : String := " ".intercalate (ts.map display)

end Token

end SeqPattern
