import SeqPattern.Pattern.Token
import SeqPattern.Text.Quoted
/-!
# Pattern errors

Every way in which reading or compiling a pattern fails, as a cause, and the one
function that words it. All of them are syntax errors of the pattern, except the
state budget, which bounds the size of the automaton.
-/

namespace SeqPattern

/-- Why a pattern cannot be read or compiled. -/
inductive PatternError where
  /-- A closing bracket without an opening one, or the reverse. -/
  | mismatchedParens
  /-- A reverse Polish stream that leaves other than one fragment. -/
  | unbalanced (remaining : Nat)
  /-- An operator that finds too few operands. -/
  | missingOperand (op : Token)
  /-- A class bracket that is never closed, in the pattern text given. -/
  | unterminatedClass (pattern : String)
  /-- A class without members. -/
  | emptyClass
  /-- A repetition brace that is never closed, in the pattern text given. -/
  | unterminatedRepeat (pattern : String)
  /-- A repetition whose text between the braces is not `n` or `n,m` with `n ≤ m ≤ 10000`. -/
  | badRepeat (body : String)
  /-- A repetition handed to the builder with `min > max` or `max > 10000`. -/
  | repeatRange (min max : Nat)
  /-- A repetition of anything but a single literal symbol. -/
  | repeatOnGroup
  /-- A pattern text that ends with the escape character. -/
  | danglingEscape
  /-- An automaton that would need more states than the budget. -/
  | tooManyStates (limit : Nat)
deriving DecidableEq, Repr, Inhabited

namespace PatternError

/-- The kinds of error a caller can tell apart. A kind may have several causes, which
differ only in their words. -/
inductive Kind where
  | mismatchedParentheses
  | unbalancedPostfix
  | missingOperand
  | invalidClass
  | invalidRepeat
  | repeatOnGroup
  | danglingEscape
  | tooManyStates
deriving DecidableEq, Repr, Inhabited

/-- The kind of an error. Both class causes are invalid classes, and every repetition
cause, whether the reader or the builder finds it, is an invalid repetition. -/
def kind : PatternError → Kind
  | .mismatchedParens => .mismatchedParentheses
  | .unbalanced _ => .unbalancedPostfix
  | .missingOperand _ => .missingOperand
  | .unterminatedClass _ | .emptyClass => .invalidClass
  | .unterminatedRepeat _ | .badRepeat _ | .repeatRange _ _ => .invalidRepeat
  | .repeatOnGroup => .repeatOnGroup
  | .danglingEscape => .danglingEscape
  | .tooManyStates _ => .tooManyStates

/-- The words of an error. -/
def message : PatternError → String
  | .mismatchedParens => "mismatched parentheses"
  | .unbalanced n =>
    "malformed postfix stream: " ++ toString n ++ " fragments left on the stack, expected 1"
  | .missingOperand op => "operator \x60" ++ op.display ++ "\x60 is missing an operand"
  | .unterminatedClass p => "invalid character class: unterminated \x60[\x60 in " ++ Text.quote p
  | .emptyClass => "invalid character class: empty class"
  | .unterminatedRepeat p => "invalid bounded repetition: unterminated \x60\x7b\x60 in " ++ Text.quote p
  | .badRepeat body => "invalid bounded repetition: \x7b" ++ body ++ "\x7d"
  | .repeatRange min max => "invalid bounded repetition: " ++ Token.repText min max
  | .repeatOnGroup => "bounded repetition only applies to a single literal symbol, not a group"
  | .danglingEscape => "pattern ends with a dangling escape"
  | .tooManyStates n => "automaton exceeds " ++ toString n ++ " states"

end PatternError

end SeqPattern
