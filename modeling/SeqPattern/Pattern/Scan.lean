import SeqPattern.Input
import SeqPattern.Pattern.Error
import SeqPattern.Text.Blank
/-!
# Reading a pattern into tokens

A text pattern is read one character at a time. The characters `| ? * + ( )` are
operators, `.` is the wildcard, a backslash makes the next character a literal,
`[...]` is a class of single characters and `{n}` or `{n,m}` a bounded
repetition; every other character is a literal. Brackets and braces are one token
each: nothing inside them is an operator.

An atom-list pattern is read one atom at a time, after the comma shorthand.
Integers are operands; strings spelling an operator, or the wildcard `.`, are that
token; a string wrapped in square brackets is a class whose members are split on
commas (or taken one character each) with all-digit members read as integers; a
string wrapped in braces is a repetition; any other string is a literal atom.
-/

namespace SeqPattern.Pattern

/-- Keeps the first occurrence of every element, in order. -/
def dedupFirst {α : Type} [DecidableEq α] (xs : List α) : List α :=
  (xs.foldl (fun acc x => if acc.contains x then acc else x :: acc) []).reverse

/-- The members written in a class body. Text classes list one character per member.
Atom classes split on commas when there is one, dropping empty parts and reading
all-digit parts as integers; without a comma every ASCII digit is an integer member and
every other character a character member. -/
def classWritten (body : List Char) (coerce : Bool) : List Symbol :=
  if coerce && body.contains ',' then
    ((Text.splitChars ',' body).filter (· != [])).map (Symbol.ofAtomCoerced ∘ String.ofList)
  else if coerce then
    body.map fun c => if c.isDigit then .int (c.toNat - '0'.toNat) else .char c
  else body.map .char

/-- The members of a class body: those written, each kept once, in order of first
appearance; there must be at least one. -/
def classMembers (body : List Char) (coerce : Bool) : Except PatternError (List Symbol) :=
  match dedupFirst (classWritten body coerce) with
  | [] => .error .emptyClass
  | ms => .ok ms

/-- One bound of a repetition: a run of digits, blanks around it allowed. -/
def repeatBound? (part : List Char) : Option Nat :=
  (Symbol.parseDigits? (String.ofList (Text.trimChars part))).map Int.toNat

/-- The largest bound a repetition may have. -/
def maxRepeat : Nat := 10000

/-- The repetition written between braces: `n` for exactly `n` copies, or `n,m`, split
at the first comma, with `n ≤ m ≤ 10000`. -/
def repeatToken (body : List Char) : Except PatternError Token :=
  let bad := PatternError.badRepeat (String.ofList body)
  let bounds : Option (Nat × Nat) :=
    match body.span (· != ',') with
    | (lo, _ :: hi) => do pure (← repeatBound? lo, ← repeatBound? hi)
    | (n, []) => do let v ← repeatBound? n; pure (v, v)
  match bounds with
  | some (min, max) => if min ≤ max && max ≤ maxRepeat then .ok (.rep min max) else .error bad
  | none => .error bad

/-- Where the reader of a text pattern stands between two characters. -/
inductive TextMode where
  /-- Outside any bracket. -/
  | plain
  /-- Just after a backslash. -/
  | escaped
  /-- Inside a class, with the body read so far, last character first. -/
  | inClass (body : List Char)
  /-- Inside a repetition, with the body read so far, last character first. -/
  | inRepeat (body : List Char)

/-- The token of a character outside any bracket, if it is one on its own. -/
def plainToken (c : Char) : Token :=
  match c with
  | '|' => .alt
  | '?' => .opt
  | '*' => .star
  | '+' => .plus
  | '(' => .openGroup
  | ')' => .closeGroup
  | '.' => .operand .wildcard
  | _ => .operand (.char c)

/-- Reads the characters of the text pattern `text` in mode `m`, with the tokens read
so far in `acc`, last first. -/
def scanChars (text : String) : List Char → TextMode → List Token → Except PatternError (List Token)
  | [], .plain, acc => .ok acc.reverse
  | [], .escaped, _ => .error .danglingEscape
  | [], .inClass _, _ => .error (.unterminatedClass text)
  | [], .inRepeat _, _ => .error (.unterminatedRepeat text)
  | c :: cs, .escaped, acc => scanChars text cs .plain (.operand (.char c) :: acc)
  | c :: cs, .inClass body, acc =>
    if c = ']' then
      match classMembers body.reverse false with
      | .ok ms => scanChars text cs .plain (.charClass ms :: acc)
      | .error e => .error e
    else scanChars text cs (.inClass (c :: body)) acc
  | c :: cs, .inRepeat body, acc =>
    if c = '\x7d' then
      match repeatToken body.reverse with
      | .ok t => scanChars text cs .plain (t :: acc)
      | .error e => .error e
    else scanChars text cs (.inRepeat (c :: body)) acc
  | c :: cs, .plain, acc =>
    if c = '\\' then scanChars text cs .escaped acc
    else if c = '[' then scanChars text cs (.inClass []) acc
    else if c = '\x7b' then scanChars text cs (.inRepeat []) acc
    else scanChars text cs .plain (plainToken c :: acc)

/-- The tokens of a text pattern. -/
def scanText (text : String) : Except PatternError (List Token) :=
  scanChars text text.toList .plain []

/-- The token of one string atom of an atom-list pattern. -/
def atomToken (atom : String) : Except PatternError Token :=
  match atom.toList with
  | ['|'] => .ok .alt
  | ['?'] => .ok .opt
  | ['*'] => .ok .star
  | ['+'] => .ok .plus
  | ['('] => .ok .openGroup
  | [')'] => .ok .closeGroup
  | ['.'] => .ok (.operand .wildcard)
  | '[' :: rest =>
    if rest.getLast? = some ']' then (classMembers rest.dropLast true).map .charClass
    else .ok (.operand (Symbol.ofAtom atom))
  | '\x7b' :: rest =>
    if rest.getLast? = some '\x7d' then repeatToken rest.dropLast
    else .ok (.operand (Symbol.ofAtom atom))
  | _ => .ok (.operand (Symbol.ofAtom atom))

/-- The token of one atom of an atom-list pattern. -/
def itemToken : Item → Except PatternError Token
  | .int n => .ok (.operand (.int n))
  | .str s => atomToken s

/-- The tokens of a pattern, after the comma shorthand. -/
def tokenize (p : Input) : Except PatternError (List Token) :=
  match p.normalize with
  | .text s => scanText s
  | .items xs => xs.mapM itemToken

end SeqPattern.Pattern
