/-!
# Symbols of the open alphabet

A sequence, and a pattern over sequences, is made of symbols: single characters,
signed 64-bit integers, whole words, and two reserved values. The wildcard only
appears in patterns, where it stands for any one symbol except the terminator.
The terminator is the sentinel that a sequence store appends to a prefix that is
itself a complete stored entry.

This module holds the alphabet, its total order (variant first, then the
payload), the classification of string atoms, and the text of a symbol and of a
sequence.
-/

namespace SeqPattern

/-- One symbol of a sequence or a pattern. -/
inductive Symbol where
  /-- A single character. -/
  | char (c : Char)
  /-- An integer atom; every integer the library builds lies in the signed 64-bit range. -/
  | int (n : Int)
  /-- An opaque multi-character token, such as a whole word of a sentence. -/
  | word (w : String)
  /-- Matches any one symbol except the terminator. -/
  | wildcard
  /-- The default terminator sentinel. -/
  | stop
deriving DecidableEq, Repr, Inhabited

namespace Symbol

/-! ## Integers of the alphabet -/

/-- The largest integer atom, `2^63 - 1`. -/
def intMax : Int := 9223372036854775807

/-- The smallest integer atom, `-2^63`. -/
def intMin : Int := -9223372036854775808

/-- Whether an integer fits the signed 64-bit range of integer atoms. -/
def fitsInt (n : Int) : Bool := decide (intMin ≤ n ∧ n ≤ intMax)

/-- The value of a list of ASCII digits, read in base ten. -/
def digitsValue (ds : List Char) : Nat :=
  ds.foldl (fun acc d => acc * 10 + (d.toNat - '0'.toNat)) 0

/-- Reads a non-empty run of ASCII digits that fits the integer range. Signs, blanks
and every other character are refused, so `"-1"` stays a string atom. -/
def parseDigits? (s : String) : Option Int :=
  let ds := s.toList
  if ds.isEmpty || !ds.all Char.isDigit then none
  else
    let v : Int := digitsValue ds
    if v ≤ intMax then some v else none

/-! ## Atoms -/

/-- A string atom: exactly one character is a character symbol, anything else
(the empty string included) is a word. -/
def ofAtom (atom : String) : Symbol :=
  match atom.toList with
  | [c] => .char c
  | _ => .word atom

/-- A one-character string is the character symbol. -/
@[simp]
theorem ofAtom_singleton (c : Char) : ofAtom (String.singleton c) = .char c := by
  simp [ofAtom]

/-- A string atom in which an all-digit spelling that fits the range is an integer. -/
def ofAtomCoerced (atom : String) : Symbol :=
  match parseDigits? atom with
  | some n => .int n
  | none => ofAtom atom

/-- Whether this symbol is the wildcard. -/
def isWildcard : Symbol → Bool
  | .wildcard => true
  | _ => false

/-- Whether a transition labelled `label` may consume `input`: equal symbols always
match, and the wildcard matches every input except the terminator `term`. -/
def accepts (label input term : Symbol) : Bool :=
  label == input || (label.isWildcard && input != term)

/-- Every label consumes itself, whatever the terminator. -/
@[simp]
theorem accepts_self (a t : Symbol) : accepts a a t = true := by
  simp [accepts]

/-! ## Text -/

/-- The text of a symbol: the character, the decimal integer, the word, `.` for the
wildcard and `$` for the terminator. -/
def display : Symbol → String
  | .char c => String.singleton c
  | .int n => toString n
  | .word w => w
  | .wildcard => "."
  | .stop => "$"

/-- Whether a symbol renders as one character cell: characters, wildcard, terminator. -/
def isCharLike : Symbol → Bool
  | .char _ => true
  | .wildcard => true
  | .stop => true
  | _ => false

/-- The text of a sequence. Sequences of characters (and the two reserved symbols) are
joined without a separator, as in `why`; any sequence holding an integer or a word is
joined with commas, as in `1,2,3` or `hi,world`. -/
def renderSeq (seq : List Symbol) : String :=
  let sep := if seq.all isCharLike then "" else ","
  sep.intercalate (seq.map display)

/-! ## Order

Symbols are ordered by variant first (character, integer, word, wildcard,
terminator), then by payload: characters by code point, integers numerically and
words by their UTF-8 bytes, which is code-point order. Sequences are ordered
lexicographically, a proper prefix first. -/

/-- The position of a symbol's variant in the order of variants. -/
def rank : Symbol → Nat
  | .char _ => 0
  | .int _ => 1
  | .word _ => 2
  | .wildcard => 3
  | .stop => 4

/-- The total order on symbols. -/
def cmp : Symbol → Symbol → Ordering
  | .char a, .char b => compare a.val b.val
  | .int a, .int b => compare a b
  | .word a, .word b => compare a b
  | a, b => compare a.rank b.rank

/-- The order is reflexive: every symbol compares equal to itself. -/
@[simp]
theorem cmp_self (a : Symbol) : cmp a a = .eq := by
  cases a <;> simp [cmp]

/-- The lexicographic order on sequences, in which a proper prefix comes first. -/
def cmpSeq : List Symbol → List Symbol → Ordering
  | [], [] => .eq
  | [], _ :: _ => .lt
  | _ :: _, [] => .gt
  | a :: as, b :: bs =>
    match cmp a b with
    | .eq => cmpSeq as bs
    | o => o

/-- Every sequence compares equal to itself. -/
@[simp]
theorem cmpSeq_self (xs : List Symbol) : cmpSeq xs xs = .eq := by
  induction xs with
  | nil => rfl
  | cons a as ih => simp [cmpSeq, ih]

/-- Whether one sequence comes strictly before another. -/
def seqLt (xs ys : List Symbol) : Bool := cmpSeq xs ys == .lt

end Symbol

end SeqPattern
