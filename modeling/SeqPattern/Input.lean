import SeqPattern.Symbol
import SeqPattern.Text.Split
/-!
# Argument forms: text and atom lists

A pattern or a sequence is given either as plain text, one character per symbol,
or as a list of atoms (integers and strings), which is how integer alphabets and
multi-character words are written. An atom list that holds exactly one string is
the comma shorthand: `["1,|,3"]` stands for `[1, "|", 3]`, and every part that is
a run of digits becomes an integer.
-/

namespace SeqPattern

/-- One element of an atom list. -/
inductive Item where
  | int (n : Int)
  | str (s : String)
deriving DecidableEq, Repr, Inhabited

/-- A pattern or sequence argument. -/
inductive Input where
  | text (s : String)
  | items (xs : List Item)
deriving DecidableEq, Repr, Inhabited

namespace Item

/-- The atom of one shorthand part: a run of digits that fits the range is an
integer, any other part (the empty part included) is a string. -/
def ofPart (part : String) : Item :=
  match Symbol.parseDigits? part with
  | some n => .int n
  | none => .str part

/-- Splits a comma-joined shorthand into its atoms; empty parts are kept. -/
def splitShorthand (joined : String) : List Item :=
  (Text.splitText ',' joined).map ofPart

/-- The atom spelling of a symbol: integers stay integers, every other symbol is
its text (`"w"`, `"hello"`, `"."`, `"$"`). -/
def ofSymbol : Symbol → Item
  | .int n => .int n
  | s => .str s.display

/-- The symbol of an atom in a sequence: integers stay integers and strings are
classified by length, with no digit coercion. -/
def toSymbol : Item → Symbol
  | .int n => .int n
  | .str s => Symbol.ofAtom s

end Item

namespace Input

/-- Applies the comma shorthand: an atom list of exactly one string is split into
its parts, and every other argument is left as it is. -/
def normalize : Input → Input
  | .items [.str joined] => .items (Item.splitShorthand joined)
  | i => i

/-- The symbols of a sequence argument, after the shorthand: text gives one
character per code point, atom lists give their atoms' symbols. Sequences never
hold the wildcard, so `"."` here is the literal character. -/
def toSymbols (i : Input) : List Symbol :=
  match i.normalize with
  | .text s => s.toList.map .char
  | .items xs => xs.map Item.toSymbol

/-- Text reads as one character symbol per code point. -/
@[simp]
theorem toSymbols_text (s : String) : (Input.text s).toSymbols = s.toList.map .char := rfl

/-- An atom list of integers. -/
def ofInts (ns : List Int) : Input := .items (ns.map .int)

/-- An atom list of integers reads as the integer symbols. -/
@[simp]
theorem toSymbols_ofInts (ns : List Int) : (ofInts ns).toSymbols = ns.map .int := by
  match ns with
  | [] => rfl
  | [_] => rfl
  | _ :: _ :: ns => simp [ofInts, toSymbols, normalize, Item.toSymbol]

/-- An atom list of strings. -/
def ofStrs (ss : List String) : Input := .items (ss.map .str)

end Input

end SeqPattern
