/-!
# Lines of bytes

A byte stream is read as lines: each line ends at a line feed, which is dropped
together with one carriage return right before it, and a last piece without a line
feed is a line when it is not empty. A line is usable only when its bytes are valid
UTF-8.
-/

namespace SeqPattern.Text

/-- The byte of a line feed. -/
def lineFeed : UInt8 := 10

/-- The byte of a carriage return. -/
def carriageReturn : UInt8 := 13

/-- Drops one carriage return at the end of a line's bytes. -/
def dropReturn (line : List UInt8) : List UInt8 :=
  if line.getLast? = some carriageReturn then line.dropLast else line

/-- Splits bytes into lines, with the current line's bytes so far in `cur`, last
first, and the lines so far in `acc`, last first. -/
def splitLinesGo : List UInt8 → List UInt8 → List (List UInt8) → List (List UInt8)
  | [], cur, acc => (if cur.isEmpty then acc else cur.reverse :: acc).reverse
  | b :: bs, cur, acc =>
    if b = lineFeed then splitLinesGo bs [] (dropReturn cur.reverse :: acc)
    else splitLinesGo bs (b :: cur) acc

/-- The lines of a byte stream, as bytes. -/
def splitLines (bs : List UInt8) : List (List UInt8) := splitLinesGo bs [] []

/-- The text of a line, when its bytes are valid UTF-8. -/
def decodeLine (line : List UInt8) : Option String := String.fromUTF8? (ByteArray.mk line.toArray)

/-- The lines of a byte stream up to the first line that is not valid UTF-8, and
whether such a line stopped the reading. -/
def readLines (bs : ByteArray) : List String × Bool :=
  let rec go : List (List UInt8) → List String → List String × Bool
    | [], acc => (acc.reverse, false)
    | l :: ls, acc =>
      match decodeLine l with
      | some s => go ls (s :: acc)
      | none => (acc.reverse, true)
  go (splitLines bs.toList) []

end SeqPattern.Text
