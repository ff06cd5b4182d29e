/-!
# Blank characters and trimming

The blanks are the characters of the Unicode White_Space property: the ASCII
tab, line feed, vertical tab, form feed, carriage return and space, next line
(U+0085), the no-break space (U+00A0), the Ogham space mark (U+1680), the spaces
U+2000 to U+200A, the line and paragraph separators (U+2028, U+2029), the narrow
no-break space (U+202F), the medium mathematical space (U+205F) and the
ideographic space (U+3000). Trimming removes blanks at both ends of a text.
-/

namespace SeqPattern.Text

/-- Whether a character has the Unicode White_Space property. -/
def isBlank (c : Char) : Bool :=
  let n := c.toNat
  (0x09 ≤ n && n ≤ 0x0D) || n == 0x20 || n == 0x85 || n == 0xA0 || n == 0x1680 ||
  (0x2000 ≤ n && n ≤ 0x200A) || n == 0x2028 || n == 0x2029 || n == 0x202F ||
  n == 0x205F || n == 0x3000

/-- The characters of a text without its leading and trailing blanks. -/
def trimChars (cs : List Char) : List Char :=
  ((cs.dropWhile isBlank).reverse.dropWhile isBlank).reverse

/-- A text without its leading and trailing blanks. -/
def trim (s : String) : String := String.ofList (trimChars s.toList)

/-- Every ASCII blank of core's class is a blank here. -/
theorem isBlank_of_isWhitespace (c : Char) (h : c.isWhitespace = true) : isBlank c = true := by
  simp only [Char.isWhitespace, Bool.or_eq_true, decide_eq_true_eq] at h
  simp only [isBlank, Bool.or_eq_true, Bool.and_eq_true, beq_iff_eq, decide_eq_true_eq]
  rcases h with ((h | h) | h) | h <;> subst h <;> decide

end SeqPattern.Text
