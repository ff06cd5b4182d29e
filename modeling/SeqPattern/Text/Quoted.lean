import SeqPattern.Text.Printable
/-!
# Quoted text

The quoted form of a text, as error messages show a pattern: the text between
double quotes, with the escapes `\0`, `\t`, `\r`, `\n`, `\\` and `\"`, and every
character that is not printable, or that extends the character before it, written
as its code point in lowercase hexadecimal, `\u{301}`. Every other character,
the single quote included, stands for itself.
-/

namespace SeqPattern.Text

/-- Lowercase hexadecimal digits of a number, without leading zeros. -/
def hexDigits (n : Nat) : String := String.ofList (Nat.toDigits 16 n)

/-- The quoted form of one character. -/
def quoteChar (c : Char) : String :=
  match c with
  | '\x00' => "\\0"
  | '\t' => "\\t"
  | '\r' => "\\r"
  | '\n' => "\\n"
  | '\\' => "\\\\"
  | '"' => "\\\""
  | _ =>
    if isExtending c || !isPrintable c then "\\u\x7b" ++ hexDigits c.toNat ++ "\x7d"
    else String.singleton c

/-- The quoted form of a text, quotes included. -/
def quote (s : String) : String :=
  "\"" ++ String.join (s.toList.map quoteChar) ++ "\""

end SeqPattern.Text
