/-!
# Compact JSON text

The compact JSON form used by the search tool's machine-readable output: no blanks,
strings in double quotes with `"` and `\` escaped, the controls backspace, form
feed, line feed, carriage return and tab written as `\b`, `\f`, `\n`, `\r`, `\t`,
every other control below U+0020 as `\u00xx` in lowercase hexadecimal, and all
other characters as themselves.
-/

namespace SeqPattern.Text

/-- The four-digit lowercase hexadecimal form of a control character's code. -/
def hex4 (n : Nat) : String :=
  let ds := Nat.toDigits 16 n
  String.ofList (List.replicate (4 - ds.length) '0' ++ ds)

/-- One character of a JSON string. -/
def jsonChar (c : Char) : String :=
  match c with
  | '"' => "\\\""
  | '\\' => "\\\\"
  | '\n' => "\\n"
  | '\r' => "\\r"
  | '\t' => "\\t"
  | '\x08' => "\\b"
  | '\x0c' => "\\f"
  | _ => if c.toNat < 0x20 then "\\u" ++ hex4 c.toNat else String.singleton c

/-- A JSON string literal. -/
def jsonString (s : String) : String := "\"" ++ String.join (s.toList.map jsonChar) ++ "\""

/-- A JSON array of already written values. -/
def jsonArray (xs : List String) : String := "[" ++ ",".intercalate xs ++ "]"

/-- A JSON object of already written values, keys in the order given. -/
def jsonObject (kvs : List (String × String)) : String :=
  "\x7b" ++ ",".intercalate (kvs.map fun (k, v) => jsonString k ++ ":" ++ v) ++ "\x7d"

end SeqPattern.Text
