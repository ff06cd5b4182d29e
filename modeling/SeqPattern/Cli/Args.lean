import SeqPattern.Input
import SeqPattern.Text.Blank
import SeqPattern.Text.Quoted
/-!
# Command-line arguments

Options and flags are taken out of the argument list wherever they stand. An option
is written `--name=VALUE`, `--name VALUE` or, for a short form, `-s VALUE`; a later
occurrence overrides an earlier one, and an option with nothing after it is an error.
A flag is removed everywhere and reports whether it was there. Counts are
non-negative integers, blanks around them allowed.
-/

namespace SeqPattern.Cli

/-- Takes an option out of the arguments: its last value, and the other arguments in
order. An option with no value after it fails with the error message. -/
def takeOption (args : List String) (long : String) (short : Option String) :
    Except String (Option String × List String) :=
  let rec go : List String → Option String → List String → Except String (Option String × List String)
    | [], v, rest => .ok (v, rest.reverse)
    | a :: as, v, rest =>
      if a.startsWith (long ++ "=") then go as (some (String.ofList (a.toList.drop (long.length + 1)))) rest
      else if a == long || some a == short then
        match as with
        | b :: bs => go bs (some b) rest
        | [] => .error (a ++ " requires a value")
      else go as v (a :: rest)
  go args none []

/-- Takes a flag out of the arguments, under any of its names: whether it was there,
and the other arguments in order. -/
def takeFlag (args : List String) (names : List String) : Bool × List String :=
  let rest := args.filter fun a => !names.contains a
  (rest.length != args.length, rest)

/-- Whether help is asked for anywhere. -/
def wantsHelp (args : List String) : Bool := args.any fun a => a == "--help" || a == "-h"

/-- The largest count, `2^64 - 1`. -/
def countMax : Nat := 18446744073709551615

/-- Reads a count: blanks around it, an optional plus sign, then ASCII digits, at
most `2^64 - 1`. -/
def readCount? (value : String) : Option Nat :=
  let cs := Text.trimChars value.toList
  let ds := match cs with
    | '+' :: rest => rest
    | _ => cs
  if ds.isEmpty || !ds.all Char.isDigit then none
  else
    let n := Symbol.digitsValue ds
    if n ≤ countMax then some n else none

/-- Reads the count of an option, or fails with the error message. -/
def parseCount (name value : String) : Except String Nat :=
  match readCount? value with
  | some n => .ok n
  | none => .error (name ++ " expects a non-negative integer, got " ++ Text.quote value)

/-- A command-line pattern or sequence: a comma-joined atom list with `items`, plain
text otherwise. -/
def toInput (text : String) (items : Bool) : Input :=
  if items then .items (Item.splitShorthand text) else .text text

end SeqPattern.Cli
