import SeqPattern.Input
import SeqPattern.Text.Blank
import SeqPattern.Text.Lines
/-!
# Sequence stores

A store is an ordered collection of reference sequences and a terminator symbol.
Queried with a prefix, it answers with the distinct one-symbol extensions of that
prefix, in increasing order: every entry that starts with the prefix contributes
the prefix and its next symbol, and an entry equal to the prefix contributes the
prefix and the terminator.

A store is read from text one entry per non-blank line, trimmed: a line with a
comma is a comma-joined atom list, any other line a character sequence.
-/

namespace SeqPattern

/-- A collection of reference sequences with the terminator it appends. -/
structure Store where
  /-- The stored sequences, in insertion order. -/
  entries : List (List Symbol)
  /-- The symbol that marks a complete entry. -/
  terminator : Symbol
deriving Repr, Inhabited

/-- Why a store cannot be read. -/
inductive StoreError where
  /-- A line of the stream is not valid UTF-8. -/
  | invalidUtf8
deriving Repr, DecidableEq, Inhabited

/-- The words of a store error. -/
def StoreError.message : StoreError → String
  | .invalidUtf8 => "failed to read sequence store: stream did not contain valid UTF-8"

namespace Store

/-- The empty store, terminated by the default terminator. -/
def empty : Store := ⟨[], .stop⟩

/-- A store of sequence arguments, after the comma shorthand. -/
def ofInputs (xs : List Input) : Store := ⟨xs.map Input.toSymbols, .stop⟩

/-- A store of words, one character per symbol. -/
def ofWords (ws : List String) : Store := ofInputs (ws.map .text)

/-- A store of integer sequences. -/
def ofIntSeqs (xss : List (List Int)) : Store := ofInputs (xss.map Input.ofInts)

/-- A store of token sequences, each token a string atom. -/
def ofTokenSeqs (tss : List (List String)) : Store := ⟨tss.map (·.map Symbol.ofAtom), .stop⟩

/-- The entry of one line, if the line is not blank. -/
def lineEntry (line : String) : Option (List Symbol) :=
  let t := Text.trim line
  if t.isEmpty then none
  else some (if t.toList.contains ',' then Input.toSymbols (.items (Item.splitShorthand t))
    else Input.toSymbols (.text t))

/-- A store of text lines. -/
def ofLines (lines : List String) : Store := ⟨lines.filterMap lineEntry, .stop⟩

/-- A store read from a byte stream; any line that is not valid UTF-8 fails the read. -/
def read (bs : ByteArray) : Except StoreError Store :=
  match Text.readLines bs with
  | (lines, false) => .ok (ofLines lines)
  | (_, true) => .error .invalidUtf8

/-- Drops the later of two neighbours that are equal. -/
def dedupSorted : List (List Symbol) → List (List Symbol)
  | x :: y :: rest => if Symbol.cmpSeq x y = .eq then dedupSorted (y :: rest) else x :: dedupSorted (y :: rest)
  | xs => xs

/-- The distinct one-symbol extensions of `head ++ word` (of `word` without a head),
in increasing order. -/
def extensions (st : Store) (word : List Symbol) (head : Option (List Symbol)) : List (List Symbol) :=
  let full := head.getD [] ++ word
  let found := st.entries.filterMap fun e =>
    if full.length ≤ e.length && full.isPrefixOf e then
      some (full ++ [e[full.length]?.getD st.terminator])
    else none
  dedupSorted (found.mergeSort fun x y => Symbol.cmpSeq x y != .gt)

end Store

end SeqPattern
