import SeqPattern.Pattern.Token
import Mathlib.Computability.Language
/-!
# Regular expressions over symbols

The tree form of a pattern: a symbol (a literal or the wildcard), a class, the empty
expression, alternation, concatenation, the quantifiers `?`, `*`, `+` and bounded
repetition. Each tree has a reverse Polish stream, operands before their operator,
and a stream is read back into trees on a stack: an operand or a class pushes its
tree, a binary operator pops its right operand and then its left one, a quantifier or
a repetition pops one tree.

The language of a tree is a set of symbol sequences. A symbol matches one symbol that
it accepts: itself, or, for the wildcard, anything but the terminator. A class matches
one symbol that one of its members accepts, and a repetition `{min,max}` matches
between `min` and `max` consecutive matches of its operand.
-/

namespace SeqPattern

open Computability

/-- A regular expression over symbols. -/
inductive Regex where
  /-- The empty sequence alone. -/
  | eps
  /-- One symbol that a literal or the wildcard accepts. -/
  | sym (x : Symbol)
  /-- One symbol that a member of the class accepts. -/
  | cls (members : List Symbol)
  /-- Either expression. -/
  | alt (l r : Regex)
  /-- The first expression, then the second. -/
  | cat (l r : Regex)
  /-- Zero or one match. -/
  | opt (e : Regex)
  /-- Zero or more matches. -/
  | star (e : Regex)
  /-- One or more matches. -/
  | plus (e : Regex)
  /-- Between `min` and `max` matches. -/
  | rep (min max : Nat) (e : Regex)
deriving DecidableEq, Repr, Inhabited

namespace Regex

/-- The reverse Polish stream of a tree: the operands first, then the operator. -/
def rpn : Regex → List Token
  | eps => []
  | sym x => [.operand x]
  | cls ms => [.charClass ms]
  | alt l r => l.rpn ++ r.rpn ++ [.alt]
  | cat l r => l.rpn ++ r.rpn ++ [.cat]
  | opt e => e.rpn ++ [.opt]
  | star e => e.rpn ++ [.star]
  | plus e => e.rpn ++ [.plus]
  | rep min max e => e.rpn ++ [.rep min max]

/-- The effect of one token on a stack of trees, top first; a missing operand or a
bracket has no effect but failure. -/
def pushToken : Token → List Regex → Option (List Regex)
  | .operand x, stack => some (sym x :: stack)
  | .charClass ms, stack => some (cls ms :: stack)
  | .alt, r :: l :: stack => some (alt l r :: stack)
  | .cat, r :: l :: stack => some (cat l r :: stack)
  | .opt, e :: stack => some (opt e :: stack)
  | .star, e :: stack => some (star e :: stack)
  | .plus, e :: stack => some (plus e :: stack)
  | .rep min max, e :: stack => some (rep min max e :: stack)
  | _, _ => none

/-- Evaluates a reverse Polish stream on a stack of trees. -/
def evalRpn : List Token → List Regex → Option (List Regex)
  | [], stack => some stack
  | t :: ts, stack => (pushToken t stack).bind (evalRpn ts)

/-- The tree of a reverse Polish stream: the empty expression for the empty stream,
else the one tree that evaluation leaves. -/
def ofRpn : List Token → Option Regex
  | [] => some eps
  | t :: ts =>
    match evalRpn (t :: ts) [] with
    | some [e] => some e
    | _ => none

/-- Whether every repetition in the tree repeats a single symbol. -/
def repsOnSymbols : Regex → Bool
  | eps | sym _ | cls _ => true
  | alt l r | cat l r => l.repsOnSymbols && r.repsOnSymbols
  | opt e | star e | plus e => e.repsOnSymbols
  | rep _ _ (sym _) => true
  | rep _ _ _ => false

/-- The sequences a tree matches, when the wildcard may consume any symbol but `term`. -/
def lang (term : Symbol) : Regex → Language Symbol
  | eps => 1
  | sym x => {w | ∃ y, w = [y] ∧ x.accepts y term = true}
  | cls ms => {w | ∃ y, w = [y] ∧ ∃ m ∈ ms, m.accepts y term = true}
  | alt l r => l.lang term + r.lang term
  | cat l r => l.lang term * r.lang term
  | opt e => 1 + e.lang term
  | star e => (e.lang term)∗
  | plus e => e.lang term * (e.lang term)∗
  | rep min max e => {w | ∃ i, min ≤ i ∧ i ≤ max ∧ w ∈ e.lang term ^ i}

variable {term : Symbol}

theorem mem_lang_sym {x : Symbol} {w : List Symbol} :
    w ∈ (sym x).lang term ↔ ∃ y, w = [y] ∧ x.accepts y term = true := Iff.rfl

theorem mem_lang_cls {ms : List Symbol} {w : List Symbol} :
    w ∈ (cls ms).lang term ↔ ∃ y, w = [y] ∧ ∃ m ∈ ms, m.accepts y term = true := Iff.rfl

theorem mem_lang_rep {min max : Nat} {e : Regex} {w : List Symbol} :
    w ∈ (rep min max e).lang term ↔ ∃ i, min ≤ i ∧ i ≤ max ∧ w ∈ e.lang term ^ i := Iff.rfl

/-- A class matches what its members match, one of them at a time. -/
theorem lang_cls (ms : List Symbol) (w : List Symbol) :
    w ∈ (cls ms).lang term ↔ ∃ m ∈ ms, w ∈ (sym m).lang term := by
  simp only [mem_lang_cls, mem_lang_sym]
  constructor
  · rintro ⟨y, rfl, m, hm, hy⟩
    exact ⟨m, hm, y, rfl, hy⟩
  · rintro ⟨m, hm, y, rfl, hy⟩
    exact ⟨y, rfl, m, hm, hy⟩

end Regex

end SeqPattern
