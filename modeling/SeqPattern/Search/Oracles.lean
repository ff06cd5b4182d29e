import SeqPattern.Search.Predict
import SeqPattern.Store
/-!
# Oracles

Two prefix oracles: a sequence store, which answers every query with its
extensions and never fails, and a script of rules. A rule answers a query when its
prefix is the query's prefix and its head filter admits the query's head; the first
such rule answers, with its sequences or its failure, and a query no rule answers
gets no sequences.
-/

namespace SeqPattern

/-- The oracle of a store. -/
def Store.oracle {ε : Type} (st : Store) : Oracle ε := fun _ q => .ok (st.extensions q.word q.head)

/-- Which heads a scripted rule admits. -/
inductive HeadFilter where
  /-- Every head, given or not. -/
  | any
  /-- Only a query without a head. -/
  | absent
  /-- Only this head. -/
  | exactly (h : List Symbol)
deriving Repr, DecidableEq, Inhabited

/-- One rule of a scripted oracle. -/
structure Rule where
  word : List Symbol
  head : HeadFilter
  reply : Except String (List (List Symbol))
deriving Inhabited

/-- Whether a head filter admits a query's head. -/
def HeadFilter.admits : HeadFilter → Option (List Symbol) → Bool
  | .any, _ => true
  | .absent, h => h.isNone
  | .exactly h, h' => h' == some h

/-- The oracle of a script of rules. -/
def Rule.oracle (rules : List Rule) : Oracle String := fun _ q =>
  match rules.find? fun r => r.word == q.word && r.head.admits q.head with
  | some r => r.reply
  | none => .ok []

end SeqPattern
