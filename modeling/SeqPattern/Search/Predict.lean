import SeqPattern.Automaton.Closure
import SeqPattern.Automaton.Compile
/-!
# Predictive search

The automaton and a prefix oracle are explored in lockstep, one symbol per round.
The oracle is never enumerated: it is asked only for the one-symbol extensions of
prefixes the automaton can still extend.

Every round asks the oracle once per candidate, in order. An extension no longer
than its candidate's prefix, or already seen in this round, is skipped. An extension
that ends in the terminator is complete when the candidate's own states accept; any
other extension survives when the candidate's states can consume its last symbol,
and becomes a candidate of the next round. The search ends with the complete
extensions of the first round that has any, or when no candidate survives, or when
the rounds run out. Between rounds the candidates may be cut to a breadth limit.

Searching with a pattern compiles it first; a pattern that does not compile asks the
oracle nothing, and an oracle failure is handed back as it came.
-/

namespace SeqPattern

/-- One question to a prefix oracle: a prefix, and a fixed context put before it. -/
structure Query where
  /-- The prefix to extend. -/
  word : List Symbol
  /-- The context, given in the first round only. -/
  head : Option (List Symbol)
deriving Repr, DecidableEq, Inhabited

/-- A prefix oracle: the answer to a query, given the queries asked before it, latest
first. The answer lists sequences, or is a failure of type `ε`. -/
abbrev Oracle (ε : Type) := List Query → Query → Except ε (List (List Symbol))

/-- The settings of one search. -/
structure SearchConfig where
  /-- The context handed to the oracle in the first round. -/
  head : Option (List Symbol) := none
  /-- The largest number of candidates carried into the next round. -/
  limit : Option Nat := none
  /-- The number of rounds after the first. -/
  maxSteps : Nat := 10
  /-- The symbol that marks a complete extension. -/
  terminator : Symbol := .stop
deriving Repr, Inhabited

/-- How a search ends. -/
inductive Outcome where
  /-- Complete extensions accepted by the automaton, each ending in the terminator. -/
  | found (seqs : List (List Symbol))
  /-- Every candidate died before a complete extension was found. -/
  | exhausted
  /-- The rounds ran out first. -/
  | stepLimit
deriving Repr, DecidableEq, Inhabited

namespace Outcome

/-- Whether the search found sequences. -/
def isFound : Outcome → Bool
  | .found _ => true
  | _ => false

/-- The found sequences without their terminator; none unless found. -/
def sequences : Outcome → List (List Symbol)
  | .found seqs => seqs.map List.dropLast
  | _ => []

end Outcome

/-- A prefix still under way, with the closed set of states its symbols lead to. -/
structure Candidate where
  word : List Symbol
  live : List Nat
deriving Repr, Inhabited

/-- What a round has gathered: the extensions seen, the complete ones and the next
candidates, each latest first. -/
structure Harvest where
  seen : List (List Symbol)
  complete : List (List Symbol)
  next : List Candidate
deriving Inhabited

/-- A search as it ran: the queries asked, in order, and its end. -/
structure SearchRun (ε : Type) where
  calls : List Query
  result : Except ε Outcome

namespace Nfa

/-- Takes in the extensions answered for one candidate. -/
def harvest (a : Nfa) (term : Symbol) (c : Candidate) (accepting : Bool) :
    List (List Symbol) → Harvest → Harvest
  | [], h => h
  | ext :: exts, h =>
    if ext.length ≤ c.word.length || h.seen.contains ext then a.harvest term c accepting exts h
    else
      let h := { h with seen := ext :: h.seen }
      match ext.getLast? with
      | none => a.harvest term c accepting exts h
      | some last =>
        if last = term then
          a.harvest term c accepting exts (if accepting then { h with complete := ext :: h.complete } else h)
        else
          let live := a.step c.live last term
          a.harvest term c accepting exts
            (if live.isEmpty then h else { h with next := ⟨ext, live⟩ :: h.next })

/-- Runs one round over the candidates, with the queries asked so far in `calls`,
latest first. A failing query ends the round at once. -/
def round {ε : Type} (a : Nfa) (o : Oracle ε) (term : Symbol) (head : Option (List Symbol)) :
    List Candidate → List Query → Harvest → List Query × Except ε Harvest
  | [], calls, h => (calls, .ok h)
  | c :: cs, calls, h =>
    let q : Query := ⟨c.word, head⟩
    match o calls q with
    | .error e => (q :: calls, .error e)
    | .ok exts => a.round o term head cs (q :: calls) (a.harvest term c (a.anyAccepting c.live) exts h)

/-- Runs at most `rounds` more rounds, the first of them with the head when `first`
holds. -/
def searchGo {ε : Type} (a : Nfa) (o : Oracle ε) (cfg : SearchConfig) :
    Nat → Bool → List Candidate → List Query → SearchRun ε
  | 0, _, _, calls => ⟨calls.reverse, .ok .stepLimit⟩
  | rounds + 1, first, cands, calls =>
    match a.round o cfg.terminator (if first then cfg.head else none) cands calls ⟨[], [], []⟩ with
    | (calls, .error e) => ⟨calls.reverse, .error e⟩
    | (calls, .ok h) =>
      if !h.complete.isEmpty then ⟨calls.reverse, .ok (.found h.complete.reverse)⟩
      else if h.next.isEmpty then ⟨calls.reverse, .ok .exhausted⟩
      else
        let next := h.next.reverse
        a.searchGo o cfg rounds false (match cfg.limit with | some k => next.take k | none => next) calls

/-- Searches the oracle for complete sequences this automaton accepts. -/
def predict {ε : Type} (a : Nfa) (o : Oracle ε) (cfg : SearchConfig) : SearchRun ε :=
  a.searchGo o cfg (cfg.maxSteps + 1) true [⟨[], a.startClosure⟩] []

end Nfa

/-- Why a search with a pattern fails. -/
inductive PredictError (ε : Type) where
  /-- The pattern cannot be read or compiled. -/
  | pattern (e : PatternError)
  /-- A query of the oracle failed. -/
  | oracle (e : ε)
deriving Repr

/-- The words of a search failure, given the words of the oracle's failures. -/
def PredictError.message {ε : Type} (oracleMessage : ε → String) : PredictError ε → String
  | .pattern e => "pattern error: " ++ e.message
  | .oracle e => "prefix oracle failed: " ++ oracleMessage e

/-- Compiles a pattern and searches the oracle with it. -/
def predict {ε : Type} (p : Input) (o : Oracle ε) (cfg : SearchConfig) :
    SearchRun (PredictError ε) :=
  match Nfa.ofPattern p with
  | .ok a =>
    let run := a.predict o cfg
    ⟨run.calls, run.result.mapError .oracle⟩
  | .error e => ⟨[], .error (.pattern e)⟩

end SeqPattern
