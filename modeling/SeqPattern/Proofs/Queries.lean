import SeqPattern.Search.Predict
import Mathlib.Algebra.Order.BigOperators.Group.List
import Mathlib.Algebra.Order.Group.Nat
/-!
# What a search asks its oracle

A search talks to its oracle in rounds. The first round asks one query: the empty
word, with the configured head. Every later round asks, without a head, one query per
candidate it was handed, in the order the candidates were found; each candidate is a
sequence the oracle returned in the round before, and no round asks about a sequence
twice. Under a breadth limit `k` a later round asks at most `k` queries, so a search of
`m` steps asks at most `1 + k * m`. A failed query ends the search at once: nothing is
asked after it, and the search fails with the failure as it came, as does the search
with a pattern.

All of this holds for every oracle, whatever it answers and however its answers depend
on the queries before. A search is logged round by round (`Round`): the candidates a
round was handed and the queries it asked. What a round asks is read off its loop over
the candidates (`round_ok`, `round_error`): one query per candidate, in order, unless a
query fails. What it hands on is the harvest of its answers, cut to the limit
(`Nfa.handOn`), and the harvest keeps what it picks (`Picked`): an extension the round
takes in is recorded as seen, once and in the order returned, and every candidate
handed on is one of them. One step of the search either ends it or hands the candidates
to the next round (`searchGo_step`), and the run lemma `searchGo_rounds` builds the log
of a whole search. It also finds the search settled (`Settled`): either every query was
answered, or only the last one failed and the search failed with it, so a failed query
is the last (`Settled.failed`).

Main statements: `Settled.failed`, `Nfa.round_ok`, `Nfa.round_error`,
`Nfa.searchGo_rounds` and `Nfa.predict_queries`.
-/

namespace SeqPattern

variable {ε : Type}

/-! ## Queries and answers -/

/-- The query a candidate puts, with the head of its round. -/
def Candidate.query (head : Option (List Symbol)) (c : Candidate) : Query := ⟨c.word, head⟩

@[simp] theorem Candidate.query_word (head : Option (List Symbol)) (c : Candidate) :
    (c.query head).word = c.word := rfl

@[simp] theorem Candidate.query_head (head : Option (List Symbol)) (c : Candidate) :
    (c.query head).head = head := rfl

namespace Oracle

/-- What the oracle returned to the queries `qs`, asked one after the other after the
queries `past`, oldest first: the sequences of every answer, in order. A failed query
returns nothing. -/
def returned (o : Oracle ε) (past : List Query) : List Query → List (List Symbol)
  | [] => []
  | q :: qs => (o past.reverse q).toOption.getD [] ++ o.returned (past ++ [q]) qs

/-- What the oracle answered to each of the queries `qs`, asked one after the other after
the queries `past`, oldest first: the sequences of each answer, or none for a failed
query. -/
def answers (o : Oracle ε) (past : List Query) : List Query → List (List (List Symbol))
  | [] => []
  | q :: qs => (o past.reverse q).toOption.getD [] :: o.answers (past ++ [q]) qs

/-- Every query among `calls`, latest first, was answered. -/
def Answered (o : Oracle ε) (calls : List Query) : Prop :=
  ∀ q rest, q :: rest <:+ calls → ∃ exts, o rest q = .ok exts

variable {o : Oracle ε}

theorem Answered.nil : o.Answered [] := fun _ _ h => absurd h.length_le (by simp)

/-- An answered query on top of answered ones. -/
theorem Answered.cons {q : Query} {calls : List Query} {exts : List (List Symbol)}
    (h : o.Answered calls) (hq : o calls q = .ok exts) : o.Answered (q :: calls) := by
  intro q' rest hsuf
  rcases List.suffix_cons_iff.mp hsuf with heq | hsuf
  · obtain ⟨rfl, rfl⟩ := List.cons.inj heq
    exact ⟨exts, hq⟩
  · exact h q' rest hsuf

theorem Answered.of_suffix {calls calls' : List Query} (h : o.Answered calls')
    (hsuf : calls <:+ calls') : o.Answered calls :=
  fun q rest hq => h q rest (hq.trans hsuf)

end Oracle

/-- One round of a search as it ran: the candidates it was handed, in order, and the
queries it asked, in order. -/
structure Round where
  cands : List Candidate
  calls : List Query

namespace Round

/-- How a round with the head `head` asked: one query per candidate, in order; or, where
`cut` holds, the queries of its first candidates up to some query, and none after. -/
def Asked (head : Option (List Symbol)) (cut : Prop) (r : Round) : Prop :=
  r.calls = r.cands.map (Candidate.query head) ∨
    cut ∧ ∃ asked q, r.calls = asked ++ [q] ∧ asked ++ [q] <+: r.cands.map (Candidate.query head)

/-- Each candidate of a round with the sequences the oracle answered to its query, the
queries asked after the queries `past`, oldest first. -/
def answered (o : Oracle ε) (past : List Query) (r : Round) :
    List (Candidate × List (List Symbol)) :=
  r.cands.zip (o.answers past r.calls)

/-- The queries asked before the round `i` of the rounds `rounds`, oldest first. -/
def before (rounds : List Round) (i : Nat) : List Query := ((rounds.take i).map Round.calls).flatten

/-- A round asks its candidates' queries, or the first of them. -/
theorem Asked.prefix {head : Option (List Symbol)} {cut : Prop} {r : Round} (h : r.Asked head cut) :
    r.calls <+: r.cands.map (Candidate.query head) := by
  rcases h with h | ⟨-, asked, q, h, hpre⟩
  · exact h ▸ List.prefix_refl _
  · exact h ▸ hpre

/-- A round handed candidates asks at least one query. -/
theorem Asked.calls_ne_nil {head : Option (List Symbol)} {cut : Prop} {r : Round}
    (h : r.Asked head cut) (hne : r.cands ≠ []) : r.calls ≠ [] := by
  rcases h with h | ⟨-, asked, q, h, -⟩
  · simpa [h] using hne
  · simp [h]

end Round

/-- How the queries `next` of a round follow from the queries `prev` of the round
before, asked after the queries `past` (oldest first): each asks, without a head, about
a different sequence, which the oracle returned to `prev`, in the order returned; and
under a breadth limit `k` there are at most `k` of them. -/
structure Follows (o : Oracle ε) (limit : Option Nat) (past prev next : List Query) : Prop where
  head : ∀ q ∈ next, q.head = none
  nodup : (next.map Query.word).Nodup
  returned : (next.map Query.word).Sublist (o.returned past prev)
  limit : ∀ k, limit = some k → next.length ≤ k

/-- How a search's queries and its answer fit together: either every query was
answered and the search did not fail, or the last query failed, every other one was
answered, and the search failed with the last query's failure. -/
def Settled (o : Oracle ε) (run : SearchRun ε) : Prop :=
  (o.Answered run.calls.reverse ∧ ∀ e, run.result ≠ .error e) ∨
    ∃ q rest e, run.calls.reverse = q :: rest ∧ o.Answered rest ∧ o rest q = .error e ∧
      run.result = .error e

/-- In a settled search a failed query is the last one asked, and the search failed with
its failure. -/
theorem Settled.failed {o : Oracle ε} {run : SearchRun ε} (hs : Settled o run)
    {pre post : List Query} {q : Query} {e : ε} (hcall : run.calls = pre ++ q :: post)
    (hfail : o pre.reverse q = .error e) : post = [] ∧ run.result = .error e := by
  rcases hs with ⟨hans, -⟩ | ⟨q', rest, e', hrev, hans', hfail', hres⟩
  · -- had every query been answered, this one would not have failed
    obtain ⟨exts, hq⟩ := hans q pre.reverse (by simp [hcall])
    rw [hq] at hfail
    cases hfail
  rw [hcall] at hrev
  simp only [List.reverse_append, List.reverse_cons, List.append_assoc, List.singleton_append]
    at hrev
  cases hpost : post.reverse with
  | nil =>
    -- the failing query is the last one, and its failure is the search's
    rw [hpost, List.nil_append, List.cons.injEq] at hrev
    obtain ⟨rfl, rfl⟩ := hrev
    rw [hfail', Except.error.injEq] at hfail
    subst hfail
    exact ⟨List.reverse_eq_nil_iff.mp hpost, hres⟩
  | cons x xs =>
    -- a query after the failing one would need the failing one answered
    rw [hpost, List.cons_append, List.cons.injEq] at hrev
    obtain ⟨-, rfl⟩ := hrev
    obtain ⟨exts, hq⟩ := hans' q pre.reverse (List.suffix_append xs _)
    rw [hq] at hfail
    cases hfail

/-- Rounds of queries of which the first asks one query and each of at most `m` later
ones at most `k` ask at most `1 + k * m` queries in all. -/
theorem length_flatten_rounds_le {q₀ : Query} {rest : List (List Query)} {k m : Nat}
    (hrest : ∀ r ∈ rest, r.length ≤ k) (hm : rest.length ≤ m) :
    ([q₀] :: rest).flatten.length ≤ 1 + k * m := by
  have hsum : (rest.map List.length).sum ≤ rest.length * k := by
    simpa using List.sum_le_card_nsmul (rest.map List.length) k (by simpa using hrest)
  rw [List.flatten_cons, List.length_append, List.length_flatten, List.length_singleton]
  calc 1 + (rest.map List.length).sum
      ≤ 1 + rest.length * k := Nat.add_le_add_left hsum 1
    _ ≤ 1 + k * m := by
      rw [Nat.mul_comm]
      exact Nat.add_le_add_left (Nat.mul_le_mul_left k hm) 1

/-- Searching with a pattern that compiles asks what the search with its automaton
asks, and fails with that search's failure, as an oracle failure. -/
theorem predict_eq_of_ofPattern {p : Input} {a : Nfa} (h : Nfa.ofPattern p = .ok a)
    (o : Oracle ε) (cfg : SearchConfig) :
    predict p o cfg = ⟨(a.predict o cfg).calls, (a.predict o cfg).result.mapError .oracle⟩ := by
  simp only [predict, h]

/-- The candidates carried into the next round: the first `k` under a breadth limit `k`,
all of them without one. -/
def SearchConfig.cut (cfg : SearchConfig) (cands : List Candidate) : List Candidate :=
  (cfg.limit.map fun k => cands.take k).getD cands

theorem SearchConfig.cut_sublist (cfg : SearchConfig) (cands : List Candidate) :
    (cfg.cut cands).Sublist cands := by
  cases hlim : cfg.limit with
  | none => simp [SearchConfig.cut, hlim]
  | some k => simpa [SearchConfig.cut, hlim] using List.take_sublist k cands

theorem SearchConfig.length_cut_le {cfg : SearchConfig} {k : Nat} (hk : cfg.limit = some k)
    (cands : List Candidate) : (cfg.cut cands).length ≤ k := by
  simp [SearchConfig.cut, hk]

namespace Nfa

variable {a : Nfa}

/-! ## What a round hands on -/

/-- Takes in the sequences answered for one candidate, as a round does. -/
def takeIn (a : Nfa) (term : Symbol) (h : Harvest) (answer : Candidate × List (List Symbol)) :
    Harvest :=
  a.harvest term answer.1 (a.anyAccepting answer.1.live) answer.2 h

/-- The candidates a round hands on, from each of its candidates with the sequences
answered to it: the live extensions its harvest picks, in the order found, cut to the
breadth limit. -/
def handOn (a : Nfa) (cfg : SearchConfig) (answered : List (Candidate × List (List Symbol))) :
    List Candidate :=
  cfg.cut (answered.foldl (a.takeIn cfg.terminator) ⟨[], [], []⟩).next.reverse

/-! ## One harvest -/

/-- A round's harvest against the sequences `R` the oracle has returned in the round so
far: the extensions seen are distinct and were returned, in the order returned, and the
candidates handed on are among them. -/
structure Picked (h : Harvest) (R : List (List Symbol)) : Prop where
  nodup : h.seen.Nodup
  seen : h.seen.reverse.Sublist R
  next : (h.next.map Candidate.word).Sublist h.seen

theorem Picked.empty : Picked ⟨[], [], []⟩ [] := ⟨List.nodup_nil, .slnil, .slnil⟩

/-- More returned sequences keep what was picked. -/
theorem Picked.widen {h : Harvest} {R : List (List Symbol)} (hp : Picked h R) (S : List (List Symbol)) :
    Picked h (R ++ S) :=
  ⟨hp.nodup, hp.seen.trans (List.sublist_append_left R S), hp.next⟩

/-- Recording a new extension as seen. -/
theorem Picked.see {h : Harvest} {R : List (List Symbol)} (hp : Picked h R) {ext : List Symbol}
    (hnew : ext ∉ h.seen) : Picked { h with seen := ext :: h.seen } (R ++ [ext]) :=
  ⟨List.nodup_cons.mpr ⟨hnew, hp.nodup⟩, by simpa using hp.seen.append_right [ext],
    hp.next.cons ext⟩

/-- Recording a new extension as seen and handing it on. -/
theorem Picked.hand {h : Harvest} {R : List (List Symbol)} (hp : Picked h R) {ext : List Symbol}
    (hnew : ext ∉ h.seen) (live : List Nat) :
    Picked { h with seen := ext :: h.seen, next := ⟨ext, live⟩ :: h.next } (R ++ [ext]) :=
  ⟨(hp.see hnew).nodup, (hp.see hnew).seen, hp.next.cons_cons ext⟩

/-- **The harvest keeps what was picked.** Taking in a candidate's extensions records
each new one as seen, once, in the order returned, and hands on only extensions it
records; what is complete does not matter. -/
theorem harvest_picked (term : Symbol) (c : Candidate) (acc : Bool) :
    ∀ {exts : List (List Symbol)} {h : Harvest} {R : List (List Symbol)},
      Picked h R → Picked (a.harvest term c acc exts h) (R ++ exts)
  | [], h, R, hp => by
    rw [List.append_nil]
    exact hp
  | ext :: exts, h, R, hp => by
    rw [show R ++ ext :: exts = R ++ [ext] ++ exts by simp]
    unfold harvest
    by_cases hskip : (decide (ext.length ≤ c.word.length) || h.seen.contains ext) = true
    · -- a short or repeated extension is skipped
      rw [if_pos hskip]
      exact harvest_picked term c acc (hp.widen [ext])
    rw [if_neg hskip]
    have hnew : ext ∉ h.seen := fun hmem => hskip (by simp [hmem])
    cases ext.getLast? with
    | none => exact harvest_picked term c acc (hp.see hnew)
    | some last =>
      by_cases hx : last = term
      · -- a complete extension is seen, and never handed on
        simp only [hx, if_true]
        apply harvest_picked term c acc
        cases acc
        · exact hp.see hnew
        · exact ⟨(hp.see hnew).nodup, (hp.see hnew).seen, (hp.see hnew).next⟩
      · simp only [hx, if_false]
        apply harvest_picked term c acc
        by_cases hlive : (a.step c.live last term).isEmpty
        · simpa only [hlive, if_true] using hp.see hnew
        · simpa only [hlive, if_false, Bool.false_eq_true] using hp.hand hnew (a.step c.live last term)

/-! ## One round -/

section Round

variable (o : Oracle ε) (term : Symbol) (head : Option (List Symbol))

/-- **A round that succeeds** asks one query per candidate, in order, each answered; its
harvest is that of the answers, taken in candidate by candidate; and it picks from what
the oracle returned to them. -/
theorem round_ok :
    ∀ {cands : List Candidate} {calls calls' : List Query} {h h' : Harvest}
      {R : List (List Symbol)},
      a.round o term head cands calls h = (calls', .ok h') →
      calls' = (cands.map (Candidate.query head)).reverse ++ calls ∧
        h' = (cands.zip (o.answers calls.reverse (cands.map (Candidate.query head)))).foldl
          (a.takeIn term) h ∧
        (o.Answered calls → o.Answered calls') ∧
        (Picked h R → Picked h' (R ++ o.returned calls.reverse (cands.map (Candidate.query head))))
  | [], calls, calls', h, h', R, hround => by
    simp only [round, Prod.mk.injEq, Except.ok.injEq] at hround
    obtain ⟨rfl, rfl⟩ := hround
    exact ⟨rfl, rfl, id, fun hp => by simpa [Oracle.returned] using hp⟩
  | c :: cs, calls, calls', h, h', R, hround => by
    simp only [round] at hround
    split at hround
    · cases hround
    rename_i exts hq
    obtain ⟨hcalls, hharvest, hans, hpick⟩ := round_ok (R := R ++ exts) hround
    refine ⟨by simp [hcalls, Candidate.query], ?_, fun hc => hans (hc.cons hq), fun hp => ?_⟩
    · -- the first answer is the one to this candidate's query
      rw [hharvest]
      simp [Oracle.answers, Candidate.query, hq, Except.toOption, takeIn]
    have hret : o.returned calls.reverse ((c :: cs).map (Candidate.query head)) =
        exts ++ o.returned (⟨c.word, head⟩ :: calls).reverse (cs.map (Candidate.query head)) := by
      simp [Oracle.returned, Candidate.query, hq, Except.toOption]
    rw [hret, ← List.append_assoc]
    exact hpick (harvest_picked term c _ hp)

/-- **A round that fails** asks the queries of its candidates in order up to the first
that fails, and no further; the queries before it were answered. -/
theorem round_error :
    ∀ {cands : List Candidate} {calls calls' : List Query} {h : Harvest} {e : ε},
      a.round o term head cands calls h = (calls', .error e) →
      ∃ asked q, asked ++ [q] <+: cands.map (Candidate.query head) ∧
        calls' = q :: (asked.reverse ++ calls) ∧ o (asked.reverse ++ calls) q = .error e ∧
        (o.Answered calls → o.Answered (asked.reverse ++ calls))
  | [], calls, calls', h, e, hround => by
    simp [round] at hround
  | c :: cs, calls, calls', h, e, hround => by
    simp only [round] at hround
    split at hround
    · -- this candidate's query fails
      rename_i e' hq
      simp only [Prod.mk.injEq, Except.error.injEq] at hround
      obtain ⟨rfl, rfl⟩ := hround
      exact ⟨[], ⟨c.word, head⟩, by simp [Candidate.query], rfl, hq, id⟩
    · rename_i exts hq
      obtain ⟨asked, q, hpre, rfl, hfail, hans⟩ := round_error hround
      refine ⟨⟨c.word, head⟩ :: asked, q, ?_, by simp, by simpa using hfail,
        fun hc => by simpa using hans (hc.cons hq)⟩
      simpa [Candidate.query] using hpre

end Round

/-! ## The rounds of a search -/

variable (o : Oracle ε) (cfg : SearchConfig)

/-- **One step of a search.** A round either fails and ends the search with its
failure, or succeeds and then ends the search with an outcome, or hands the candidates
it picked, in order and cut to the breadth limit, to a search of one round less. -/
theorem searchGo_step (n : Nat) (first : Bool) (cands : List Candidate) (calls : List Query) :
    (∃ calls' e, a.round o cfg.terminator (if first then cfg.head else none) cands calls
        ⟨[], [], []⟩ = (calls', .error e) ∧
        a.searchGo o cfg (n + 1) first cands calls = ⟨calls'.reverse, .error e⟩) ∨
    ∃ calls' h, a.round o cfg.terminator (if first then cfg.head else none) cands calls
        ⟨[], [], []⟩ = (calls', .ok h) ∧
      ((∃ out, a.searchGo o cfg (n + 1) first cands calls = ⟨calls'.reverse, .ok out⟩) ∨
        a.searchGo o cfg (n + 1) first cands calls =
          a.searchGo o cfg n false (cfg.cut h.next.reverse) calls') := by
  cases hround : a.round o cfg.terminator (if first then cfg.head else none) cands calls
      ⟨[], [], []⟩ with
  | mk calls' res =>
    cases res with
    | error e => exact .inl ⟨calls', e, rfl, by simp [searchGo, hround]⟩
    | ok h =>
      refine .inr ⟨calls', h, rfl, ?_⟩
      by_cases hc : h.complete.isEmpty = true
      · by_cases hn : h.next.isEmpty = true
        · exact .inl ⟨.exhausted, by simp [searchGo, hround, hc, hn]⟩
        · -- the picked candidates go on, cut to the breadth limit when there is one
          refine .inr ?_
          cases hlim : cfg.limit with
          | none => simp [searchGo, hround, hc, hn, hlim, SearchConfig.cut]
          | some k => simp [searchGo, hround, hc, hn, hlim, SearchConfig.cut]
      · exact .inl ⟨.found h.complete.reverse, by simp [searchGo, hround, hc]⟩

/-- What is handed on from a round that picked `h` is asked about, in the next round, as
`Follows` says: a prefix of the queries of candidates picked in order, without a head. -/
theorem follows_of_picked {h : Harvest} {past prev r : List Query} {next : List Candidate}
    (hp : Picked h (o.returned past prev)) (hnext : next.Sublist h.next.reverse)
    (hlim : ∀ k, cfg.limit = some k → next.length ≤ k)
    (hr : r <+: next.map (Candidate.query none)) : Follows o cfg.limit past prev r := by
  have hwords : (r.map Query.word).Sublist (next.map Candidate.word) := by
    simpa [Function.comp_def] using (hr.map Query.word).sublist
  have hnext' : (next.map Candidate.word).Sublist (h.next.map Candidate.word).reverse := by
    simpa [List.map_reverse] using hnext.map Candidate.word
  have hpicked := hnext'.trans hp.next.reverse
  refine ⟨fun q hq => ?_, ?_, hwords.trans (hpicked.trans hp.seen), fun k hk => ?_⟩
  · obtain ⟨c, -, rfl⟩ := List.mem_map.mp (hr.subset hq)
    rfl
  · exact (hwords.trans hpicked).nodup (List.pairwise_reverse.mpr (hp.nodup.imp Ne.symm))
  · calc r.length ≤ (next.map (Candidate.query none)).length := hr.length_le
      _ = next.length := List.length_map _
      _ ≤ k := hlim k hk

/-- **The rounds of a search.** From candidates and queries already asked (latest first,
all answered), a search of `n` rounds is logged round by round: at most `n` rounds, the
first handed the candidates. Each round asks one query per candidate, in order, except
the last round of a search that failed, which stops at the failing query. Each later
round is handed what the round before hands on from its answers, and asks as `Follows`
says. The search's queries and answer are settled. -/
theorem searchGo_rounds :
    ∀ (n : Nat) (first : Bool) (cands : List Candidate) (calls : List Query), o.Answered calls →
      ∃ rounds : List Round,
        (a.searchGo o cfg n first cands calls).calls =
          calls.reverse ++ (rounds.map Round.calls).flatten ∧
        rounds.length ≤ n ∧
        (0 < n → rounds.head?.map Round.cands = some cands) ∧
        (∀ i (hi : i < rounds.length),
          rounds[i].Asked (if first ∧ i = 0 then cfg.head else none)
            (i + 1 = rounds.length ∧ ∃ e, (a.searchGo o cfg n first cands calls).result = .error e)) ∧
        (∀ i (hi : i + 1 < rounds.length),
          rounds[i + 1].cands =
            a.handOn cfg (rounds[i].answered o (calls.reverse ++ Round.before rounds i)) ∧
          Follows o cfg.limit (calls.reverse ++ Round.before rounds i) rounds[i].calls
            rounds[i + 1].calls) ∧
        Settled o (a.searchGo o cfg n first cands calls)
  | 0, _, _, calls, hans => by
    refine ⟨[], by simp [searchGo], le_rfl, fun h => absurd h (Nat.lt_irrefl 0),
      fun i hi => absurd hi (by simp), fun i hi => absurd hi (by simp),
      .inl ⟨by simpa [searchGo] using hans, by simp [searchGo]⟩⟩
  | n + 1, first, cands, calls, hans => by
    rcases searchGo_step o cfg n first cands calls with ⟨calls', e, hround, hrun⟩ |
      ⟨calls', h, hround, hend⟩
    · -- the round fails: it is the last, asked up to the failing query
      obtain ⟨asked, q, hpre, rfl, hfail, hans'⟩ := round_error o _ _ hround
      rw [hrun]
      refine ⟨[⟨cands, asked ++ [q]⟩], by simp, by simp, fun _ => rfl, fun i hi => ?_,
        fun i hi => absurd hi (by simp), .inr ⟨q, asked.reverse ++ calls, e, by simp,
          hans' hans, hfail, rfl⟩⟩
      obtain rfl : i = 0 := by simpa using hi
      exact Or.inr ⟨⟨rfl, e, rfl⟩, asked, q, rfl, by simpa using hpre⟩
    obtain ⟨rfl, hharvest, hans', hpick⟩ := round_ok (R := []) o _ _ hround
    have hp := hpick Picked.empty
    rw [List.nil_append] at hp
    rcases hend with ⟨out, hrun⟩ | hrun
    · -- the round ends the search: it is the last, and asked every candidate
      rw [hrun]
      refine ⟨[⟨cands, cands.map (Candidate.query (if first then cfg.head else none))⟩], by simp,
        by simp, fun _ => rfl, fun i hi => ?_, fun i hi => absurd hi (by simp),
        .inl ⟨by simpa using hans' hans, by simp⟩⟩
      obtain rfl : i = 0 := by simpa using hi
      exact Or.inl (by simp)
    · -- the round hands on candidates: the rounds of the rest follow it
      obtain ⟨rounds, hcalls, hlen, hfirst, hasked, hhand, hsettled⟩ :=
        searchGo_rounds n false (cfg.cut h.next.reverse) _ (hans' hans)
      rw [hrun]
      refine ⟨⟨cands, cands.map (Candidate.query (if first then cfg.head else none))⟩ :: rounds,
        by simp [hcalls], by simp; omega, fun _ => rfl, fun i hi => ?_, fun i hi => ?_, hsettled⟩
      · cases i with
        | zero => exact Or.inl (by simp)
        | succ i => simpa using hasked i (by simpa using hi)
      · cases i with
        | zero =>
          -- the rest's first round is handed what this round picked, cut to the limit
          have hne : rounds ≠ [] := by
            rintro rfl
            simp at hi
          obtain ⟨r₁, rest, rfl⟩ := List.exists_cons_of_ne_nil hne
          have hr₁ : r₁.cands = cfg.cut h.next.reverse := by
            simpa using hfirst (by simp only [List.length_cons] at hlen; omega)
          have h₁ := hasked 0 (by simp)
          have hr₁calls : r₁.calls <+: r₁.cands.map (Candidate.query none) := by
            simpa using h₁.prefix
          refine ⟨?_, ?_⟩
          · subst hharvest
            simp [hr₁, handOn, Round.answered, Round.before]
          · have hfollow := follows_of_picked o cfg hp (hr₁ ▸ cfg.cut_sublist _)
              (fun k hk => hr₁ ▸ SearchConfig.length_cut_le hk _) hr₁calls
            simpa [Round.before] using hfollow
        | succ i => simpa [Round.before, List.append_assoc] using hhand i (by simpa using hi)

/-- **What a search asks its oracle.** For every automaton, oracle and settings, a search
runs at most `maxSteps + 1` rounds, and its queries are theirs, round after round. The
first round is handed the start candidate and asks one query, the empty word with the
configured head. Every round asks one query per candidate it was handed, in order, and
without a head after the first; only the last round of a search that failed stops
early, at its failing query. Every later round is handed exactly the candidates its
predecessor picks from the answers to its queries, cut to the breadth limit; so it asks
about distinct sequences that the oracle returned in the round before, in the order it
returned them, and under a breadth limit `k` at most `k` of them, and the search asks at
most `1 + k * maxSteps` queries. A failed query is the last one asked, and the search
fails with its failure, as does the search with any pattern that compiles to this
automaton, as an oracle failure. -/
theorem predict_queries (a : Nfa) (o : Oracle ε) (cfg : SearchConfig) :
    ∃ rounds : List Round,
      (a.predict o cfg).calls = (rounds.map Round.calls).flatten ∧
      rounds.length ≤ cfg.maxSteps + 1 ∧
      rounds.head? = some ⟨[⟨[], a.startClosure⟩], [⟨[], cfg.head⟩]⟩ ∧
      (∀ i (hi : i < rounds.length),
        rounds[i].Asked (if i = 0 then cfg.head else none)
          (i + 1 = rounds.length ∧ ∃ e, (a.predict o cfg).result = .error e)) ∧
      (∀ i (hi : i + 1 < rounds.length),
        rounds[i + 1].cands = a.handOn cfg (rounds[i].answered o (Round.before rounds i)) ∧
        Follows o cfg.limit (Round.before rounds i) rounds[i].calls rounds[i + 1].calls) ∧
      (∀ k, cfg.limit = some k → (a.predict o cfg).calls.length ≤ 1 + k * cfg.maxSteps) ∧
      ∀ pre q post e, (a.predict o cfg).calls = pre ++ q :: post → o pre.reverse q = .error e →
        post = [] ∧ (a.predict o cfg).result = .error e ∧
          ∀ p, Nfa.ofPattern p = .ok a → (SeqPattern.predict p o cfg).result = .error (.oracle e) := by
  obtain ⟨rounds, hcalls, hlen, hfirst, hasked, hhand, hsettled⟩ :=
    a.searchGo_rounds o cfg (cfg.maxSteps + 1) true [⟨[], a.startClosure⟩] [] Oracle.Answered.nil
  have hpredict : a.predict o cfg =
      a.searchGo o cfg (cfg.maxSteps + 1) true [⟨[], a.startClosure⟩] [] := rfl
  rw [← hpredict] at hcalls hasked hsettled
  have hne : rounds ≠ [] := by
    rintro rfl
    simp at hfirst
  obtain ⟨⟨cands₀, calls₀⟩, rest, rfl⟩ := List.exists_cons_of_ne_nil hne
  have hcands : cands₀ = [⟨[], a.startClosure⟩] := by simpa using hfirst (Nat.succ_pos _)
  subst hcands
  -- the first round is the one query of the start candidate
  have hcalls₀ : calls₀ = [⟨[], cfg.head⟩] := by
    have h₀ := hasked 0 (by simp)
    have hr : calls₀ <+: [(⟨[], cfg.head⟩ : Query)] := by
      simpa [Candidate.query] using h₀.prefix
    have hne₀ : calls₀ ≠ [] := h₀.calls_ne_nil (List.cons_ne_nil _ _)
    exact hr.eq_of_length (Nat.le_antisymm hr.length_le (List.length_pos_iff.mpr hne₀))
  subst hcalls₀
  refine ⟨_, by simpa using hcalls, hlen, rfl, fun i hi => by simpa using hasked i hi,
    fun i hi => by simpa using hhand i hi, fun k hk => ?_, fun pre q post e hcall hfail => ?_⟩
  · -- one query, then at most `k` in each of at most `maxSteps` rounds
    have hrest : ∀ r ∈ rest.map Round.calls, r.length ≤ k := by
      intro r hr
      obtain ⟨j, hj, rfl⟩ := List.getElem_of_mem hr
      have hj' : j + 1 < (Round.mk [⟨[], a.startClosure⟩] [⟨[], cfg.head⟩] :: rest).length := by
        simp only [List.length_map] at hj
        simp [hj]
      simpa using (hhand j hj').2.limit k hk
    rw [hcalls]
    exact length_flatten_rounds_le hrest (by simpa using hlen)
  · obtain ⟨hpost, hres⟩ := hsettled.failed hcall hfail
    refine ⟨hpost, hres, fun p hp => ?_⟩
    rw [predict_eq_of_ofPattern hp, hres]
    rfl

end Nfa

end SeqPattern
