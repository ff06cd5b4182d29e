import SeqPattern.Proofs.Search
/-!
# What a search finds through any oracle

The search never enumerates the oracle, and nothing forces an oracle to answer like
a store: it may answer each query with any list of sequences, depend on the queries
asked before, or repeat itself. This file shows what a found answer still means when
the oracle only keeps to the shape of its answers: every sequence it returns for a
query is the asked prefix, the head when one is given and then the word, followed
by exactly one symbol (`Oracle.Extends`).

Everything rests on one fact about candidates. A candidate of round `k` stands for a
rest `p` of length `k` after the head: it asks about the head followed by `p`, and the
states it holds are exactly those the automaton reaches on `p` alone (`Tracks`). An
extension of it that does not end in the terminator is the head, `p` and one more
symbol, and the states it is handed on with are the step of the candidate's own
states on that symbol, so the next candidate stands for `p` and that symbol. States
never pass from one candidate to another, whatever the oracle answers.

A round then gathers (`Gathered`) complete extensions that are the head, an accepted
rest of length `k` and the terminator, each answered by a query of this round and
each once, since the round records every extension it takes in before it keeps it.
The first round that completes anything ends the search.

Main statements: `Nfa.harvest_gathered`, `Nfa.round_gathered`,
`Nfa.searchGo_found_sound` and `Nfa.predict_found_sound`.
-/

namespace SeqPattern

/-- The prefix a query asks about: its head, if any, then its word. -/
def Query.asked (q : Query) : List Symbol := q.head.getD [] ++ q.word

/-- An oracle answers in shape when every sequence it returns for a query is the asked
prefix followed by exactly one symbol. -/
def Oracle.Extends {ε : Type} (o : Oracle ε) : Prop :=
  ∀ past q exts, o past q = .ok exts → ∀ ext ∈ exts, ∃ x, ext = q.asked ++ [x]

/-- A store answers in shape. -/
theorem Store.oracle_extends {ε : Type} (st : Store) : Oracle.Extends (st.oracle : Oracle ε) := by
  intro past q exts hq ext hext
  cases hq
  obtain ⟨e, -, -, rfl⟩ := Store.mem_extensions.mp hext
  exact ⟨_, rfl⟩

namespace Nfa

variable {a : Nfa}

/-! ## Candidates that track their own rest -/

/-- A candidate of round `k` stands for a rest `p` of length `k` after the head `hd`: asked
with `head`, its prefix is `hd ++ p`, and its states are those `p` leads to. -/
def Tracks (a : Nfa) (term : Symbol) (hd : List Symbol) (k : Nat) (head : Option (List Symbol))
    (c : Candidate) : Prop :=
  ∃ p, p.length = k ∧ queried head c = hd ++ p ∧ c.live = a.run term a.startClosure p

/-- The query a candidate puts asks about the candidate's prefix. -/
@[simp] theorem asked_query (head : Option (List Symbol)) (c : Candidate) :
    Query.asked ⟨c.word, head⟩ = queried head c := rfl

/-- An extension of a tracking candidate by a symbol other than the terminator,
handed on with the step of the candidate's states, tracks the rest one symbol
longer. -/
theorem Tracks.extend {term : Symbol} {hd : List Symbol} {k : Nat} {head : Option (List Symbol)}
    {c : Candidate} (hc : a.Tracks term hd k head c) (x : Symbol) :
    a.Tracks term hd (k + 1) none ⟨queried head c ++ [x], a.step c.live x term⟩ := by
  obtain ⟨p, hlen, hq, hlive⟩ := hc
  refine ⟨p ++ [x], by simp [hlen], ?_, ?_⟩
  · rw [queried_none, hq, List.append_assoc]
  · rw [run_concat, hlive]

/-! ## One harvest -/

/-- What a round has gathered so far: complete extensions that are distinct, recorded
as seen, and satisfy `P`, and next candidates that satisfy `Q`. -/
structure Gathered (P : List Symbol → Prop) (Q : Candidate → Prop) (h : Harvest) : Prop where
  nodup : h.complete.Nodup
  seen : ∀ s ∈ h.complete, s ∈ h.seen
  complete : ∀ s ∈ h.complete, P s
  next : ∀ c ∈ h.next, Q c

section Gathered

variable {P P' : List Symbol → Prop} {Q : Candidate → Prop}

theorem Gathered.empty : Gathered P Q ⟨[], [], []⟩ where
  nodup := List.nodup_nil
  seen _ h := absurd h List.not_mem_nil
  complete _ h := absurd h List.not_mem_nil
  next _ h := absurd h List.not_mem_nil

theorem Gathered.mono {h : Harvest} (hg : Gathered P Q h) (hP : ∀ s, P s → P' s) :
    Gathered P' Q h :=
  ⟨hg.nodup, hg.seen, fun s hs => hP s (hg.complete s hs), hg.next⟩

/-- Recording an extension as seen keeps what was gathered. -/
theorem Gathered.see {h : Harvest} (hg : Gathered P Q h) (ext : List Symbol) :
    Gathered P Q { h with seen := ext :: h.seen } :=
  ⟨hg.nodup, fun s hs => List.mem_cons_of_mem _ (hg.seen s hs), hg.complete, hg.next⟩

/-- Keeping an extension first recorded as seen keeps the complete ones distinct. -/
theorem Gathered.keep {h : Harvest} (hg : Gathered P Q h) {ext : List Symbol}
    (hnew : ext ∉ h.seen) (hP : P ext) :
    Gathered P Q { h with seen := ext :: h.seen, complete := ext :: h.complete } where
  nodup := List.nodup_cons.mpr ⟨fun hmem => hnew (hg.seen ext hmem), hg.nodup⟩
  seen s hs := by
    rcases List.mem_cons.mp hs with rfl | hs
    · exact List.mem_cons_self
    · exact List.mem_cons_of_mem _ (hg.seen s hs)
  complete s hs := by
    rcases List.mem_cons.mp hs with rfl | hs
    · exact hP
    · exact hg.complete s hs
  next := hg.next

/-- Handing on a candidate that satisfies `Q` keeps what was gathered. -/
theorem Gathered.hand {h : Harvest} (hg : Gathered P Q h) {c : Candidate} (hQ : Q c) :
    Gathered P Q { h with next := c :: h.next } :=
  ⟨hg.nodup, hg.seen, hg.complete, fun c' hc' => by
    rcases List.mem_cons.mp hc' with rfl | hc'
    · exact hQ
    · exact hg.next c' hc'⟩

end Gathered

/-- **A harvest keeps what was gathered.** When every extension ending in the
terminator satisfies `P` if the candidate's states accept, and every other extension,
handed on with the step of the candidate's states on its last symbol, satisfies `Q`,
taking the extensions in keeps the complete ones distinct and all of them within `P`
and `Q`. -/
theorem harvest_gathered {P : List Symbol → Prop} {Q : Candidate → Prop} (term : Symbol)
    (c : Candidate) (acc : Bool) :
    ∀ {exts : List (List Symbol)} {h : Harvest},
      (∀ ext ∈ exts, ∀ x, ext.getLast? = some x →
        (x = term → acc = true → P ext) ∧ (x ≠ term → Q ⟨ext, a.step c.live x term⟩)) →
      Gathered P Q h → Gathered P Q (a.harvest term c acc exts h)
  | [], _, _, hg => hg
  | ext :: exts, h, hexts, hg => by
    have hrest : ∀ h', Gathered P Q h' → Gathered P Q (a.harvest term c acc exts h') :=
      fun _ => harvest_gathered term c acc fun e he => hexts e (List.mem_cons_of_mem _ he)
    have hext := hexts ext List.mem_cons_self
    unfold harvest
    -- a skipped extension changes nothing; a fresh one is first recorded as seen
    by_cases hskip : (decide (ext.length ≤ c.word.length) || h.seen.contains ext) = true
    · rw [if_pos hskip]
      exact hrest h hg
    rw [if_neg hskip]
    have hnew : ext ∉ h.seen := by
      intro hmem
      apply hskip
      simp [hmem]
    cases hlast : ext.getLast? with
    | none => exact hrest _ (hg.see ext)
    | some x =>
      obtain ⟨hP, hQ⟩ := hext x hlast
      by_cases hx : x = term
      · simp only [hx, if_true]
        apply hrest
        cases acc with
        | false => exact hg.see ext
        | true => exact hg.keep hnew (hP hx rfl)
      · simp only [hx, if_false]
        apply hrest
        by_cases hlive : (a.step c.live x term).isEmpty
        · simpa only [hlive, if_true] using hg.see ext
        · simpa only [hlive, if_false, Bool.false_eq_true] using (hg.see ext).hand (hQ hx)

/-! ## One round -/

/-- `s` is the head `hd`, an accepted rest of length `k` and the terminator. -/
def Finished (a : Nfa) (term : Symbol) (hd : List Symbol) (k : Nat) (s : List Symbol) : Prop :=
  ∃ w, w.length = k ∧ s = hd ++ w ++ [term] ∧ a.acceptsWith term w = true

/-- The oracle returned `s` to a query asked after the calls `calls₀` and among the
calls `calls`, both latest first: the query and the calls before it are a suffix of
`calls` that still holds `calls₀`. -/
def AnsweredSince {ε : Type} (o : Oracle ε) (calls₀ calls : List Query) (s : List Symbol) : Prop :=
  ∃ q rest exts, q :: rest <:+ calls ∧ calls₀ <:+ rest ∧ o rest q = .ok exts ∧ s ∈ exts

theorem AnsweredSince.cons {ε : Type} {o : Oracle ε} {calls₀ calls : List Query} {s : List Symbol}
    (h : AnsweredSince o calls₀ calls s) (q : Query) : AnsweredSince o calls₀ (q :: calls) s := by
  obtain ⟨q', rest, exts, hsuf, h₀, hq, hs⟩ := h
  exact ⟨q', rest, exts, hsuf.trans (List.suffix_cons q calls), h₀, hq, hs⟩

section Round

variable {ε : Type} (o : Oracle ε) (term : Symbol) (hd : List Symbol) (k : Nat)
  (head : Option (List Symbol)) (calls₀ : List Query)

/-- What round `k` gathers when its calls so far are `calls`: complete extensions of
rest length `k` answered in this round, and candidates of round `k + 1`. -/
abbrev RoundGathered (calls : List Query) : Harvest → Prop :=
  Gathered (fun s => a.Finished term hd k s ∧ AnsweredSince o calls₀ calls s)
    (a.Tracks term hd (k + 1) none)

/-- A candidate's harvest, on the answer its query got, gathers what the round
gathers: an answer in shape extends the candidate's prefix by one symbol, which either
completes the candidate's own rest or tracks it one symbol further. -/
theorem harvest_roundGathered {c : Candidate} {calls : List Query} {exts : List (List Symbol)}
    {h : Harvest} (hc : a.Tracks term hd k head c) (hcalls : calls₀ <:+ calls)
    (hq : o calls ⟨c.word, head⟩ = .ok exts) (hshape : ∀ ext ∈ exts, ∃ x, ext = queried head c ++ [x])
    (hg : a.RoundGathered o term hd k calls₀ (⟨c.word, head⟩ :: calls) h) :
    a.RoundGathered o term hd k calls₀ (⟨c.word, head⟩ :: calls)
      (a.harvest term c (a.anyAccepting c.live) exts h) := by
  apply harvest_gathered term c _ _ hg
  intro ext hext x hlast
  obtain ⟨y, rfl⟩ := hshape ext hext
  rw [List.getLast?_concat, Option.some.injEq] at hlast
  subst hlast
  obtain ⟨p, hlen, hqp, hlive⟩ := hc
  constructor
  · -- the candidate's own rest is complete
    intro hx hacc
    subst hx
    refine ⟨⟨p, hlen, by rw [hqp], ?_⟩, ⟨c.word, head⟩, calls, exts, List.suffix_refl _, hcalls, hq, hext⟩
    rw [acceptsWith, ← hlive, hacc]
  · intro _
    exact Tracks.extend ⟨p, hlen, hqp, hlive⟩ y

/-- **The round lemma.** A round over candidates that track rests of length `k`, against
an oracle in shape, asks one query per candidate, each about a prefix of length
`hd.length + k`, and keeps what it gathers within `RoundGathered`. -/
theorem round_gathered (hext : Oracle.Extends o) :
    ∀ {cands : List Candidate} {calls : List Query} {h : Harvest} {calls' : List Query}
      {h' : Harvest}, (∀ c ∈ cands, a.Tracks term hd k head c) → calls₀ <:+ calls →
      a.RoundGathered o term hd k calls₀ calls h →
      a.round o term head cands calls h = (calls', .ok h') →
      a.RoundGathered o term hd k calls₀ calls' h' ∧
        ∃ new, calls' = new ++ calls ∧ ∀ q ∈ new, q.asked.length = hd.length + k
  | [], calls, h, calls', h', _, _, hg, hround => by
    simp only [round, Prod.mk.injEq, Except.ok.injEq] at hround
    obtain ⟨rfl, rfl⟩ := hround
    exact ⟨hg, [], rfl, fun _ h => absurd h List.not_mem_nil⟩
  | c :: cs, calls, h, calls', h', hcands, hcalls, hg, hround => by
    have hc := hcands c List.mem_cons_self
    -- the candidate's query: a failing one would have ended the round with an error
    simp only [round] at hround
    split at hround
    · cases hround
    rename_i exts hq
    have hshape : ∀ ext ∈ exts, ∃ x, ext = queried head c ++ [x] := fun ext he => by
      simpa using hext calls _ exts hq ext he
    have hlen : (queried head c).length = hd.length + k := by
      obtain ⟨p, hp, hqp, -⟩ := hc
      rw [hqp, List.length_append, hp]
    have hg' := a.harvest_roundGathered o term hd k head calls₀ hc hcalls hq hshape
      (hg.mono fun s ⟨hs, hans⟩ => ⟨hs, hans.cons _⟩)
    obtain ⟨hg'', new, rfl, hnew⟩ := round_gathered hext
      (fun c' hc' => hcands c' (List.mem_cons_of_mem _ hc'))
      (hcalls.trans (List.suffix_cons _ calls)) hg' hround
    refine ⟨hg'', new ++ [⟨c.word, head⟩], by simp, fun q hq => ?_⟩
    rcases List.mem_append.mp hq with hq | hq
    · exact hnew q hq
    · rw [List.mem_singleton.mp hq, asked_query, hlen]

end Round

/-! ## The whole search -/

/-- The calls `calls` (oldest first) end with a last round `last` after the calls `pre`:
each call of `last` asks about a prefix of length `n`, each call of `pre` about a
shorter one. -/
def LastRound (n : Nat) (calls pre last : List Query) : Prop :=
  calls = pre ++ last ∧ (∀ q ∈ pre, q.asked.length < n) ∧ ∀ q ∈ last, q.asked.length = n

/-- `s` was the answer to a call of `last`, asked after the calls `pre` and those of
`last` before it (all oldest first). -/
def AnsweredIn {ε : Type} (o : Oracle ε) (pre last : List Query) (s : List Symbol) : Prop :=
  ∃ mid q exts, mid ++ [q] <+: last ∧ o (pre ++ mid).reverse q = .ok exts ∧ s ∈ exts

/-- Answered since `calls₀` among `calls`, latest first, is answered in the calls after
`calls₀`, oldest first. -/
theorem AnsweredSince.answeredIn {ε : Type} {o : Oracle ε} {calls₀ new : List Query}
    {s : List Symbol} (h : AnsweredSince o calls₀ (new ++ calls₀) s) :
    AnsweredIn o calls₀.reverse new.reverse s := by
  obtain ⟨q, rest, exts, ⟨pre, hpre⟩, ⟨mid, rfl⟩, hq, hs⟩ := h
  -- `pre ++ q :: mid` is `new`: the query and the calls before it reach past `calls₀`
  have hnew : new = pre ++ q :: mid :=
    List.append_cancel_right (by simpa using hpre.symm)
  refine ⟨mid.reverse, q, exts, ⟨pre.reverse, ?_⟩, by simpa using hq, hs⟩
  simp [hnew]

variable {ε : Type} {o : Oracle ε} {cfg : SearchConfig}

/-- **The run lemma of the search.** From candidates of round `k` that track rests of
length `k`, after calls that all asked about shorter prefixes, a search against an
oracle in shape that finds `S` finds it in a round `r` within its rounds: `S` is not
empty and has no repeats, the round's calls come last, and each sequence of `S` is the
head, an accepted rest of length `r` and the terminator, answered in that round. -/
theorem searchGo_found_sound (hext : Oracle.Extends o) :
    ∀ (n k : Nat) (first : Bool) (cands : List Candidate) (calls : List Query),
      (∀ c ∈ cands, a.Tracks cfg.terminator (cfg.head.getD []) k
        (if first then cfg.head else none) c) →
      (∀ q ∈ calls, q.asked.length < (cfg.head.getD []).length + k) →
      ∀ {S : List (List Symbol)}, (a.searchGo o cfg n first cands calls).result = .ok (.found S) →
        S ≠ [] ∧ S.Nodup ∧ ∃ r, k ≤ r ∧ r < k + n ∧ ∃ pre last,
          LastRound ((cfg.head.getD []).length + r) (a.searchGo o cfg n first cands calls).calls
            pre last ∧
          ∀ s ∈ S, a.Finished cfg.terminator (cfg.head.getD []) r s ∧ AnsweredIn o pre last s
  | 0, _, _, _, _, _, _, _, hres => by cases hres
  | n + 1, k, first, cands, calls, hcands, hcalls, S, hres => by
    simp only [searchGo] at hres ⊢
    split at hres
    · cases hres
    rename_i calls' h hround
    obtain ⟨hg, new, rfl, hnew⟩ := a.round_gathered o cfg.terminator (cfg.head.getD []) k _ calls
      hext hcands (List.suffix_refl _) Gathered.empty hround
    -- the round completed something and ends the search, or hands on its candidates
    by_cases hc : h.complete.isEmpty
    · simp only [hc, Bool.not_true, Bool.false_eq_true, if_false] at hres ⊢
      by_cases hn : h.next.isEmpty
      · simp [hn] at hres
      simp only [hn, Bool.false_eq_true, if_false] at hres ⊢
      -- the candidates handed on, cut to the limit, track rests one symbol longer
      have hnext : ∀ c' ∈ h.next.reverse,
          a.Tracks cfg.terminator (cfg.head.getD []) (k + 1) (if false then cfg.head else none) c' :=
        fun c' hc' => hg.next c' (List.mem_reverse.mp hc')
      have hcalls' : ∀ q ∈ new ++ calls, q.asked.length < (cfg.head.getD []).length + (k + 1) := by
        intro q hq
        rcases List.mem_append.mp hq with hq | hq
        · rw [hnew q hq]
          omega
        · have := hcalls q hq
          omega
      obtain ⟨hne, hnd, r, hkr, hrn, rest⟩ :=
        searchGo_found_sound hext n (k + 1) false _ _ (fun c' hc' => by
          split at hc'
          · exact hnext c' (List.mem_of_mem_take hc')
          · exact hnext c' hc') hcalls' hres
      exact ⟨hne, hnd, r, by omega, by omega, rest⟩
    · simp only [hc, Bool.not_false, if_true, Except.ok.injEq,
        Outcome.found.injEq] at hres ⊢
      subst hres
      refine ⟨fun hnil => hc (by simpa using hnil), List.nodup_reverse.mpr hg.nodup, k, le_rfl,
        by omega, calls.reverse, new.reverse, ⟨by simp, fun q hq => hcalls q (List.mem_reverse.mp hq),
          fun q hq => hnew q (List.mem_reverse.mp hq)⟩, fun s hs => ?_⟩
      obtain ⟨hs, hans⟩ := hg.complete s (List.mem_reverse.mp hs)
      exact ⟨hs, hans.answeredIn⟩

/-- **What a search finds through any oracle.** Against an oracle whose answers extend
the asked prefix by one symbol, a found answer is not empty and has no repeats, and
it comes from one round `r` within the search's rounds, whose calls come last. Each
found sequence is the head, a rest of length `r` that the automaton accepts on its own
with the terminator as the symbol the wildcard refuses (so matches, when that is the
default terminator), and the terminator; and the oracle returned it in that round. -/
theorem predict_found_sound (a : Nfa) (o : Oracle ε) (cfg : SearchConfig)
    (hext : Oracle.Extends o) {S : List (List Symbol)}
    (hfound : (a.predict o cfg).result = .ok (.found S)) :
    S ≠ [] ∧ S.Nodup ∧ ∃ r ≤ cfg.maxSteps, ∃ pre last,
      LastRound ((cfg.head.getD []).length + r) (a.predict o cfg).calls pre last ∧
      ∀ s ∈ S, (∃ w, w.length = r ∧ s = cfg.head.getD [] ++ w ++ [cfg.terminator] ∧
          a.acceptsWith cfg.terminator w = true ∧ (cfg.terminator = .stop → a.accepts w = true)) ∧
        AnsweredIn o pre last s := by
  have hstart : ∀ c ∈ [Candidate.mk [] a.startClosure],
      a.Tracks cfg.terminator (cfg.head.getD []) 0 (if true then cfg.head else none) c := by
    intro c hc
    rw [List.mem_singleton.mp hc]
    exact ⟨[], rfl, by simp [queried], rfl⟩
  obtain ⟨hne, hnd, r, -, hr, pre, last, hlast, hS⟩ :=
    searchGo_found_sound hext (cfg.maxSteps + 1) 0 true _ [] hstart (fun _ h => absurd h List.not_mem_nil) hfound
  refine ⟨hne, hnd, r, by omega, pre, last, hlast, fun s hs => ?_⟩
  obtain ⟨⟨w, hw, rfl, hacc⟩, hans⟩ := hS s hs
  refine ⟨⟨w, hw, rfl, hacc, fun hterm => ?_⟩, hans⟩
  rw [← acceptsWith_stop, ← hterm, hacc]

/-- The oracle that extends every prefix by `a` or completes it, searched with the
pattern `.`: the search finds `a` in its second round. -/
theorem predict_found_sound_wildcard :
    Oracle.Extends (fun _ q => .ok [q.asked ++ [.char 'a'], q.asked ++ [.stop]] : Oracle String) ∧
      ((⟨#[⟨false, some (.wildcard, 1), #[]⟩, ⟨true, none, #[]⟩], 0, 1⟩ : Nfa).predict (fun _ q => .ok [q.asked ++ [.char 'a'], q.asked ++ [.stop]] : Oracle String) {}).result = .ok (.found [[Symbol.char 'a', .stop]]) ∧
      [[Symbol.char 'a', .stop]] ≠ [] ∧ [[Symbol.char 'a', .stop]].Nodup ∧ ∃ r ≤ ({} : SearchConfig).maxSteps, ∃ pre last,
        LastRound (((({} : SearchConfig).head.getD []).length + r))
          ((⟨#[⟨false, some (.wildcard, 1), #[]⟩, ⟨true, none, #[]⟩], 0, 1⟩ : Nfa).predict (fun _ q => .ok [q.asked ++ [.char 'a'], q.asked ++ [.stop]] : Oracle String) {}).calls pre last ∧
        ∀ s ∈ [[Symbol.char 'a', .stop]], (∃ w, w.length = r ∧ s = ({} : SearchConfig).head.getD [] ++ w ++ [.stop] ∧
            (⟨#[⟨false, some (.wildcard, 1), #[]⟩, ⟨true, none, #[]⟩], 0, 1⟩ : Nfa).acceptsWith .stop w = true ∧ (Symbol.stop = .stop → (⟨#[⟨false, some (.wildcard, 1), #[]⟩, ⟨true, none, #[]⟩], 0, 1⟩ : Nfa).accepts w = true)) ∧
          AnsweredIn (fun _ q => .ok [q.asked ++ [.char 'a'], q.asked ++ [.stop]] : Oracle String) pre last s :=
  have hext : Oracle.Extends (fun _ q => .ok [q.asked ++ [.char 'a'], q.asked ++ [.stop]] : Oracle String) := by
    intro past q exts hq ext hext
    cases hq
    simp only [List.mem_cons, List.not_mem_nil, or_false] at hext
    rcases hext with rfl | rfl
    · exact ⟨_, rfl⟩
    · exact ⟨_, rfl⟩
  have hfound : ((⟨#[⟨false, some (.wildcard, 1), #[]⟩, ⟨true, none, #[]⟩], 0, 1⟩ : Nfa).predict (fun _ q => .ok [q.asked ++ [.char 'a'], q.asked ++ [.stop]] : Oracle String) {}).result = .ok (.found [[Symbol.char 'a', .stop]]) := by decide
  ⟨hext, hfound, predict_found_sound _ _ {} hext hfound⟩

end Nfa

end SeqPattern
