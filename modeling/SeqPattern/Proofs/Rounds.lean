import SeqPattern.Search.Predict
import Mathlib.Data.ENat.Basic
/-!
# The round budget of a search

A search runs one round after another until a round finds complete sequences, or
leaves no candidate, or an oracle query fails; the number of rounds it may run is the
only thing the step budget decides. An oracle here answers a query as a function of
the queries asked before it, so the same search asks the same questions whatever the
budget, and a round never looks at how many rounds are left.

So one round, whatever budget remains, either ends the search with the same
definitive answer or hands the same candidates and queries to the next round
(`searchGo_succ_cases`). A search that ends before its budget runs out therefore ends
the same way under any larger budget (`searchGo_add`). The budgets that run out form
an initial segment, possibly all of them, and every budget past it gives one answer,
asked for by one sequence of queries.

Main statement: `Nfa.predict_answer_stable`.
-/

namespace SeqPattern

namespace Nfa

variable {ε : Type} (a : Nfa) (o : Oracle ε)

/-- A search never reads its step budget after the start: its rounds take the
terminator, the head and the breadth limit from the settings, and nothing else. -/
theorem searchGo_withMaxSteps (cfg : SearchConfig) (m : Nat) :
    ∀ (n : Nat) (first : Bool) (cands : List Candidate) (calls : List Query),
      a.searchGo o { cfg with maxSteps := m } n first cands calls =
        a.searchGo o cfg n first cands calls
  | 0, _, _, _ => rfl
  | n + 1, first, cands, calls => by
    simp only [searchGo, searchGo_withMaxSteps cfg m n]

/-- **What one round does.** Whatever budget remains after it, a round either ends the
search with a definitive answer, the same for every budget, or hands the same
candidates and queries to the next round. -/
theorem searchGo_succ_cases (cfg : SearchConfig) (first : Bool) (cands : List Candidate)
    (calls : List Query) :
    (∃ r : SearchRun ε, r.result ≠ .ok .stepLimit ∧
        ∀ n, a.searchGo o cfg (n + 1) first cands calls = r) ∨
      ∃ cands' calls', ∀ n, a.searchGo o cfg (n + 1) first cands calls =
        a.searchGo o cfg n false cands' calls' := by
  cases hround : a.round o cfg.terminator (if first then cfg.head else none) cands calls
      ⟨[], [], []⟩ with
  | mk calls' res =>
    cases res with
    | error e =>
      exact .inl ⟨⟨calls'.reverse, .error e⟩, by simp, fun n => by simp [searchGo, hround]⟩
    | ok h =>
      by_cases hc : h.complete.isEmpty = true
      · by_cases hn : h.next.isEmpty = true
        · exact .inl ⟨⟨calls'.reverse, .ok .exhausted⟩, by simp,
            fun n => by simp [searchGo, hround, hc, hn]⟩
        · -- the survivors go on, cut to the breadth limit when there is one
          cases hlim : cfg.limit with
          | none =>
            exact .inr ⟨h.next.reverse, calls', fun n => by simp [searchGo, hround, hc, hn, hlim]⟩
          | some k =>
            exact .inr ⟨h.next.reverse.take k, calls',
              fun n => by simp [searchGo, hround, hc, hn, hlim]⟩
      · exact .inl ⟨⟨calls'.reverse, .ok (.found h.complete.reverse)⟩, by simp,
          fun n => by simp [searchGo, hround, hc]⟩

/-- **More rounds keep a definitive answer.** A search that ends before its rounds run
out ends the same way, after the same queries, with any number of rounds more. -/
theorem searchGo_add (cfg : SearchConfig) (k : Nat) :
    ∀ (n : Nat) {first : Bool} {cands : List Candidate} {calls : List Query},
      (a.searchGo o cfg n first cands calls).result ≠ .ok .stepLimit →
        a.searchGo o cfg (n + k) first cands calls = a.searchGo o cfg n first cands calls
  | 0, _, _, _, h => absurd rfl h
  | n + 1, first, cands, calls, h => by
    rw [Nat.add_right_comm]
    rcases searchGo_succ_cases a o cfg first cands calls with ⟨r, -, hr⟩ | ⟨cands', calls', hc⟩
    · rw [hr, hr]
    · rw [hc] at h
      rw [hc, hc, searchGo_add cfg k n h]

/-- A search under the budget of `m` steps is the search of `m + 1` rounds from the
empty prefix. -/
theorem predict_withMaxSteps (cfg : SearchConfig) (m : Nat) :
    a.predict o { cfg with maxSteps := m } =
      a.searchGo o cfg (m + 1) true [⟨[], a.startClosure⟩] [] :=
  searchGo_withMaxSteps a o cfg m _ _ _ _

/-- **Raising the step budget never changes a definitive answer.** For every automaton,
oracle and settings there is a budget `T`, a number or infinity: every budget below
`T` runs out of steps, and every budget from `T` on gives one definitive answer (the
same found sequences, exhaustion, or the same oracle failure) after one sequence of
queries. -/
theorem predict_answer_stable (cfg : SearchConfig) :
    ∃ T : ℕ∞,
      (∀ m : Nat, (m : ℕ∞) < T →
        (a.predict o { cfg with maxSteps := m }).result = .ok .stepLimit) ∧
      ∀ m : Nat, T ≤ m → (a.predict o { cfg with maxSteps := m }).result ≠ .ok .stepLimit ∧
        ∀ m' : Nat, T ≤ m' → a.predict o { cfg with maxSteps := m' } =
          a.predict o { cfg with maxSteps := m } := by
  classical
  by_cases hex : ∃ m, (a.predict o { cfg with maxSteps := m }).result ≠ .ok .stepLimit
  · -- `T` is the least budget with a definitive answer; every larger one repeats it
    have hfind := Nat.find_spec hex
    have hstable : ∀ m, Nat.find hex ≤ m → a.predict o { cfg with maxSteps := m } =
        a.predict o { cfg with maxSteps := Nat.find hex } := by
      intro m hm
      obtain ⟨k, rfl⟩ := Nat.exists_eq_add_of_le hm
      rw [predict_withMaxSteps] at hfind ⊢
      rw [predict_withMaxSteps, Nat.add_right_comm]
      exact searchGo_add a o cfg k _ hfind
    refine ⟨Nat.find hex, fun m hm => ?_, fun m hm => ?_⟩
    · have hlt : m < Nat.find hex := by exact_mod_cast hm
      simpa using Nat.find_min hex hlt
    · have hle : Nat.find hex ≤ m := by exact_mod_cast hm
      refine ⟨by rw [hstable m hle]; exact hfind, fun m' hm' => ?_⟩
      have hle' : Nat.find hex ≤ m' := by exact_mod_cast hm'
      rw [hstable m hle, hstable m' hle']
  · -- no budget gives a definitive answer: `T` is infinity
    exact ⟨⊤, fun m _ => not_not.mp (not_exists.mp hex m), fun m hm => absurd hm (by simp)⟩

end Nfa

end SeqPattern
