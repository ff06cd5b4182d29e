import Mathlib
import SeqPattern.Proofs.Reader
import SeqPattern.Proofs.Brackets
import SeqPattern.Proofs.Budget
/-!
# Where an invalid repetition is reported

Compiling a pattern runs three stages, and each can fail: the reader, the conversion to
reverse Polish form, and the builder. An invalid repetition is a reader's error when
its bounds do not read or are out of order or too large, and a builder's error when the
bounded repetition it is handed has a bad range. The second never happens on a pattern:
the reader gives only repetitions with valid ranges (`Pattern.tokenize_yields`), the
conversion only inserts concatenation markers and reorders tokens, and the builder
raises nothing else of that kind. So every invalid repetition a pattern's compilation
reports is the one its reader reported.

The builder's side is said by `Build.Raises S x`: every error `x` fails with satisfies
`S`. The budget only ever adds its own error (`Nfa.compileWith_budget`), and without it
every combinator succeeds (`Build.Adds`), so what remains are the checks a token makes:
its operands, brackets, and the bounded repetition's range and operand.

Main statements: `Nfa.compile_error_kind` and `Nfa.reader_tokens_and_repeat_errors`.
-/

namespace SeqPattern

open Pattern

namespace Build

/-! ## Errors of a build -/

/-- Every error `x` fails with, from any arena, satisfies `S`. -/
def Raises (S : PatternError → Prop) {α : Type} (x : Build α) : Prop :=
  ∀ ar e ar', x.run ar = .error e ar' → S e

variable {S : PatternError → Prop} {α β : Type}

/-- A build that always succeeds raises nothing. -/
theorem Raises.of_adds {k : Nat} {x : Build α} (hx : Adds k x) : Raises S x := by
  intro ar e ar' h
  obtain ⟨v, ar'', hrun, -⟩ := hx ar
  rw [hrun] at h
  cases h

theorem Raises.throw {e : PatternError} (he : S e) : Raises S (MonadExcept.throw e : Build α) := by
  intro ar e' ar' h
  cases h
  exact he

theorem Raises.bind {x : Build α} {f : α → Build β} (hx : Raises S x) (hf : ∀ v, Raises S (f v)) :
    Raises S (x >>= f) := by
  intro ar e ar' h
  rw [EStateM.run_bind] at h
  split at h
  · exact hf _ _ _ _ h
  · rename_i e' ar'' hrun
    cases h
    exact hx _ _ _ hrun

/-! ## The builder without a budget -/

/-- The errors of the builder that are no invalid repetition. -/
abbrev NotRepeat (e : PatternError) : Prop := e.kind ≠ .invalidRepeat

/-- Without a budget, a bounded repetition with a valid range fails only when its
operand is not a single symbol. -/
theorem raises_boundedRepeat (a : Fragment) {min max : Nat} (hmin : min ≤ max)
    (hmax : max ≤ maxRepeat) : Raises NotRepeat (boundedRepeat none a min max) := by
  unfold boundedRepeat
  have hrange : ¬ (max < min || 10000 < max) = true := by
    simp only [Bool.or_eq_true, decide_eq_true_eq, not_or, Nat.not_lt]
    exact ⟨hmin, hmax⟩
  rw [if_neg hrange]
  refine .bind (.of_adds (Adds.singleSymbol a)) fun r => ?_
  cases r with
  | none => exact .throw (by decide)
  | some label =>
    exact .bind (.of_adds (.of_run (fun ar => ar.size) id (fun _ => rfl) fun _ => rfl)) fun _ =>
      .of_adds (Adds.repeatChain a label min max)

/-- Without a budget, a token whose range, if it is a repetition, is valid fails only
for a missing operand, a bracket, or a repetition of more than one symbol. -/
theorem raises_applyToken (t : Token) (stack : List Fragment)
    (ht : ∀ min max, t = .rep min max → min ≤ max ∧ max ≤ maxRepeat) :
    Raises NotRepeat (applyToken none t stack) := by
  cases t with
  | operand s => exact .of_adds (Adds.bind (.symbol s) fun _ => .pure _)
  | charClass ms => exact .of_adds (Adds.bind (.charClass ms) fun _ => .pure _)
  | alt =>
    rcases stack with _ | ⟨r, _ | ⟨f, rest⟩⟩
    · exact .throw (by decide)
    · exact .throw (by decide)
    · exact .of_adds (Adds.bind (.union f r) fun _ => .pure _)
  | cat =>
    rcases stack with _ | ⟨r, _ | ⟨f, rest⟩⟩
    · exact .throw (by decide)
    · exact .throw (by decide)
    · exact .of_adds (Adds.bind (.concat f r) fun _ => .pure _)
  | opt =>
    rcases stack with _ | ⟨f, rest⟩
    · exact .throw (by decide)
    · exact .of_adds (Adds.bind (.optional f) fun _ => .pure _)
  | star =>
    rcases stack with _ | ⟨f, rest⟩
    · exact .throw (by decide)
    · exact .of_adds (Adds.bind (.closure f) fun _ => .pure _)
  | plus =>
    rcases stack with _ | ⟨f, rest⟩
    · exact .throw (by decide)
    · exact .of_adds (Adds.bind (.oneOrMore f) fun _ => .pure _)
  | rep min max =>
    obtain ⟨hmin, hmax⟩ := ht min max rfl
    rcases stack with _ | ⟨f, rest⟩
    · exact .throw (by simp [PatternError.kind])
    · exact .bind (raises_boundedRepeat f hmin hmax) fun _ => .of_adds (.pure _)
  | openGroup => exact .throw (by decide)
  | closeGroup => exact .throw (by decide)

/-- Without a budget, a stream whose repetitions have valid ranges raises no invalid
repetition, by induction on the stream. -/
theorem raises_applyTokens :
    ∀ (ts : List Token) (stack : List Fragment),
      (∀ min max, .rep min max ∈ ts → min ≤ max ∧ max ≤ maxRepeat) →
      Raises NotRepeat (applyTokens none ts stack)
  | [], _, _ => .of_adds (.pure _)
  | t :: ts, stack, h =>
    .bind (raises_applyToken t stack fun min max ht => h min max (ht ▸ List.mem_cons_self))
      fun stack' => raises_applyTokens ts stack' fun min max hm => h min max (List.mem_cons_of_mem _ hm)

theorem raises_construct (ts : List Token)
    (h : ∀ min max, .rep min max ∈ ts → min ≤ max ∧ max ≤ maxRepeat) :
    Raises NotRepeat (Nfa.construct none ts) := by
  cases ts with
  | nil => exact .of_adds Adds.epsilon
  | cons t ts =>
    -- the stream must leave one fragment on the stack
    refine .bind (raises_applyTokens (t :: ts) [] h) fun stack => ?_
    rcases stack with _ | ⟨f, _ | ⟨g, rest⟩⟩
    · exact .throw (by decide)
    · exact .of_adds (.pure _)
    · exact .throw (by simp [PatternError.kind])

end Build

namespace Nfa

open Build

/-- **The builder raises no invalid repetition on valid ranges.** A stream whose
repetitions all have `min ≤ max ≤ 10000` compiles, within the budget, or fails with an
error of another kind. -/
theorem compile_error_kind {ts : List Token}
    (h : ∀ min max, .rep min max ∈ ts → min ≤ max ∧ max ≤ maxRepeat) {e : PatternError}
    (he : compile ts = .error e) : e.kind ≠ .invalidRepeat := by
  obtain ⟨ar, hend⟩ := EndsIn.exists ((construct none ts).run #[])
  rw [compile, compileWith_budget _ ts hend] at he
  split at he
  · cases he
    decide
  · unfold compileWith at he
    split at he
    · cases he
    · rename_i e' ar' hrun
      cases he
      exact raises_construct ts h _ _ _ hrun

end Nfa

namespace Pattern

/-- The conversion's markers aside, the tokens of a stream with markers are those of the
stream. -/
theorem mem_of_mem_joinConcat {ts : List Token} {x : Token} (hx : x ∈ joinConcat ts)
    (hcat : x ≠ .cat) : x ∈ ts := by
  cases ts with
  | nil => exact absurd hx List.not_mem_nil
  | cons t ts =>
    have hkept : x ∈ (joinConcat (t :: ts)).filter (· != .cat) :=
      List.mem_filter.mpr ⟨hx, bne_iff_ne.mpr hcat⟩
    rw [filter_joinConcat_cons] at hkept
    exact (List.mem_filter.mp hkept).1

/-- A repetition of the reverse Polish form of a stream, markers inserted, is one of the
stream's. -/
theorem rep_mem_of_toRpn {ts rpn : List Token} (hrpn : toRpn (joinConcat ts) = .ok rpn)
    {min max : Nat} (hm : .rep min max ∈ rpn) : .rep min max ∈ ts := by
  have hperm := toRpnGo_perm hrpn fun _ h => absurd h List.not_mem_nil
  have hdrop : .rep min max ∈ dropBrackets (joinConcat ts) := by
    simpa using hperm.mem_iff.mp hm
  exact mem_of_mem_joinConcat (List.mem_filter.mp hdrop).1 Token.noConfusion

/-- Where a pattern's compilation fails: in the reader, in the conversion to reverse
Polish form, or in the builder. -/
theorem ofPattern_eq_error {p : Input} {e : PatternError} (h : Nfa.ofPattern p = .error e) :
    tokenize p = .error e ∨
      (∃ ts, tokenize p = .ok ts ∧ toRpn (joinConcat ts) = .error e) ∨
      ∃ ts rpn, tokenize p = .ok ts ∧ toRpn (joinConcat ts) = .ok rpn ∧ Nfa.compile rpn = .error e := by
  unfold Nfa.ofPattern rpnOf at h
  cases htok : tokenize p with
  | error e' =>
    rw [htok] at h
    cases h
    exact .inl rfl
  | ok ts =>
    rw [htok] at h
    have hrest : (toRpn (joinConcat ts) >>= Nfa.compile) = .error e := h
    cases hrpn : toRpn (joinConcat ts) with
    | error e' =>
      rw [hrpn] at hrest
      cases hrest
      exact .inr (.inl ⟨ts, rfl, hrpn⟩)
    | ok rpn =>
      rw [hrpn] at hrest
      exact .inr (.inr ⟨ts, rpn, rfl, hrpn, hrest⟩)

end Pattern

namespace Nfa

/-- **What the reader gives, and where invalid repetitions come from.** For every
pattern, text or atoms: the tokens the reader gives hold no concatenation marker; a
class holds the members written in a class body of the pattern (between brackets in
text, a bracketed atom in an atom list), each once and in the order of first
appearance, at least one and never the wildcard or the terminator; a repetition
has `min ≤ max ≤ 10000`. So every repetition of the reverse Polish form has a valid
range, the builder's own range check never fails, and an invalid repetition reported
by the compilation of a pattern is the one its reader reported. -/
theorem reader_tokens_and_repeat_errors (p : Input) :
    (∀ ts, tokenize p = .ok ts →
      .cat ∉ ts ∧
      (∀ ms, .charClass ms ∈ ts →
        (∃ body coerce, p.normalize.ClassBody body coerce ∧
          ms = (classWritten body coerce).eraseDups) ∧ ms ≠ [] ∧ ms.Nodup ∧
          .wildcard ∉ ms ∧ .stop ∉ ms) ∧
      ∀ min max, .rep min max ∈ ts → min ≤ max ∧ max ≤ maxRepeat) ∧
    (∀ rpn, rpnOf p = .ok rpn → ∀ min max, .rep min max ∈ rpn → min ≤ max ∧ max ≤ maxRepeat) ∧
    (∀ min max, ofPattern p ≠ .error (.repeatRange min max)) ∧
    ∀ e, ofPattern p = .error e → e.kind = .invalidRepeat → tokenize p = .error e := by
  -- an invalid repetition of the compilation is the reader's
  have hfrom : ∀ e, ofPattern p = .error e → e.kind = .invalidRepeat → tokenize p = .error e := by
    intro e he hkind
    rcases ofPattern_eq_error he with htok | ⟨ts, -, hrpn⟩ | ⟨ts, rpn, htok, hrpn, hcomp⟩
    · exact htok
    · rw [toRpnGo_error hrpn] at hkind
      cases hkind
    · exact absurd hkind (compile_error_kind (fun min max hm =>
        scanned_of_tokenize htok _ (rep_mem_of_toRpn hrpn hm)) hcomp)
  refine ⟨fun ts htok => ⟨fun hcat => ?_, fun ms hms => ?_, fun min max hm => ?_⟩,
    fun rpn hrpn min max hm => ?_, fun min max he => ?_, hfrom⟩
  · exact scanned_of_tokenize htok _ hcat
  · -- the class was read from a body written in the pattern
    obtain ⟨body, coerce, hbody, hclass⟩ := scanned_of_tokenize htok _ hms
    obtain ⟨heq, hne, hnodup, hwild, hstop⟩ := (classMembers_spec body coerce).1 ms hclass
    exact ⟨⟨body, coerce, hbody, heq⟩, hne, hnodup, hwild, hstop⟩
  · exact scanned_of_tokenize htok _ hm
  · unfold rpnOf at hrpn
    cases htok : tokenize p with
    | error e =>
      rw [htok] at hrpn
      cases hrpn
    | ok ts =>
      rw [htok] at hrpn
      exact scanned_of_tokenize htok _ (rep_mem_of_toRpn hrpn hm)
  · -- the reader never raises the builder's range error
    exact byReader_of_tokenize (hfrom _ he rfl)

end Nfa

end SeqPattern
