import SeqPattern.Proofs.Postfix
/-!
# The grammar of patterns

Which token streams does the conversion to reverse Polish form turn into a well-formed
postfix expression, one that a stack of operands reduces to a single tree? Exactly the
streams of the pattern grammar

    alt  ::= cat ('|' cat)*          cat  ::= post post*
    post ::= atom quant*             atom ::= operand | class | '(' alt ')'

(`Renders [] 0`, whose derivations carry the tree), and the streams of `k` opening
brackets followed by `k` closing ones, which stand for the empty pattern.

The proof counts. A stream reduces to one tree when its values outnumber its binary
operators by one, and the conversion keeps every token but the brackets
(`toRpnGo_countP`). Read a stream as written token by token, keeping track of whether
the last token ended a value. A token that neither follows the end of a value nor
starts one itself (`|`, `)` or a quantifier at the start or right after `(` or `|`),
and a stream that does not end on a value, each cost one value or bring one more
marker than juxtaposition needs (`count_balance`); so a stream that reduces has every
token in its place (`placed`). The conversion also fails on brackets that do not match
(`toRpn_nested`), and a stream whose brackets match and whose tokens are all in place
is read by the grammar one bracket level at a time (`Nested.renders`). A stream of
brackets alone converts to the empty expression only when no marker goes into it,
which leaves `(^k )^k`.

Main statement: `toRpn_wellFormed_iff`.
-/

namespace SeqPattern.Pattern

open Token

/-! ## One step of the conversion -/

theorem ne_bracket_of_isValue {t : Token} (h : t.isValue = true) :
    t ≠ .openGroup ∧ t ≠ .closeGroup := by
  cases t <;> simp_all [isValue]

theorem ne_bracket_of_precedence {t : Token} {q : Nat} (h : t.precedence = some q) :
    t ≠ .openGroup ∧ t ≠ .closeGroup := by
  cases t <;> simp_all [precedence]


/-- Popping what binds at least as tightly moves a run of operators, none of them an
opening bracket, from the top of the stack to the output. -/
theorem popTighter_spec (p : Option Nat) : ∀ stack out : List Token,
    ∃ moved, stack = moved ++ (popTighter p stack out).1 ∧
      (popTighter p stack out).2 = moved.reverse ++ out ∧ .openGroup ∉ moved
  | [], _ => ⟨[], rfl, rfl, List.not_mem_nil⟩
  | top :: stack, out => by
    cases hq : top.precedence with
    | none => exact ⟨[], by simp [popTighter, hq], by simp [popTighter, hq], List.not_mem_nil⟩
    | some q =>
      have htop : top ≠ .openGroup := by
        rintro rfl
        cases hq
      -- the top binds looser and stays, or it moves and the rest is popped after it
      have hstep : popTighter p (top :: stack) out = (top :: stack, out) ∨
          popTighter p (top :: stack) out = popTighter p stack (top :: out) := by
        cases p with
        | none => exact .inr (by simp [popTighter, hq])
        | some r =>
          by_cases hlt : q < r
          · exact .inl (by simp [popTighter, hq, hlt])
          · exact .inr (by simp [popTighter, hq, hlt])
      rcases hstep with h | h
      · rw [h]
        exact ⟨[], rfl, rfl, List.not_mem_nil⟩
      · obtain ⟨moved, hstack, hout, hopen⟩ := popTighter_spec p stack (top :: out)
        rw [h]
        refine ⟨top :: moved, ?_, ?_, List.not_mem_cons_of_ne_of_not_mem htop.symm hopen⟩
        · rw [List.cons_append, ← hstack]
        · simp [hout]

/-- A closing bracket pops the operators above the nearest opening bracket and drops
that bracket. -/
theorem popToOpen_spec : ∀ {stack out stack' out' : List Token},
    popToOpen stack out = .ok (stack', out') →
      ∃ moved, .openGroup ∉ moved ∧ stack = moved ++ .openGroup :: stack' ∧
        out' = moved.reverse ++ out
  | [], _, _, _, h => by simp [popToOpen] at h
  | top :: stack, out, stack', out', h => by
    by_cases htop : top = .openGroup
    · subst htop
      simp only [popToOpen, Except.ok.injEq, Prod.mk.injEq] at h
      obtain ⟨rfl, rfl⟩ := h
      exact ⟨[], List.not_mem_nil, rfl, rfl⟩
    · have h' : popToOpen stack (top :: out) = .ok (stack', out') := by
        simpa [popToOpen, htop] using h
      obtain ⟨moved, hopen, hstack, hout⟩ := popToOpen_spec h'
      refine ⟨top :: moved, List.not_mem_cons_of_ne_of_not_mem (Ne.symm htop) hopen, ?_, ?_⟩
      · rw [hstack, List.cons_append]
      · simp [hout]

/-- The end of the stream moves the whole stack to the output, and fails on an opening
bracket left on it. -/
theorem drainOps_spec : ∀ {stack out p : List Token}, drainOps stack out = .ok p →
    .openGroup ∉ stack ∧ p = out.reverse ++ stack
  | [], _, _, h => by
    simp only [drainOps, Except.ok.injEq] at h
    exact ⟨List.not_mem_nil, by rw [h, List.append_nil]⟩
  | top :: stack, out, p, h => by
    by_cases htop : top = .openGroup
    · subst htop
      simp [drainOps] at h
    · have h' : drainOps stack (top :: out) = .ok p := by simpa [drainOps, htop] using h
      obtain ⟨hopen, rfl⟩ := drainOps_spec h'
      exact ⟨List.not_mem_cons_of_ne_of_not_mem (Ne.symm htop) hopen, by simp⟩

/-- A closing bracket fails only when no opening bracket waits on the stack, and then
with the bracket error. -/
theorem popToOpen_error : ∀ {stack out : List Token} {e : PatternError},
    popToOpen stack out = .error e → e = .mismatchedParens ∧ .openGroup ∉ stack
  | [], _, _, h => by
    simp only [popToOpen, Except.error.injEq] at h
    exact ⟨h.symm, List.not_mem_nil⟩
  | top :: stack, out, e, h => by
    by_cases htop : top = .openGroup
    · subst htop
      simp [popToOpen] at h
    · have h' : popToOpen stack (top :: out) = .error e := by simpa [popToOpen, htop] using h
      obtain ⟨he, hopen⟩ := popToOpen_error h'
      exact ⟨he, List.not_mem_cons_of_ne_of_not_mem (Ne.symm htop) hopen⟩

/-- What one token does to the operator stack and the output when the loop goes on: a
value goes to the output, an opening bracket to the stack, a closing bracket pops the
operators above the nearest opening one and drops it, and an operator pops what binds
at least as tightly and waits on the stack. -/
def Moves (t : Token) (stack out stack' out' : List Token) : Prop :=
  (t.isValue = true ∧ stack' = stack ∧ out' = t :: out) ∨
  (t = .openGroup ∧ stack' = .openGroup :: stack ∧ out' = out) ∨
  (t = .closeGroup ∧ ∃ moved, .openGroup ∉ moved ∧ stack = moved ++ .openGroup :: stack' ∧
    out' = moved.reverse ++ out) ∨
  (∃ q moved rest, t.precedence = some q ∧ .openGroup ∉ moved ∧ stack = moved ++ rest ∧
    stack' = t :: rest ∧ out' = moved.reverse ++ out)

/-- **One step of the conversion.** A closing bracket with no opening bracket on the
stack fails with the bracket error; every other token moves the stack and the output
as `Moves` says, and the loop goes on with the rest of the stream. -/
theorem toRpnGo_cons (t : Token) (ts stack out : List Token) :
    (t = .closeGroup ∧ .openGroup ∉ stack ∧
        toRpnGo (t :: ts) stack out = .error .mismatchedParens) ∨
    ∃ stack' out', toRpnGo (t :: ts) stack out = toRpnGo ts stack' out' ∧
      Moves t stack out stack' out' := by
  unfold Moves
  -- every operator takes the same step, whatever its precedence
  have hop : ∀ q, t.precedence = some q → ∃ stack' out',
      toRpnGo (t :: ts) stack out = toRpnGo ts stack' out' ∧
      ∃ q moved rest, t.precedence = some q ∧ .openGroup ∉ moved ∧ stack = moved ++ rest ∧
        stack' = t :: rest ∧ out' = moved.reverse ++ out := by
    intro q hq
    obtain ⟨moved, hstack, hout, hopen⟩ := popTighter_spec (some q) stack out
    exact ⟨_, _, toRpnGo_op hq ts stack out, q, moved, _, hq, hopen, hstack, rfl, hout⟩
  cases t with
  | operand s => exact .inr ⟨stack, _, rfl, .inl ⟨rfl, rfl, rfl⟩⟩
  | charClass ms => exact .inr ⟨stack, _, rfl, .inl ⟨rfl, rfl, rfl⟩⟩
  | openGroup => exact .inr ⟨_, out, rfl, .inr (.inl ⟨rfl, rfl, rfl⟩)⟩
  | closeGroup =>
    cases hpop : popToOpen stack out with
    | error e =>
      obtain ⟨rfl, hopen⟩ := popToOpen_error hpop
      exact .inl ⟨rfl, hopen, by simp [toRpnGo, hpop]⟩
    | ok r =>
      obtain ⟨stack', out'⟩ := r
      exact .inr ⟨stack', out', by simp [toRpnGo, hpop],
        .inr (.inr (.inl ⟨rfl, popToOpen_spec hpop⟩))⟩
  | alt | cat | opt | star | plus | rep =>
    obtain ⟨stack', out', h', hstep⟩ := hop _ rfl
    exact .inr ⟨stack', out', h', .inr (.inr (.inr hstep))⟩

/-- One step of a conversion that succeeds, as `toRpnGo_cons` describes it. -/
theorem toRpnGo_cons_eq_ok {t : Token} {ts stack out p : List Token}
    (h : toRpnGo (t :: ts) stack out = .ok p) :
    ∃ stack' out', toRpnGo ts stack' out' = .ok p ∧
      ((t.isValue = true ∧ stack' = stack ∧ out' = t :: out) ∨
       (t = .openGroup ∧ stack' = .openGroup :: stack ∧ out' = out) ∨
       (t = .closeGroup ∧ ∃ moved, .openGroup ∉ moved ∧ stack = moved ++ .openGroup :: stack' ∧
          out' = moved.reverse ++ out) ∨
       (∃ q moved rest, t.precedence = some q ∧ .openGroup ∉ moved ∧ stack = moved ++ rest ∧
          stack' = t :: rest ∧ out' = moved.reverse ++ out)) := by
  rcases toRpnGo_cons t ts stack out with ⟨-, -, herr⟩ | ⟨stack', out', heq, hstep⟩
  · rw [herr] at h
    cases h
  · exact ⟨stack', out', heq ▸ h, hstep⟩

/-- **The conversion keeps every token but the brackets.** -/
theorem toRpnGo_countP (f : Token → Bool) (hopen : f .openGroup = false)
    (hclose : f .closeGroup = false) :
    ∀ {ts stack out p : List Token}, toRpnGo ts stack out = .ok p →
      p.countP f = ts.countP f + stack.countP f + out.countP f
  | [], _, _, _, h => by
    obtain ⟨-, rfl⟩ := drainOps_spec h
    simp only [List.countP_append, List.countP_reverse, List.countP_nil]
    omega
  | t :: ts, stack, out, p, h => by
    obtain ⟨stack', out', h', hstep⟩ := toRpnGo_cons_eq_ok h
    have ih := toRpnGo_countP f hopen hclose h'
    rcases hstep with ⟨-, rfl, rfl⟩ | ⟨rfl, rfl, rfl⟩ | ⟨rfl, moved, -, rfl, rfl⟩ |
      ⟨q, moved, rest, -, -, rfl, rfl, rfl⟩
    · simp only [List.countP_cons] at ih ⊢
      omega
    · simp only [List.countP_cons, hopen] at ih ⊢
      omega
    · simp only [List.countP_cons, List.countP_append, List.countP_reverse, hopen, hclose,
        Bool.false_eq_true, ite_false] at ih ⊢
      omega
    · simp only [List.countP_cons, List.countP_append, List.countP_reverse] at ih ⊢
      omega

theorem toRpn_countP (f : Token → Bool) (hopen : f .openGroup = false)
    (hclose : f .closeGroup = false) {ts p : List Token} (h : toRpn ts = .ok p) :
    p.countP f = ts.countP f := by
  have hcount := toRpnGo_countP f hopen hclose h
  simpa using hcount

/-! ## Matching brackets -/

/-- Streams whose brackets match: tokens outside brackets, and bracketed streams whose
brackets match in turn. -/
inductive Nested : List Token → Prop
  | nil : Nested []
  | flat {t : Token} {ts : List Token} :
      t ≠ .openGroup → t ≠ .closeGroup → Nested ts → Nested (t :: ts)
  | group {g ts : List Token} :
      Nested g → Nested ts → Nested (.openGroup :: g ++ .closeGroup :: ts)

/-- Streams that close `d` brackets opened before them, and whose brackets match
otherwise. -/
inductive Closes : Nat → List Token → Prop
  | done {ts : List Token} : Nested ts → Closes 0 ts
  | close {d : Nat} {g ts : List Token} :
      Nested g → Closes d ts → Closes (d + 1) (g ++ .closeGroup :: ts)

theorem Closes.nested {ts : List Token} (h : Closes 0 ts) : Nested ts := by
  cases h with
  | done h => exact h

theorem Closes.cons_flat {d : Nat} {t : Token} {ts : List Token} (hopen : t ≠ .openGroup)
    (hclose : t ≠ .closeGroup) (h : Closes d ts) : Closes d (t :: ts) := by
  cases h with
  | done h => exact .done (.flat hopen hclose h)
  | close hg h => exact .close (.flat hopen hclose hg) h

theorem Closes.cons_close {d : Nat} {ts : List Token} (h : Closes d ts) :
    Closes (d + 1) (.closeGroup :: ts) :=
  show Closes (d + 1) ([] ++ .closeGroup :: ts) from .close .nil h

/-- An opening bracket is one more bracket for the rest to close: the bracket and the
stream up to its partner form a group, which joins what follows the partner. -/
theorem Closes.cons_open {d : Nat} {ts : List Token} (h : Closes (d + 1) ts) :
    Closes d (.openGroup :: ts) := by
  cases h with
  | close hg h =>
    cases h with
    | done h => exact .done (.group hg h)
    | @close d g₂ ts₂ hg₂ h =>
      have hgroup := Closes.close (.group hg hg₂) h
      simpa using hgroup

/-- Dropping tokens other than brackets keeps the brackets matched. -/
theorem Nested.filter (f : Token → Bool) (hopen : f .openGroup = true)
    (hclose : f .closeGroup = true) {ts : List Token} (h : Nested ts) : Nested (ts.filter f) := by
  induction h with
  | nil => exact .nil
  | flat h₁ h₂ _ ih =>
    rw [List.filter_cons]
    split
    · exact .flat h₁ h₂ ih
    · exact ih
  | group _ _ ihg ihr =>
    rw [List.filter_append, List.filter_cons_of_pos hopen, List.filter_cons_of_pos hclose]
    exact .group ihg ihr

theorem toRpnGo_closes : ∀ {ts stack out p : List Token}, toRpnGo ts stack out = .ok p →
    Closes (stack.count .openGroup) ts
  | [], _, _, _, h => by
    obtain ⟨hopen, -⟩ := drainOps_spec h
    rw [List.count_eq_zero_of_not_mem hopen]
    exact .done .nil
  | t :: ts, stack, out, p, h => by
    obtain ⟨stack', out', h', hstep⟩ := toRpnGo_cons_eq_ok h
    have ih := toRpnGo_closes h'
    rcases hstep with ⟨hv, rfl, rfl⟩ | ⟨rfl, rfl, rfl⟩ | ⟨rfl, moved, hm, rfl, rfl⟩ |
      ⟨q, moved, rest, hq, hm, rfl, rfl, rfl⟩
    · -- a value
      have hbr := ne_bracket_of_isValue hv
      exact ih.cons_flat hbr.1 hbr.2
    · -- an opening bracket, one more for the rest to close
      rw [List.count_cons_self] at ih
      exact ih.cons_open
    · -- a closing bracket, which closes the nearest opening one
      rw [List.count_append, List.count_cons_self, List.count_eq_zero_of_not_mem hm]
      rw [Nat.zero_add]
      exact ih.cons_close
    · -- an operator, which moves operators but no bracket
      have hbr := ne_bracket_of_precedence hq
      rw [List.count_cons_of_ne hbr.1] at ih
      rw [List.count_append, List.count_eq_zero_of_not_mem hm, Nat.zero_add]
      exact ih.cons_flat hbr.1 hbr.2

/-- **The conversion fails on brackets that do not match.** -/
theorem toRpn_nested {ts p : List Token} (h : toRpn ts = .ok p) : Nested ts :=
  (toRpnGo_closes h).nested

/-! ## The markers juxtaposition needs -/

/-- The markers that making juxtaposition explicit puts into a stream: one before each
token that starts a value right after one that ends a value; `o` says whether the token
before the stream ends a value. -/
def inserted : Bool → List Token → Nat
  | _, [] => 0
  | o, t :: ts => (o && startsValue t).toNat + inserted (endsValue t) ts

theorem countP_joinConcat_cons (f : Token → Bool) : ∀ (ts : List Token) (t : Token),
    (joinConcat (t :: ts)).countP f =
      (t :: ts).countP f + (if f .cat then inserted (endsValue t) ts else 0)
  | [], t => by
    by_cases hc : f .cat <;> simp [inserted, hc]
  | u :: ts, t => by
    have ih := countP_joinConcat_cons f ts u
    rw [joinConcat_cons_cons, List.countP_cons, List.countP_append, ih]
    -- the marker between `t` and `u` counts when `f` counts markers
    by_cases hc : f .cat <;> by_cases hj : (endsValue t && startsValue u) = true <;>
      simp [inserted, hc, hj, List.countP_cons] <;> omega

/-- Making juxtaposition explicit adds nothing but the markers. -/
theorem countP_joinConcat (f : Token → Bool) (ts : List Token) :
    (joinConcat ts).countP f = ts.countP f + (if f .cat then inserted false ts else 0) := by
  cases ts with
  | nil => simp [joinConcat, joinConcatGo, inserted]
  | cons t ts =>
    rw [countP_joinConcat_cons]
    simp [inserted]

theorem filter_joinConcat_cons : ∀ (ts : List Token) (t : Token),
    (joinConcat (t :: ts)).filter (· != .cat) = (t :: ts).filter (· != .cat)
  | [], _ => rfl
  | u :: ts, t => by
    have hmarker :
        (if endsValue t && startsValue u then [Token.cat] else []).filter (· != .cat) = [] := by
      split <;> rfl
    rw [joinConcat_cons_cons, List.filter_cons, List.filter_append, hmarker, List.nil_append,
      filter_joinConcat_cons ts u]
    conv_rhs => rw [List.filter_cons]

/-- A stream without markers whose brackets match after the markers go in has matching
brackets already. -/
theorem Nested.of_joinConcat {ts : List Token} (hcat : .cat ∉ ts) (h : Nested (joinConcat ts)) :
    Nested ts := by
  have hf := h.filter (· != .cat) rfl rfl
  have hjoin : (joinConcat ts).filter (· != .cat) = ts.filter (· != .cat) := by
    cases ts with
    | nil => rfl
    | cons t ts => exact filter_joinConcat_cons ts t
  have hkeep : ts.filter (· != .cat) = ts :=
    List.filter_eq_self.2 fun t ht => bne_iff_ne.2 (ne_of_mem_of_not_mem ht hcat)
  rwa [hjoin, hkeep] at hf

/-- A stream that needs no marker is its own explicit form. -/
theorem joinConcat_cons_of_inserted : ∀ (ts : List Token) (t : Token),
    inserted (endsValue t) ts = 0 → joinConcat (t :: ts) = t :: ts
  | [], _, _ => rfl
  | u :: ts, t, h => by
    simp only [inserted, Nat.add_eq_zero_iff] at h
    obtain ⟨hj, hrest⟩ := h
    rw [joinConcat_cons_cons, joinConcat_cons_of_inserted ts u hrest]
    cases hb : (endsValue t && startsValue u)
    · rfl
    · rw [hb] at hj
      exact absurd hj (by decide)

/-! ## Tokens in their place -/

/-- Whether every token of a stream stands where the grammar lets it, read after a
token that ends a value when `o` holds: each token follows the end of a value or
starts one itself, and the stream ends on a value. -/
def placed : Bool → List Token → Bool
  | o, [] => o
  | o, t :: ts => (o || startsValue t) && placed (endsValue t) ts

/-- Whether a token is a binary operator, the bar or the marker. -/
def isBinary (t : Token) : Bool := t == .alt || t == .cat

theorem countP_cons_toNat (f : Token → Bool) (t : Token) (ts : List Token) :
    (t :: ts).countP f = ts.countP f + (f t).toNat := by
  rw [List.countP_cons]
  cases f t <;> rfl

/-- What one token does to the count: a value adds one, a binary operator or a marker
before it takes one, and a token out of place costs one. -/
theorem token_balance (o : Bool) (t : Token) :
    t.isValue.toNat + o.toNat ≤
        (isBinary t).toNat + (o && startsValue t).toNat + (endsValue t).toNat ∧
      (t.isValue.toNat + o.toNat =
          (isBinary t).toNat + (o && startsValue t).toNat + (endsValue t).toNat →
        (o || startsValue t) = true) := by
  cases o <;> cases t <;> simp +decide [isValue, isBinary, startsValue, endsValue, isQuantifier]

/-- **Tokens out of place cost values.** Read after a token that ends a value when `o`
holds, a stream has at most one value more than its binary operators and markers, one
fewer when `o` holds; and it has exactly that many only when all its tokens are in
place. -/
theorem count_balance : ∀ (o : Bool) (ts : List Token),
    ts.countP isValue + o.toNat ≤ ts.countP isBinary + inserted o ts + 1 ∧
      (ts.countP isValue + o.toNat = ts.countP isBinary + inserted o ts + 1 →
        placed o ts = true)
  | o, [] => by cases o <;> simp [inserted, placed]
  | o, t :: ts => by
    -- the token's own share, then the rest read after it
    obtain ⟨hle₁, heq₁⟩ := token_balance o t
    obtain ⟨hle, heq⟩ := count_balance (endsValue t) ts
    simp only [countP_cons_toNat, inserted, placed, Bool.and_eq_true]
    exact ⟨by omega, fun h => ⟨heq₁ (by omega), heq (by omega)⟩⟩

theorem placed_group (rest : List Token) : ∀ (o : Bool) (g : List Token),
    placed o (g ++ .closeGroup :: rest) = (placed o g && placed true rest)
  | o, [] => by cases o <;> rfl
  | o, t :: g => by
    simp only [List.cons_append, placed, placed_group rest _ g, Bool.and_assoc]

theorem inserted_group (rest : List Token) : ∀ (o : Bool) (g : List Token),
    inserted o (g ++ .closeGroup :: rest) = inserted o g + inserted true rest
  | o, [] => by cases o <;> rfl
  | o, t :: g => by
    simp only [List.cons_append, inserted, inserted_group rest _ g]
    omega

/-! ## Reducing a postfix expression -/

/-- A value pushes one tree, a binary operator takes two and pushes one, and any other
operator replaces one. -/
theorem pushToken_length {t : Token} {stack stack' : List Regex}
    (h : Regex.pushToken t stack = some stack') :
    stack'.length + (isBinary t).toNat = stack.length + t.isValue.toNat := by
  unfold Regex.pushToken at h
  split at h <;> cases h <;> simp +decide [isBinary, isValue]

/-- Reducing a stream changes the stack by its values less its binary operators. -/
theorem evalRpn_length : ∀ {ts : List Token} {stack stack' : List Regex},
    Regex.evalRpn ts stack = some stack' →
      stack'.length + ts.countP isBinary = stack.length + ts.countP isValue
  | [], _, _, h => by
    cases h
    simp
  | t :: ts, stack, stack', h => by
    rw [Regex.evalRpn] at h
    obtain ⟨mid, hpush, hrest⟩ := Option.bind_eq_some_iff.1 h
    have h₁ := pushToken_length hpush
    have h₂ := evalRpn_length hrest
    simp only [countP_cons_toNat]
    omega

/-- A rendering's reverse Polish form pushes its tree and nothing else. -/
theorem Renders.evalRpn {sep : List Token} {n : Nat} {e : Regex} {ts : List Token}
    (h : Renders sep n e ts) (rest : List Token) (stack : List Regex) :
    Regex.evalRpn (e.rpn ++ rest) stack = Regex.evalRpn rest (e :: stack) := by
  induction h generalizing rest stack with
  | sym x => rfl
  | cls ms => rfl
  | group _ ih => exact ih rest stack
  | opt _ ih | star _ ih | plus _ ih | rep _ _ _ ih =>
    simp only [Regex.rpn, List.append_assoc, ih]
    rfl
  | cat _ _ ihl ihr | alt _ _ ihl ihr =>
    simp only [Regex.rpn, List.append_assoc, ihl, ihr]
    rfl
  | lower _ ih => exact ih rest stack

/-- A rendering's reverse Polish form reduces to its tree. -/
theorem Renders.ofRpn {sep : List Token} {n : Nat} {e : Regex} {ts : List Token}
    (h : Renders sep n e ts) : Regex.ofRpn e.rpn = some e := by
  have heval : Regex.evalRpn e.rpn [] = some [e] := by
    rw [← List.append_nil e.rpn]
    exact h.evalRpn [] []
  cases hr : e.rpn with
  | nil =>
    rw [hr] at heval
    simp [Regex.evalRpn] at heval
  | cons t ts =>
    rw [hr] at heval
    simp only [Regex.ofRpn, heval]

/-- The operator-precedence loop, reading a whole stream at the loosest level, outputs
the tree's reverse Polish form. -/
theorem Reads.toRpn {e : Regex} {ts : List Token} (h : Reads 0 e ts) : toRpn ts = .ok e.rpn := by
  obtain ⟨done, pend, he, hp, hrun⟩ := h
  have hread := hrun [] [] [] trivial
  simp only [List.append_nil] at hread
  rw [Pattern.toRpn, hread, toRpnGo, drainOps_pending _ hp, he]
  simp

/-! ## Reading a stream by the grammar -/

/-- What a bracket level holds before its current concatenation: nothing, or an
alternative and its bar. -/
def Alts (alts : List Token) : Prop :=
  alts = [] ∨ ∃ l ls, alts = ls ++ [.alt] ∧ Renders [] 0 l ls

/-- The postfix items of the current concatenation: none, or a rendering at level 1. -/
def Cats (cats : List Token) : Prop :=
  cats = [] ∨ ∃ c, Renders [] 1 c cats

/-- What a bracket level holds before a postfix item starts. -/
def Before (pre : List Token) : Prop :=
  ∃ alts cats, pre = alts ++ cats ∧ Alts alts ∧ Cats cats

/-- What a bracket level holds after a postfix item, which a quantifier may still
extend. -/
def After (pre : List Token) : Prop :=
  ∃ pre' x xs, pre = pre' ++ xs ∧ Before pre' ∧ Renders [] 2 x xs

theorem Alts.close {alts cs : List Token} {c : Regex} (ha : Alts alts)
    (hc : Renders [] 1 c cs) : ∃ e, Renders [] 0 e (alts ++ cs) := by
  rcases ha with rfl | ⟨l, ls, rfl, hl⟩
  · exact ⟨c, hc.lower⟩
  · have h := hl.alt hc
    exact ⟨.alt l c, by simpa using h⟩

theorem Cats.extend {cats xs : List Token} {x : Regex} (hc : Cats cats)
    (hx : Renders [] 2 x xs) : ∃ c, Renders [] 1 c (cats ++ xs) := by
  rcases hc with rfl | ⟨c, hc⟩
  · exact ⟨x, hx.lower⟩
  · have h := hc.cat hx
    exact ⟨.cat c x, by simpa using h⟩

theorem Before.nil : Before [] := ⟨[], [], rfl, .inl rfl, .inl rfl⟩

/-- A postfix item joins the concatenation. -/
theorem Before.juxt {pre xs : List Token} {x : Regex} (hb : Before pre)
    (hx : Renders [] 2 x xs) : Before (pre ++ xs) := by
  obtain ⟨alts, cats, rfl, ha, hc⟩ := hb
  obtain ⟨c, hc'⟩ := hc.extend hx
  exact ⟨alts, cats ++ xs, by rw [List.append_assoc], ha, .inr ⟨c, hc'⟩⟩

/-- A postfix item can end the level. -/
theorem Before.close {pre xs : List Token} {x : Regex} (hb : Before pre)
    (hx : Renders [] 2 x xs) : ∃ e, Renders [] 0 e (pre ++ xs) := by
  obtain ⟨alts, cats, rfl, ha, hc⟩ := hb
  obtain ⟨c, hc'⟩ := hc.extend hx
  rw [List.append_assoc]
  exact ha.close hc'

theorem After.close {pre : List Token} (h : After pre) : ∃ e, Renders [] 0 e pre := by
  obtain ⟨pre', x, xs, rfl, hb, hx⟩ := h
  exact hb.close hx

/-- A bar ends an alternative. -/
theorem After.bar {pre : List Token} (h : After pre) : Before (pre ++ [.alt]) := by
  obtain ⟨e, he⟩ := h.close
  exact ⟨pre ++ [.alt], [], by rw [List.append_nil], .inr ⟨e, pre, rfl, he⟩, .inl rfl⟩

/-- A quantifier extends the last postfix item. -/
theorem After.quantify {pre : List Token} {q : Token} (h : After pre)
    (hq : ∀ x xs, Renders [] 2 x xs → ∃ y, Renders [] 2 y (xs ++ [q])) :
    After (pre ++ [q]) := by
  obtain ⟨pre', x, xs, rfl, hb, hx⟩ := h
  obtain ⟨y, hy⟩ := hq x xs hx
  exact ⟨pre', y, xs ++ [q], by rw [List.append_assoc], hb, hy⟩

/-- A new postfix item starts, right after the end of a value or not. -/
theorem After.start {o : Bool} {pre ys : List Token} {y : Regex}
    (h : cond o (After pre) (Before pre)) (hy : Renders [] 2 y ys) : After (pre ++ ys) := by
  cases o with
  | false => exact ⟨pre, y, ys, rfl, h, hy⟩
  | true =>
    obtain ⟨pre', x, xs, rfl, hb, hx⟩ := h
    exact ⟨pre' ++ xs, y, ys, rfl, hb.juxt hx, hy⟩

/-- A token that does not start a value is in place only after the end of one. -/
theorem eq_true_of_placed {o : Bool} {t : Token} (h : (o || startsValue t) = true)
    (ht : startsValue t = false) : o = true := by
  simpa [ht] using h

/-- **Reading by the grammar.** A stream whose brackets match and whose tokens are all
in place completes what a bracket level holds before it to a rendering of the grammar.
The induction follows the brackets: a group is read as a level of its own, and then
stands as one postfix item. -/
theorem Nested.renders {ts : List Token} (hn : Nested ts) :
    ∀ {o : Bool} {pre : List Token}, .cat ∉ ts → placed o ts = true →
      cond o (After pre) (Before pre) → ∃ e, Renders [] 0 e (pre ++ ts) := by
  induction hn with
  | nil =>
    intro o pre _ hplaced hpre
    -- the stream ended on a value
    cases o with
    | false => cases hplaced
    | true =>
      rw [List.append_nil]
      exact (show After pre from hpre).close
  | @flat t ts h₁ h₂ _ ih =>
    intro o pre hcat hplaced hpre
    simp only [placed, Bool.and_eq_true] at hplaced
    obtain ⟨hplace, hrest⟩ := hplaced
    have hcat' : .cat ∉ ts := fun h => hcat (List.mem_cons_of_mem _ h)
    rw [← List.singleton_append, ← List.append_assoc]
    -- a value starts a postfix item, a bar ends an alternative, a quantifier extends the
    -- last item
    cases t with
    | operand s => exact ih hcat' hrest (After.start hpre (.sym s))
    | charClass ms => exact ih hcat' hrest (After.start hpre (.cls ms))
    | alt =>
      obtain rfl := eq_true_of_placed hplace rfl
      exact ih hcat' hrest (After.bar hpre)
    | cat => exact absurd List.mem_cons_self hcat
    | opt =>
      obtain rfl := eq_true_of_placed hplace rfl
      exact ih hcat' hrest (After.quantify hpre fun _ _ hx => ⟨_, hx.opt⟩)
    | star =>
      obtain rfl := eq_true_of_placed hplace rfl
      exact ih hcat' hrest (After.quantify hpre fun _ _ hx => ⟨_, hx.star⟩)
    | plus =>
      obtain rfl := eq_true_of_placed hplace rfl
      exact ih hcat' hrest (After.quantify hpre fun _ _ hx => ⟨_, hx.plus⟩)
    | rep min max =>
      obtain rfl := eq_true_of_placed hplace rfl
      exact ih hcat' hrest (After.quantify hpre fun _ _ hx => ⟨_, hx.rep min max⟩)
    | openGroup => exact absurd rfl h₁
    | closeGroup => exact absurd rfl h₂
  | @group g ts _ _ ihg ihts =>
    intro o pre hcat hplaced hpre
    have hcatg : .cat ∉ g := fun h => hcat (by simp [h])
    have hcatts : .cat ∉ ts := fun h => hcat (by simp [h])
    -- after the opening bracket the group is read from the start of a level
    have hopen : placed o (.openGroup :: (g ++ .closeGroup :: ts)) =
        placed false (g ++ .closeGroup :: ts) := by
      cases o <;> rfl
    have hpl : placed false g = true ∧ placed true ts = true := by
      rw [← Bool.and_eq_true, ← placed_group, ← hopen]
      exact hplaced
    obtain ⟨eg, heg⟩ := ihg hcatg hpl.1 Before.nil
    have hgroup : Renders [] 2 eg (.openGroup :: g ++ [.closeGroup]) := .group (by simpa using heg)
    have hrest := ihts hcatts hpl.2 (After.start hpre hgroup)
    simpa using hrest

/-! ## The empty pattern -/

/-- A stream whose brackets match does not start with a closing bracket. -/
theorem Nested.head_ne_close {t : Token} {ts : List Token} (h : Nested (t :: ts)) :
    t ≠ .closeGroup := by
  cases h with
  | flat _ h₂ _ => exact h₂
  | group _ _ => decide

/-- **Brackets alone.** A stream of brackets alone, whose brackets match and which needs
no marker, is `k` opening brackets and then `k` closing ones: a closing bracket followed
by an opening one would need a marker between them. -/
theorem Nested.eq_replicate {ts : List Token} (hn : Nested ts) :
    (∀ t ∈ ts, t = .openGroup ∨ t = .closeGroup) → inserted false ts = 0 →
      ∃ k, ts = List.replicate k .openGroup ++ List.replicate k .closeGroup := by
  induction hn with
  | nil => exact fun _ _ => ⟨0, rfl⟩
  | flat h₁ h₂ _ _ =>
    intro hbr _
    rcases hbr _ List.mem_cons_self with h | h
    · exact absurd h h₁
    · exact absurd h h₂
  | @group g rest _ hrest ihg _ =>
    intro hbr hins
    have hopen : inserted false (.openGroup :: (g ++ .closeGroup :: rest)) =
        inserted false (g ++ .closeGroup :: rest) := by
      simp only [inserted, Bool.false_and, Bool.toNat_false, Nat.zero_add]
      rfl
    have hsplit : inserted false g + inserted true rest = 0 := by
      rw [← inserted_group, ← hopen]
      exact hins
    -- nothing follows the group: an opening bracket there would need a marker
    have hnil : rest = [] := by
      cases rest with
      | nil => rfl
      | cons u rest' =>
        have hu : u = .openGroup := by
          rcases hbr u (by simp) with h | h
          · exact h
          · exact absurd h hrest.head_ne_close
        subst hu
        have hstarts : startsValue .openGroup = true := rfl
        simp [inserted, hstarts] at hsplit
    subst hnil
    obtain ⟨k, rfl⟩ := ihg (fun t ht => hbr t (by simp [ht])) (by omega)
    refine ⟨k + 1, ?_⟩
    rw [List.replicate_succ, List.replicate_succ']
    simp

theorem inserted_closes : ∀ (k : Nat) (o : Bool), inserted o (List.replicate k .closeGroup) = 0
  | 0, _ => rfl
  | k + 1, o => by
    rw [List.replicate_succ, inserted, inserted_closes k]
    cases o <;> rfl

/-- Opening brackets and then closing ones need no marker. -/
theorem inserted_emptyPattern : ∀ j k : Nat,
    inserted false (List.replicate j .openGroup ++ List.replicate k .closeGroup) = 0
  | 0, k => inserted_closes k false
  | j + 1, k => by
    rw [List.replicate_succ, List.cons_append]
    show 0 + inserted false (List.replicate j .openGroup ++ List.replicate k .closeGroup) = 0
    rw [inserted_emptyPattern j k]

theorem toRpnGo_opens : ∀ (k : Nat) (ts stack out : List Token),
    toRpnGo (List.replicate k .openGroup ++ ts) stack out =
      toRpnGo ts (List.replicate k .openGroup ++ stack) out
  | 0, _, _, _ => rfl
  | k + 1, ts, stack, out => by
    have hstack : List.replicate (k + 1) Token.openGroup ++ stack =
        List.replicate k .openGroup ++ .openGroup :: stack := by
      rw [List.replicate_succ', List.append_assoc, List.singleton_append]
    rw [hstack, ← toRpnGo_opens k ts (.openGroup :: stack) out, List.replicate_succ,
      List.cons_append]
    rfl

theorem toRpnGo_closeAll : ∀ (k : Nat) (ts stack out : List Token),
    toRpnGo (List.replicate k .closeGroup ++ ts) (List.replicate k .openGroup ++ stack) out =
      toRpnGo ts stack out
  | 0, _, _, _ => rfl
  | k + 1, ts, stack, out => by
    rw [List.replicate_succ, List.replicate_succ, List.cons_append, List.cons_append]
    exact toRpnGo_closeAll k ts stack out

/-- The empty pattern `(^k )^k` converts to the empty expression. -/
theorem toRpn_emptyPattern (k : Nat) :
    toRpn (joinConcat (List.replicate k .openGroup ++ List.replicate k .closeGroup)) = .ok [] := by
  have hjoin : joinConcat (List.replicate k .openGroup ++ List.replicate k .closeGroup) =
      List.replicate k .openGroup ++ List.replicate k .closeGroup := by
    cases k with
    | zero => rfl
    | succ k =>
      rw [List.replicate_succ, List.cons_append]
      apply joinConcat_cons_of_inserted
      have h := inserted_emptyPattern (k + 1) (k + 1)
      rw [List.replicate_succ, List.cons_append] at h
      simpa [inserted] using h
  have hclose := toRpnGo_closeAll k [] [] []
  simp only [List.append_nil] at hclose
  rw [hjoin, Pattern.toRpn, toRpnGo_opens, List.append_nil, hclose]
  rfl

/-! ## The streams the conversion accepts -/

/-- Whether a token is a bracket. -/
def isBracket (t : Token) : Bool := t == .openGroup || t == .closeGroup

/-- An expression reduces to one tree only if its values outnumber its binary operators
by one. -/
theorem ofRpn_cons_count {t : Token} {p : List Token} {e : Regex}
    (h : Regex.ofRpn (t :: p) = some e) :
    (t :: p).countP isValue = (t :: p).countP isBinary + 1 := by
  have heval : Regex.evalRpn (t :: p) [] = some [e] := by
    rw [Regex.ofRpn] at h
    split at h
    · rename_i e' heq
      cases h
      exact heq
    · cases h
  have hlen := evalRpn_length heval
  simp only [List.length_singleton, List.length_nil] at hlen
  omega

/-- **The streams the conversion accepts.** A stream without markers converts to a
well-formed postfix expression, empty or reducing to a single tree on a stack of
operands, exactly when the grammar derives it or it is `k` opening brackets followed by
`k` closing ones. -/
theorem toRpn_wellFormed_iff {ts : List Token} (hcat : .cat ∉ ts) :
    (∃ p e, toRpn (joinConcat ts) = .ok p ∧ Regex.ofRpn p = some e) ↔
      (∃ e, Renders [] 0 e ts) ∨
        ∃ k, ts = List.replicate k .openGroup ++ List.replicate k .closeGroup := by
  constructor
  · rintro ⟨p, e, hp, he⟩
    have hnested : Nested ts := Nested.of_joinConcat hcat (toRpn_nested hp)
    cases p with
    | nil =>
      -- nothing but brackets went in, and no marker
      right
      have hcount := toRpn_countP (fun t => !isBracket t) rfl rfl hp
      have hmarker : (!isBracket .cat) = true := rfl
      rw [countP_joinConcat, hmarker, if_pos rfl, List.countP_nil] at hcount
      have hnone : ts.countP (fun t => !isBracket t) = 0 := by omega
      have hbr : ∀ t ∈ ts, t = .openGroup ∨ t = .closeGroup := by
        intro t ht
        have hzero := List.countP_eq_zero.1 hnone t ht
        simp only [isBracket, Bool.not_eq_true', Bool.not_eq_false, Bool.or_eq_true,
          beq_iff_eq] at hzero
        exact hzero
      exact hnested.eq_replicate hbr (by omega)
    | cons t p =>
      -- one tree: every token is in its place
      left
      have hone := ofRpn_cons_count he
      have hv := toRpn_countP isValue rfl rfl hp
      have hb := toRpn_countP isBinary rfl rfl hp
      rw [countP_joinConcat] at hv hb
      have hcats : isValue .cat = false ∧ isBinary .cat = true := ⟨rfl, rfl⟩
      simp only [hcats, if_true, Bool.false_eq_true, if_false] at hv hb
      have hplaced := (count_balance false ts).2 (by simp only [Bool.toNat_false]; omega)
      have hread := hnested.renders hcat hplaced Before.nil
      simpa using hread
  · rintro (⟨e, he⟩ | ⟨k, rfl⟩)
    · exact ⟨e.rpn, e, he.joinConcat.process.toRpn, he.ofRpn⟩
    · exact ⟨[], .eps, toRpn_emptyPattern k, rfl⟩

/-- The pattern `(a|)b` leaves its bar without a right side. -/
theorem toRpn_wellFormed_iff_open_bar :
    Token.cat ∉ ([.openGroup, .operand (.char 'a'), .alt, .closeGroup, .operand (.char 'b')] :
      List Token) ∧
      ((∃ p e, toRpn (joinConcat [.openGroup, .operand (.char 'a'), .alt, .closeGroup,
            .operand (.char 'b')]) = .ok p ∧ Regex.ofRpn p = some e) ↔
        (∃ e, Renders [] 0 e [.openGroup, .operand (.char 'a'), .alt, .closeGroup,
            .operand (.char 'b')]) ∨
          ∃ k, ([.openGroup, .operand (.char 'a'), .alt, .closeGroup, .operand (.char 'b')] :
            List Token) = List.replicate k .openGroup ++ List.replicate k .closeGroup) :=
  ⟨by decide, toRpn_wellFormed_iff (by decide)⟩

/-- `()()` gets a marker between its groups, and no operand is there to take it. -/
example : toRpn (joinConcat [.openGroup, .closeGroup, .openGroup, .closeGroup]) = .ok [.cat] ∧
    Regex.ofRpn [.cat] = none := ⟨rfl, rfl⟩

end SeqPattern.Pattern
