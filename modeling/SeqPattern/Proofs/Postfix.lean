import SeqPattern.Pattern.Rpn
import SeqPattern.Pattern.Regex
/-!
# From infix to reverse Polish form

A tree is written infix by a grammar of binding levels: level 0 holds an alternation,
level 1 a concatenation, level 2 only what a postfix operator may take. The left side
of an alternation is at level 0 and its right side at level 1, the left side of a
concatenation at level 1 and its right side at level 2, so both operators group to the
left; a postfix operator takes an operand at level 2; brackets lift any rendering to
level 2; and what stands at a level stands at every lower one. `Renders sep` is that
grammar, with `sep` between the two sides of a concatenation: nothing in a pattern as
written, the marker `#` once juxtaposition is explicit.

Two facts make the conversion exact. Inserting the markers turns a rendering written
with nothing between juxtaposed sides into the one with `#` there
(`Renders.joinConcat`): a rendering starts with a token that starts a value and ends
with one that ends a value, and markers go exactly between such a pair. Then the
operator-precedence loop reads a rendering at level `n` from a stack whose top binds
looser than `n` (`Looser`), and leaves the tree's reverse Polish form in two parts
(`Renders.process`): a part already output, and a part pending on top of the stack,
whose operators all bind at level `n` at least (`Pending`). The operator that follows
in an enclosing rendering binds at level `n` and pops exactly the pending part, and so
do a closing bracket and the end of the stream.

Main statement: `toRpn_joinConcat`.
-/

namespace SeqPattern.Pattern

open Token

/-! ## Renderings -/

/-- Renderings of a tree as an infix token stream, at a binding level, with `sep`
between the sides of a concatenation. -/
inductive Renders (sep : List Token) : Nat → Regex → List Token → Prop
  | sym (x : Symbol) : Renders sep 2 (.sym x) [.operand x]
  | cls (ms : List Symbol) : Renders sep 2 (.cls ms) [.charClass ms]
  | group {e : Regex} {ts : List Token} :
      Renders sep 0 e ts → Renders sep 2 e (.openGroup :: ts ++ [.closeGroup])
  | opt {e : Regex} {ts : List Token} : Renders sep 2 e ts → Renders sep 2 (.opt e) (ts ++ [.opt])
  | star {e : Regex} {ts : List Token} :
      Renders sep 2 e ts → Renders sep 2 (.star e) (ts ++ [.star])
  | plus {e : Regex} {ts : List Token} :
      Renders sep 2 e ts → Renders sep 2 (.plus e) (ts ++ [.plus])
  | rep {e : Regex} {ts : List Token} (min max : Nat) :
      Renders sep 2 e ts → Renders sep 2 (.rep min max e) (ts ++ [.rep min max])
  | cat {l r : Regex} {ts us : List Token} :
      Renders sep 1 l ts → Renders sep 2 r us → Renders sep 1 (.cat l r) (ts ++ sep ++ us)
  | alt {l r : Regex} {ts us : List Token} :
      Renders sep 0 l ts → Renders sep 1 r us → Renders sep 0 (.alt l r) (ts ++ .alt :: us)
  | lower {n : Nat} {e : Regex} {ts : List Token} : Renders sep (n + 1) e ts → Renders sep n e ts

/-- A rendering starts with a token that starts a value and ends with one that ends a
value. -/
theorem Renders.bounds {sep : List Token} {n : Nat} {e : Regex} {ts : List Token}
    (h : Renders sep n e ts) :
    (∃ t, ts.head? = some t ∧ startsValue t = true) ∧
      (∃ t, ts.getLast? = some t ∧ endsValue t = true) := by
  induction h with
  | sym x => exact ⟨⟨_, rfl, rfl⟩, ⟨_, rfl, rfl⟩⟩
  | cls ms => exact ⟨⟨_, rfl, rfl⟩, ⟨_, rfl, rfl⟩⟩
  | group _ _ => exact ⟨⟨_, rfl, rfl⟩, ⟨_, List.getLast?_concat, rfl⟩⟩
  | opt _ ih | star _ ih | plus _ ih | rep _ _ _ ih =>
    obtain ⟨⟨t, ht, hs⟩, -⟩ := ih
    exact ⟨⟨t, by simp [List.head?_append, ht], hs⟩, ⟨_, List.getLast?_concat, rfl⟩⟩
  | cat _ _ ihl ihr | alt _ _ ihl ihr =>
    obtain ⟨⟨t, ht, hs⟩, -⟩ := ihl
    obtain ⟨-, ⟨u, hu, he⟩⟩ := ihr
    obtain ⟨us', rfl⟩ := List.getLast?_eq_some_iff.mp hu
    refine ⟨⟨t, by simp [List.head?_append, ht], hs⟩, ⟨u, ?_, he⟩⟩
    simp only [← List.cons_append, ← List.append_assoc, List.getLast?_concat]
  | lower _ ih => exact ih

/-! ## Making juxtaposition explicit -/

theorem joinConcatGo_eq : ∀ ts acc : List Token, joinConcatGo ts acc = acc.reverse ++ joinConcat ts
  | [], acc => by simp [joinConcatGo, joinConcat]
  | [t], acc => by simp [joinConcatGo, joinConcat]
  | t :: u :: rest, acc => by
    rw [joinConcat, joinConcatGo, joinConcatGo, joinConcatGo_eq (u :: rest),
      joinConcatGo_eq (u :: rest)]
    split <;> simp

/-- The marker between two neighbours: `#` when the first ends a value and the second
starts one. -/
theorem joinConcat_cons_cons (t u : Token) (rest : List Token) :
    joinConcat (t :: u :: rest) =
      t :: ((if endsValue t && startsValue u then [.cat] else []) ++ joinConcat (u :: rest)) := by
  rw [joinConcat, joinConcatGo, joinConcatGo_eq]
  split <;> simp [*]

/-- Markers are local: joining two streams adds at most one marker, at the seam. -/
theorem joinConcat_append {x y : Token} :
    ∀ {xs ys : List Token}, xs.getLast? = some x → ys.head? = some y →
      joinConcat (xs ++ ys) =
        joinConcat xs ++ ((if endsValue x && startsValue y then [.cat] else []) ++ joinConcat ys)
  | [a], y' :: ys, hx, hy => by
    simp only [List.getLast?_singleton, Option.some.injEq, List.head?_cons] at hx hy
    subst hx hy
    rw [List.singleton_append, joinConcat_cons_cons]
    rfl
  | a :: b :: xs, ys, hx, hy => by
    have hx' : (b :: xs).getLast? = some x := by simpa using hx
    have ih := joinConcat_append hx' hy
    rw [List.cons_append] at ih
    rw [List.cons_append, List.cons_append, joinConcat_cons_cons, ih, joinConcat_cons_cons]
    simp
  | [], _, hx, _ => by cases hx
  | [_], [], _, hy => by cases hy

@[simp] theorem joinConcat_singleton (t : Token) : joinConcat [t] = [t] := rfl

/-- A postfix operator after a rendering gains no marker. -/
theorem Renders.joinConcat_postfix {sep : List Token} {n : Nat} {e : Regex} {ts : List Token}
    (h : Renders sep n e ts) {q : Token} (hq : startsValue q = false) :
    joinConcat (ts ++ [q]) = joinConcat ts ++ [q] := by
  obtain ⟨-, ⟨u, hu, -⟩⟩ := h.bounds
  rw [joinConcat_append hu rfl, hq, Bool.and_false]
  rfl

/-- Inserting the markers into a rendering as written gives the rendering with explicit
markers. The brackets, the alternation bar and the postfix operators neither end nor
start a value where they meet their neighbours; the two sides of a concatenation do. -/
theorem Renders.joinConcat {n : Nat} {e : Regex} {ts : List Token} (h : Renders [] n e ts) :
    Renders [.cat] n e (joinConcat ts) := by
  induction h with
  | sym x => exact .sym x
  | cls ms => exact .cls ms
  | group h ih =>
    obtain ⟨⟨t, ht, -⟩, ⟨u, hu, -⟩⟩ := h.bounds
    obtain ⟨ts', rfl⟩ := List.head?_eq_some_iff.mp ht
    rw [joinConcat_append (x := u) (by simpa using hu) rfl, joinConcat_cons_cons]
    simpa [endsValue, startsValue, isValue, isQuantifier] using ih.group
  | opt h ih => rw [h.joinConcat_postfix rfl]; exact ih.opt
  | star h ih => rw [h.joinConcat_postfix rfl]; exact ih.star
  | plus h ih => rw [h.joinConcat_postfix rfl]; exact ih.plus
  | rep min max h ih => rw [h.joinConcat_postfix rfl]; exact ih.rep min max
  | cat hl hr ihl ihr =>
    obtain ⟨-, ⟨u, hu, hue⟩⟩ := hl.bounds
    obtain ⟨⟨t, ht, hts⟩, -⟩ := hr.bounds
    rw [List.append_nil, joinConcat_append hu ht, hue, hts]
    simpa using ihl.cat ihr
  | alt hl hr ihl ihr =>
    obtain ⟨-, ⟨u, hu, -⟩⟩ := hl.bounds
    obtain ⟨⟨t, ht, -⟩, -⟩ := hr.bounds
    obtain ⟨us', rfl⟩ := List.head?_eq_some_iff.mp ht
    rw [joinConcat_append hu rfl, joinConcat_cons_cons]
    simpa [endsValue, startsValue, isValue, isQuantifier] using ihl.alt ihr
  | lower _ ih => exact ih.lower

/-! ## The operator-precedence loop -/

/-- The top of the stack binds looser than level `n`: the stack is empty, or its top is
an opening bracket or an operator of precedence below `n`. -/
def Looser (n : Nat) : List Token → Prop
  | [] => True
  | t :: _ => t = .openGroup ∨ ∃ q, t.precedence = some q ∧ q < n

theorem Looser.mono {n m : Nat} {stack : List Token} (h : Looser n stack) (hnm : n ≤ m) :
    Looser m stack := by
  cases stack with
  | nil => trivial
  | cons t _ =>
    rcases h with h | ⟨q, hq, hlt⟩
    · exact .inl h
    · exact .inr ⟨q, hq, by omega⟩

/-- Operators waiting on the stack, each binding at level `n` at least. -/
def Pending (n : Nat) (ops : List Token) : Prop :=
  ∀ t ∈ ops, ∃ q, t.precedence = some q ∧ n ≤ q

theorem Pending.mono {n m : Nat} {ops : List Token} (h : Pending m ops) (hnm : n ≤ m) :
    Pending n ops := fun t ht => by
  obtain ⟨q, hq, hle⟩ := h t ht
  exact ⟨q, hq, by omega⟩

/-- An incoming operator of level `n` pops exactly the pending operators, when the stack
below them binds looser than `n`. -/
theorem popTighter_pending {n : Nat} {stack : List Token} (hs : Looser n stack) :
    ∀ {ops : List Token} (out : List Token), Pending n ops →
      popTighter (some n) (ops ++ stack) out = (stack, ops.reverse ++ out)
  | [], out, _ => by
    cases stack with
    | nil => rfl
    | cons t stack =>
      rcases hs with rfl | ⟨q, hq, hlt⟩
      · rfl
      · simp [popTighter, hq, hlt]
  | t :: ops, out, hops => by
    obtain ⟨q, hq, hle⟩ := hops t List.mem_cons_self
    have hrest := popTighter_pending hs (t :: out) fun u hu => hops u (List.mem_cons_of_mem _ hu)
    simp [popTighter, hq, Nat.not_lt.mpr hle, hrest]

/-- A closing bracket pops the pending operators and drops the bracket below them. -/
theorem popToOpen_pending {n : Nat} (stack : List Token) :
    ∀ {ops : List Token} (out : List Token), Pending n ops →
      popToOpen (ops ++ .openGroup :: stack) out = .ok (stack, ops.reverse ++ out)
  | [], _, _ => rfl
  | t :: ops, out, hops => by
    obtain ⟨q, hq, -⟩ := hops t List.mem_cons_self
    have ht : t ≠ .openGroup := by
      rintro rfl
      cases hq
    have hrest := popToOpen_pending stack (t :: out) fun u hu => hops u (List.mem_cons_of_mem _ hu)
    simp [popToOpen, hrest]

/-- The end of the stream pops the pending operators. -/
theorem drainOps_pending {n : Nat} :
    ∀ {ops : List Token} (out : List Token), Pending n ops →
      drainOps ops out = .ok (ops.reverse ++ out).reverse
  | [], _, _ => rfl
  | t :: ops, out, hops => by
    obtain ⟨q, hq, -⟩ := hops t List.mem_cons_self
    have ht : t ≠ .openGroup := by
      rintro rfl
      cases hq
    have hrest := drainOps_pending (t :: out) fun u hu => hops u (List.mem_cons_of_mem _ hu)
    simp [drainOps, hrest]

/-- An operator pops what binds at least as tightly, then waits on the stack. -/
theorem toRpnGo_op {t : Token} {q : Nat} (hq : t.precedence = some q) (ts stack out : List Token) :
    toRpnGo (t :: ts) stack out =
      toRpnGo ts (t :: (popTighter (some q) stack out).1) (popTighter (some q) stack out).2 := by
  cases t <;> simp only [precedence, reduceCtorEq, Option.some.injEq] at hq <;> subst hq <;> rfl

/-- What the loop does with a rendering at level `n`: read from a stack whose top binds
looser than `n`, it outputs a first part of the tree's reverse Polish form and leaves
the rest pending on top of the stack, all of it binding at level `n` at least. -/
def Reads (n : Nat) (e : Regex) (ts : List Token) : Prop :=
  ∃ done pend, e.rpn = done ++ pend ∧ Pending n pend ∧
    ∀ rest stack out, Looser n stack →
      toRpnGo (ts ++ rest) stack out = toRpnGo rest (pend ++ stack) (done.reverse ++ out)

/-- An operand or a class goes straight to the output. -/
theorem reads_value {e : Regex} {t : Token} (he : e.rpn = [t]) (ht : t.isValue = true) :
    Reads 2 e [t] := by
  refine ⟨[t], [], by rw [he, List.append_nil], (fun _ h => nomatch h), fun rest stack out _ => ?_⟩
  cases t <;> simp only [isValue, Bool.false_eq_true] at ht <;> rfl

/-- What stands at a level stands at every lower one. -/
theorem Reads.lower {n : Nat} {e : Regex} {ts : List Token} (h : Reads (n + 1) e ts) :
    Reads n e ts := by
  obtain ⟨done, pend, he, hp, hrun⟩ := h
  exact ⟨done, pend, he, hp.mono (Nat.le_succ n),
    fun rest stack out hs => hrun rest stack out (hs.mono (Nat.le_succ n))⟩

/-- Brackets: the opening one shields the stack below, the closing one pops everything
above it. -/
theorem Reads.group {e : Regex} {ts : List Token} (h : Reads 0 e ts) :
    Reads 2 e (.openGroup :: ts ++ [.closeGroup]) := by
  obtain ⟨done, pend, he, hp, hrun⟩ := h
  refine ⟨done ++ pend, [], by rw [he, List.append_nil], (fun _ h => nomatch h),
    fun rest stack out _ => ?_⟩
  have hopen : toRpnGo (.openGroup :: (ts ++ .closeGroup :: rest)) stack out =
      toRpnGo (ts ++ .closeGroup :: rest) (.openGroup :: stack) out := rfl
  rw [List.append_assoc, List.cons_append, List.singleton_append, hopen,
    hrun _ (.openGroup :: stack) _ (Or.inl rfl), toRpnGo, popToOpen_pending stack _ hp]
  simp

/-- A postfix operator finds its operand's pending operators, all of its own level, pops
them and waits in their place. -/
theorem Reads.postfix {e e' : Regex} {ts : List Token} {t : Token} (h : Reads 2 e ts)
    (ht : t.precedence = some 2) (he' : e'.rpn = e.rpn ++ [t]) : Reads 2 e' (ts ++ [t]) := by
  obtain ⟨done, pend, he, hp, hrun⟩ := h
  refine ⟨done ++ pend, [t], by rw [he', he, List.append_assoc],
    fun u hu => ⟨2, List.mem_singleton.mp hu ▸ ht, Nat.le_refl 2⟩, fun rest stack out hs => ?_⟩
  rw [List.append_assoc, List.singleton_append, hrun _ _ _ hs, toRpnGo_op ht,
    popTighter_pending hs _ hp]
  simp

/-- A binary operator of level `n` pops its left side's pending operators; its right
side, read above it at level `n + 1`, leaves its own pending above it. -/
theorem Reads.binary {n : Nat} {l r e : Regex} {ts us : List Token} {t : Token}
    (hl : Reads n l ts) (hr : Reads (n + 1) r us) (ht : t.precedence = some n)
    (he : e.rpn = l.rpn ++ r.rpn ++ [t]) : Reads n e (ts ++ t :: us) := by
  obtain ⟨dl, pl, hel, hpl, hrl⟩ := hl
  obtain ⟨dr, pr, her, hpr, hrr⟩ := hr
  refine ⟨dl ++ pl ++ dr, pr ++ [t], by simp [he, hel, her], fun u hu => ?_,
    fun rest stack out hs => ?_⟩
  · rcases List.mem_append.mp hu with hu | hu
    · exact (hpr.mono (Nat.le_succ n)) u hu
    · exact ⟨n, List.mem_singleton.mp hu ▸ ht, Nat.le_refl n⟩
  · have hs' : Looser (n + 1) (t :: stack) := .inr ⟨n, ht, Nat.lt_succ_self n⟩
    rw [List.append_assoc, List.cons_append, hrl _ _ _ hs, toRpnGo_op ht,
      popTighter_pending hs _ hpl]
    rw [hrr _ _ _ hs']
    simp

/-- **Reading one rendering.** The loop reads every rendering with explicit markers as
`Reads` says, one grammar rule at a time. -/
theorem Renders.process {n : Nat} {e : Regex} {ts : List Token} (h : Renders [.cat] n e ts) :
    Reads n e ts := by
  induction h with
  | sym x => exact reads_value rfl rfl
  | cls ms => exact reads_value rfl rfl
  | group _ ih => exact ih.group
  | opt _ ih => exact ih.postfix rfl rfl
  | star _ ih => exact ih.postfix rfl rfl
  | plus _ ih => exact ih.postfix rfl rfl
  | rep _ _ _ ih => exact ih.postfix rfl rfl
  | cat _ _ ihl ihr =>
    rw [List.append_assoc]
    exact ihl.binary ihr rfl rfl
  | alt _ _ ihl ihr => exact ihl.binary ihr rfl rfl
  | lower _ ih => exact ih.lower

/-- **Infix to reverse Polish form.** A tree written infix, with the brackets its binding
needs and any others, reads back as the tree's reverse Polish form once juxtaposition is
made explicit. -/
theorem toRpn_joinConcat {e : Regex} {ts : List Token} (h : Renders [] 0 e ts) :
    toRpn (joinConcat ts) = .ok e.rpn := by
  obtain ⟨done, pend, he, hp, hrun⟩ := h.joinConcat.process
  have hread := hrun [] [] [] trivial
  simp only [List.append_nil] at hread
  rw [toRpn, hread, toRpnGo, drainOps_pending _ hp, he]
  simp

/-- The pattern `(ab)+c|a{1,2}`, written without markers, reads back as its tree's
reverse Polish form. -/
theorem toRpn_joinConcat_group_plus :
    Renders [] 0
      (.alt (.cat (.plus (.cat (.sym (.char 'a')) (.sym (.char 'b')))) (.sym (.char 'c')))
        (.rep 1 2 (.sym (.char 'a'))))
      [.openGroup, .operand (.char 'a'), .operand (.char 'b'), .closeGroup, .plus,
        .operand (.char 'c'), .alt, .operand (.char 'a'), .rep 1 2] ∧
    toRpn (joinConcat [.openGroup, .operand (.char 'a'), .operand (.char 'b'), .closeGroup, .plus,
        .operand (.char 'c'), .alt, .operand (.char 'a'), .rep 1 2]) =
      .ok (Regex.rpn (.alt (.cat (.plus (.cat (.sym (.char 'a')) (.sym (.char 'b'))))
        (.sym (.char 'c'))) (.rep 1 2 (.sym (.char 'a'))))) :=
  have h : Renders [] 0
      (.alt (.cat (.plus (.cat (.sym (.char 'a')) (.sym (.char 'b')))) (.sym (.char 'c')))
        (.rep 1 2 (.sym (.char 'a'))))
      [.openGroup, .operand (.char 'a'), .operand (.char 'b'), .closeGroup, .plus,
        .operand (.char 'c'), .alt, .operand (.char 'a'), .rep 1 2] :=
    .alt (.lower (.cat (.lower (.plus (.group (.lower (.cat (.lower (.sym _)) (.sym _))))))
      (.sym _))) (.lower (.rep 1 2 (.sym _)))
  ⟨h, toRpn_joinConcat h⟩

end SeqPattern.Pattern
