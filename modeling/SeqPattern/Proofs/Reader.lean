import Mathlib
import SeqPattern.Pattern.Scan
/-!
# What the reader gives

The reader turns a pattern into tokens along several paths: the characters of a text
pattern, one at a time, with escapes, classes and repetitions between brackets; and
the atoms of an atom-list pattern, where a bracketed atom is a class whose members are
split on commas or taken one character each, and a braced atom is a repetition.
Whichever path a token comes from, it has the same shape (`Token.Scanned`):

* it is never the explicit concatenation marker, which only the step after reading
  inserts;
* a class lists the members written in its body, each once, in the order in which
  they first appear (`List.eraseDups`): at least one, and never the wildcard or the
  terminator; and its body is one written in the pattern (`Input.ClassBody`): in text,
  what stands between an opening bracket and the first closing one after it, and in an
  atom list, an atom wrapped in brackets;
* a repetition has `min ≤ max ≤ 10000`.

Every error of the reader is one of its own (`PatternError.ByReader`): an escape, a
class or a repetition left open, an empty class, or a repetition whose bounds do not
read.

The class and repetition facts come from the two functions every path calls
(`classMembers_spec`, `yields_repeatToken`). The text path is one induction over the
characters, with the tokens read so far scanned and the characters left a suffix of
the pattern (`TextMode.Within`); the atom path is one over the atoms.

Main statements: `Pattern.classMembers_spec` and `Pattern.tokenize_yields`.
-/

namespace SeqPattern

/-! ## Tokens and errors of the reader -/

/-- The class bodies written in a pattern, after the comma shorthand, with how their
members are read: in text, the characters between an opening bracket and the first
closing one after it, one character per member; in an atom list, an atom wrapped in
brackets, with integers recognised. -/
def Input.ClassBody : Input → List Char → Bool → Prop
  | .text s, body, coerce => coerce = false ∧ ']' ∉ body ∧ ('[' :: body ++ [']']) <:+: s.toList
  | .items xs, body, coerce =>
    coerce = true ∧ ∃ s, Item.str s ∈ xs ∧ s.toList = '[' :: body ++ [']']

/-- A token as the reader gives it, where `W` says which class bodies it may read: never
the concatenation marker, a class with the members of one of those bodies, and a
repetition within its bounds. -/
def Token.Scanned (W : List Char → Bool → Prop) : Token → Prop
  | .cat => False
  | .charClass ms => ∃ body coerce, W body coerce ∧ Pattern.classMembers body coerce = .ok ms
  | .rep min max => min ≤ max ∧ max ≤ Pattern.maxRepeat
  | _ => True

/-- The errors the reader raises: an escape, a class or a repetition left open, an empty
class, and a repetition whose bounds do not read. -/
def PatternError.ByReader : PatternError → Prop
  | .danglingEscape | .unterminatedClass _ | .emptyClass | .unterminatedRepeat _ | .badRepeat _ =>
    True
  | _ => False

namespace Pattern

/-- A reading that succeeds with a value of property `P`, or fails with an error of the
reader. -/
def Yields {α : Type} (P : α → Prop) : Except PatternError α → Prop
  | .ok a => P a
  | .error e => e.ByReader

/-! ## Classes -/

section Dedup

variable {α : Type} [DecidableEq α]

/-- The loop of `dedupFirst` is the library's loop that erases later repeats: both keep
an element when it is not among those kept so far. -/
theorem foldl_dedup_reverse (xs acc : List α) :
    (xs.foldl (fun acc x => if acc.contains x then acc else x :: acc) acc).reverse =
      List.eraseDupsBy.loop (· == ·) xs acc := by
  induction xs generalizing acc with
  | nil => rfl
  | cons x xs ih =>
    rw [List.foldl_cons, ih, List.eraseDupsBy.loop, List.any_beq]
    by_cases hx : acc.contains x
    · rw [if_pos hx, hx]
    · rw [if_neg hx, Bool.eq_false_iff.mpr hx]

/-- Keeping the first occurrence of each element is erasing the later ones. -/
theorem dedupFirst_eq_eraseDups (xs : List α) : dedupFirst xs = xs.eraseDups :=
  foldl_dedup_reverse xs []

/-- Erasing the later repeats leaves no repeat. -/
theorem nodup_eraseDups : ∀ xs : List α, xs.eraseDups.Nodup
  | [] => List.nodup_nil
  | x :: xs => by
    rw [List.eraseDups_cons, List.nodup_cons]
    refine ⟨fun hx => ?_, nodup_eraseDups _⟩
    simpa using List.mem_eraseDups.mp hx
termination_by xs => xs.length
decreasing_by exact Nat.lt_succ_of_le (List.length_filter_le _ _)

end Dedup

/-- An atom read with integers recognised is a character, an integer or a word. -/
theorem ofAtomCoerced_ne (atom : String) :
    Symbol.ofAtomCoerced atom ≠ .wildcard ∧ Symbol.ofAtomCoerced atom ≠ .stop := by
  unfold Symbol.ofAtomCoerced Symbol.ofAtom
  split
  · exact ⟨Symbol.noConfusion, Symbol.noConfusion⟩
  · split <;> exact ⟨Symbol.noConfusion, Symbol.noConfusion⟩

/-- A member written in a class body is a character, an integer or a word. -/
theorem ne_of_mem_classWritten {body : List Char} {coerce : Bool} {x : Symbol}
    (hx : x ∈ classWritten body coerce) : x ≠ .wildcard ∧ x ≠ .stop := by
  unfold classWritten at hx
  split_ifs at hx
  · obtain ⟨part, -, rfl⟩ := List.mem_map.mp hx
    exact ofAtomCoerced_ne _
  · obtain ⟨c, -, rfl⟩ := List.mem_map.mp hx
    split <;> exact ⟨Symbol.noConfusion, Symbol.noConfusion⟩
  · obtain ⟨c, -, rfl⟩ := List.mem_map.mp hx
    exact ⟨Symbol.noConfusion, Symbol.noConfusion⟩

/-- **The members of a class.** A class body that reads gives the members written in
it, each once, in the order in which they first appear: at least one, and never the
wildcard or the terminator. A class body fails to read only when it has no member. -/
theorem classMembers_spec (body : List Char) (coerce : Bool) :
    (∀ ms, classMembers body coerce = .ok ms →
      ms = (classWritten body coerce).eraseDups ∧ ms ≠ [] ∧ ms.Nodup ∧
        .wildcard ∉ ms ∧ .stop ∉ ms) ∧
    ∀ e, classMembers body coerce = .error e → e = .emptyClass := by
  unfold classMembers
  rw [dedupFirst_eq_eraseDups]
  cases hms : (classWritten body coerce).eraseDups with
  | nil => exact ⟨fun ms h => (by cases h), fun e h => by cases h; rfl⟩
  | cons m ms =>
    refine ⟨fun ms' h => ?_, fun e h => (by cases h)⟩
    cases h
    -- the members are among those written, which are never reserved
    have hwritten : ∀ x ∈ m :: ms, x ≠ .wildcard ∧ x ≠ .stop := fun x hx =>
      ne_of_mem_classWritten (List.mem_eraseDups.mp (by rw [hms]; exact hx))
    have hnodup : (m :: ms).Nodup := by
      rw [← hms]
      exact nodup_eraseDups _
    exact ⟨rfl, List.cons_ne_nil m ms, hnodup, fun h => (hwritten _ h).1 rfl,
      fun h => (hwritten _ h).2 rfl⟩

section Scanned

variable {W : List Char → Bool → Prop}

/-- A class body the reader may read gives a scanned class, or the error of an empty
class. -/
theorem yields_classToken (body : List Char) (coerce : Bool) (hW : W body coerce) :
    Yields (Token.Scanned W) ((classMembers body coerce).map .charClass) := by
  cases h : classMembers body coerce with
  | ok ms => exact ⟨body, coerce, hW, h⟩
  | error e =>
    show e.ByReader
    rw [(classMembers_spec body coerce).2 e h]
    trivial

/-! ## Repetitions -/

/-- A repetition reads with bounds `min ≤ max ≤ 10000`, or fails with the error of
unreadable bounds. -/
theorem yields_repeatToken (body : List Char) : Yields (Token.Scanned W) (repeatToken body) := by
  unfold repeatToken
  dsimp only
  split
  · split
    · rename_i h
      simp only [Bool.and_eq_true, decide_eq_true_eq] at h
      exact h
    · trivial
  · trivial

end Scanned

/-! ## The text reader -/

/-- Where the text reader stands in the pattern `text`: the characters left are its end,
and inside a class the opening bracket and the body read so far, which holds no closing
bracket, come just before them. -/
def TextMode.Within (text : String) (cs : List Char) : TextMode → Prop
  | .inClass body => ']' ∉ body ∧ ('[' :: body.reverse ++ cs) <:+ text.toList
  | _ => cs <:+ text.toList

/-- The characters after the first one are an end of the pattern too. -/
theorem suffix_of_cons {text : String} {c : Char} {cs : List Char} (h : (c :: cs) <:+ text.toList) :
    cs <:+ text.toList :=
  (List.suffix_cons c cs).trans h

/-- **Reading text.** From any mode, with the characters left an end of the pattern and
the tokens read so far scanned, the reader of a text pattern gives tokens scanned against
the pattern's class bodies, or fails with an error of its own. The induction follows the
characters: each step emits at most one token, a plain one, a class or a repetition; a
class is emitted at its closing bracket, when its opening bracket, its body and the
bracket stand together in the pattern. -/
theorem yields_scanChars (text : String) :
    ∀ (cs : List Char) (m : TextMode) (acc : List Token), m.Within text cs →
      (∀ t ∈ acc, t.Scanned (Input.text text).ClassBody) →
      Yields (fun ts => ∀ t ∈ ts, t.Scanned (Input.text text).ClassBody) (scanChars text cs m acc)
  | [], .plain, acc, _, hacc => fun t ht => hacc t (List.mem_reverse.mp ht)
  | [], .escaped, _, _, _ => trivial
  | [], .inClass _, _, _, _ => trivial
  | [], .inRepeat _, _, _, _ => trivial
  | c :: cs, .escaped, acc, hw, hacc =>
    yields_scanChars text cs .plain _ (suffix_of_cons hw) (List.forall_mem_cons.mpr ⟨trivial, hacc⟩)
  | c :: cs, .inClass body, acc, ⟨hclosed, hsuf⟩, hacc => by
    rw [scanChars]
    have hrest : cs <:+ text.toList :=
      (List.suffix_append ('[' :: body.reverse ++ [c]) cs).trans (by simpa using hsuf)
    split
    · rename_i hc
      subst hc
      -- the opening bracket, the body and the closing bracket stand together in the text
      have hbody : (Input.text text).ClassBody body.reverse false := by
        refine ⟨rfl, by simpa using hclosed, ?_⟩
        obtain ⟨u, hu⟩ := hsuf
        exact ⟨u, cs, by rw [← hu]; simp⟩
      have hclass := yields_classToken body.reverse false hbody
      split
      · rename_i ms hms
        rw [hms] at hclass
        exact yields_scanChars text cs .plain _ hrest (List.forall_mem_cons.mpr ⟨hclass, hacc⟩)
      · rename_i e he
        rw [he] at hclass
        exact hclass
    · rename_i hc
      refine yields_scanChars text cs _ acc ⟨?_, by simpa using hsuf⟩ hacc
      exact fun hmem => (List.mem_cons.mp hmem).elim (fun h => hc h.symm) hclosed
  | c :: cs, .inRepeat body, acc, hw, hacc => by
    rw [scanChars]
    split
    · have hrep : Yields (Token.Scanned (Input.text text).ClassBody) (repeatToken body.reverse) :=
        yields_repeatToken body.reverse
      split
      · rename_i t ht
        rw [ht] at hrep
        exact yields_scanChars text cs .plain _ (suffix_of_cons hw)
          (List.forall_mem_cons.mpr ⟨hrep, hacc⟩)
      · rename_i e he
        rw [he] at hrep
        exact hrep
    · exact yields_scanChars text cs _ acc (suffix_of_cons hw) hacc
  | c :: cs, .plain, acc, hw, hacc => by
    rw [scanChars]
    split
    · exact yields_scanChars text cs _ acc (suffix_of_cons hw) hacc
    split
    · -- a class opens here: the bracket stands just before the characters left
      rename_i hc
      subst hc
      exact yields_scanChars text cs _ acc ⟨List.not_mem_nil, hw⟩ hacc
    split
    · exact yields_scanChars text cs _ acc (suffix_of_cons hw) hacc
    -- a plain character is an operator or an operand
    have hplain : (plainToken c).Scanned (Input.text text).ClassBody := by
      unfold plainToken
      split <;> trivial
    exact yields_scanChars text cs .plain _ (suffix_of_cons hw)
      (List.forall_mem_cons.mpr ⟨hplain, hacc⟩)

/-! ## The atom reader -/

section Atoms

variable {W : List Char → Bool → Prop}

/-- An atom reads as an operator, the wildcard, a class of its bracketed body, a
repetition or an operand. -/
theorem yields_atomToken (atom : String)
    (hW : ∀ body, atom.toList = '[' :: body ++ [']'] → W body true) :
    Yields (Token.Scanned W) (atomToken atom) := by
  unfold atomToken
  split
  -- an operator or the wildcard spelled alone, and a literal atom
  any_goals exact trivial
  -- a bracketed atom is a class, and a braced one a repetition, when it is closed
  · rename_i rest hatom
    split
    · rename_i hlast
      refine yields_classToken _ true (hW _ ?_)
      rw [hatom, List.cons_append, List.dropLast_append_getLast? ']' hlast]
    · trivial
  · split
    · exact yields_repeatToken _
    · trivial

theorem yields_itemToken (x : Item)
    (hW : ∀ s body, x = .str s → s.toList = '[' :: body ++ [']'] → W body true) :
    Yields (Token.Scanned W) (itemToken x) := by
  cases x with
  | int n => trivial
  | str s => exact yields_atomToken s (hW s · rfl)

/-- Reading a list of atoms one at a time gives scanned tokens, or the first error. -/
theorem yields_mapM_itemToken :
    ∀ xs : List Item, (∀ s body, Item.str s ∈ xs → s.toList = '[' :: body ++ [']'] → W body true) →
      Yields (fun ts => ∀ t ∈ ts, t.Scanned W) (xs.mapM itemToken)
  | [], _ => fun t ht => absurd ht List.not_mem_nil
  | x :: xs, hW => by
    have hx := yields_itemToken x fun s body hs => hW s body (hs ▸ List.mem_cons_self)
    have hxs := yields_mapM_itemToken xs fun s body hs => hW s body (List.mem_cons_of_mem x hs)
    rw [List.mapM_cons]
    cases hfx : itemToken x with
    | error e =>
      rw [hfx] at hx
      exact hx
    | ok t =>
      rw [hfx] at hx
      cases hrest : xs.mapM itemToken with
      | error e =>
        rw [hrest] at hxs
        exact hxs
      | ok ts =>
        rw [hrest] at hxs
        exact List.forall_mem_cons.mpr ⟨hx, hxs⟩

end Atoms

/-- **What the reader gives.** Whatever the pattern, text or atoms, after the comma
shorthand, its tokens are all scanned against the class bodies written in it, or
reading fails with an error of the reader. -/
theorem tokenize_yields (p : Input) :
    Yields (fun ts => ∀ t ∈ ts, t.Scanned p.normalize.ClassBody) (tokenize p) := by
  unfold tokenize
  cases hnorm : p.normalize with
  | text s =>
    show Yields _ (scanText s)
    exact yields_scanChars s _ _ _ List.suffix_rfl fun t ht => absurd ht List.not_mem_nil
  | items xs =>
    show Yields _ (xs.mapM itemToken)
    exact yields_mapM_itemToken xs fun s body hs hbody => ⟨rfl, s, hs, hbody⟩

theorem scanned_of_tokenize {p : Input} {ts : List Token} (h : tokenize p = .ok ts) :
    ∀ t ∈ ts, t.Scanned p.normalize.ClassBody := by
  have hyields := tokenize_yields p
  rw [h] at hyields
  exact hyields

theorem byReader_of_tokenize {p : Input} {e : PatternError} (h : tokenize p = .error e) :
    e.ByReader := by
  have hyields := tokenize_yields p
  rw [h] at hyields
  exact hyields

end Pattern

end SeqPattern
