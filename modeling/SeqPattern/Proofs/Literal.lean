import SeqPattern.Proofs.Thompson
import SeqPattern.Proofs.Grammar
import SeqPattern.Proofs.Budget
/-!
# Literal patterns

A pattern without operators stands for one sequence, the one it spells, and matching it
against a sequence compares the two. This holds for text and atom lists alike because
the pattern reader and the sequence reader agree on every atom: both apply the comma
shorthand first, read text one character symbol per character, and read an integer
atom as that integer and a string atom by its length, with no coercion of digits.

The proof follows a literal pattern through every stage. The reader gives one operand
per atom, the operand of the atom's own symbol (`tokenize_of_operatorFree`). Making
juxtaposition explicit and reordering give the reverse Polish form of the tree that
concatenates these symbols from the left (`Regex.word`), since the atoms one after
another are a rendering of that tree (`renders_word`). The tree compiles within the
state budget, two states per symbol (`compile_word`), to an automaton of the tree's
language, and a concatenation of literal symbols matches its own sequence and no
other (`mem_lang_word`).

Main statement: `Nfa.matchOne_literal`.
-/

namespace SeqPattern

open Pattern

/-! ## Patterns without operators -/

/-- The characters a text pattern does not read as literals: the operators, the
wildcard, the escape, and the openings of a class and of a repetition. -/
def textOperators : List Char := ['\\', '|', '?', '*', '+', '(', ')', '.', '[', '\x7b']

/-- The spellings of the operators and of the wildcard in an atom list. -/
def operatorAtoms : List String := ["|", "?", "*", "+", "(", ")", "."]

/-- Whether a string of at least two characters starts with `o` and ends with `c`. -/
def wrapped (o c : Char) (s : String) : Bool :=
  decide (2 ≤ s.length) && s.toList.head? == some o && s.toList.getLast? == some c

/-- Whether an atom of a pattern is a literal: an integer, or a string that spells no
operator and is not wrapped in square brackets or in braces. -/
def Item.isLiteral : Item → Bool
  | .int _ => true
  | .str s => !operatorAtoms.contains s && !wrapped '[' ']' s && !wrapped '\x7b' '\x7d' s

/-- Whether a pattern is free of operators: it has at most `2^19` atoms after the comma
shorthand, and it is a text without operator characters or an atom list of literals. -/
def Input.operatorFree (p : Input) : Bool :=
  decide (p.toSymbols.length ≤ Build.maxStates / 2) &&
    match p.normalize with
    | .text s => s.toList.all fun c => !textOperators.contains c
    | .items xs => xs.all Item.isLiteral

/-! ## Reading a literal pattern -/

theorem plainToken_literal {c : Char} (hc : textOperators.contains c = false) :
    plainToken c = .operand (.char c) := by
  unfold plainToken
  split <;> simp_all [textOperators]

/-- A text without operator characters reads as one character operand per character. -/
theorem scanChars_literal (text : String) :
    ∀ (cs : List Char) (acc : List Token), (cs.all fun c => !textOperators.contains c) = true →
      scanChars text cs .plain acc = .ok (acc.reverse ++ cs.map fun c => .operand (.char c))
  | [], acc, _ => by simp [scanChars]
  | c :: cs, acc, h => by
    simp only [List.all_cons, Bool.and_eq_true, Bool.not_eq_true'] at h
    obtain ⟨hc, hcs⟩ := h
    -- the character opens no escape, class or repetition
    have hne : c ≠ '\\' ∧ c ≠ '[' ∧ c ≠ '\x7b' := by
      refine ⟨?_, ?_, ?_⟩ <;> rintro rfl <;> simp [textOperators] at hc
    rw [scanChars, if_neg hne.1, if_neg hne.2.1, if_neg hne.2.2, plainToken_literal hc,
      scanChars_literal text cs _ hcs]
    simp

theorem wrapped_of_toList {o c : Char} {s : String} {rest : List Char} (hs : s.toList = o :: rest)
    (hc : rest.getLast? = some c) : wrapped o c s = true := by
  obtain ⟨init, rfl⟩ := List.getLast?_eq_some_iff.mp hc
  have hlast : (o :: (init ++ [c])).getLast? = some c := by
    rw [← List.cons_append, List.getLast?_concat]
  simp [wrapped, ← String.length_toList, hs, hlast]

theorem operatorAtoms_contains {s : String} {c : Char} (hs : s.toList = [c])
    (hc : c ∈ ['|', '?', '*', '+', '(', ')', '.']) : operatorAtoms.contains s = true := by
  obtain rfl : s = String.singleton c := by
    rw [← String.toList_inj, hs]
    simp
  simp only [List.mem_cons, List.not_mem_nil, or_false] at hc
  rcases hc with rfl | rfl | rfl | rfl | rfl | rfl | rfl <;> decide

/-- A literal string atom reads as the operand of its symbol. -/
theorem atomToken_literal {s : String} (hs : Item.isLiteral (.str s) = true) :
    atomToken s = .ok (.operand (Symbol.ofAtom s)) := by
  simp only [Item.isLiteral, Bool.and_eq_true, Bool.not_eq_true'] at hs
  obtain ⟨⟨hop, hsq⟩, hbr⟩ := hs
  unfold atomToken
  split
  -- an operator or the wildcard spelled alone is no literal
  all_goals first
    | rfl
    | exact absurd (operatorAtoms_contains ‹_› (by decide)) (by rw [hop]; decide)
    | skip
  -- a string that opens a class or a repetition does not close it
  next rest hs => rw [if_neg fun hc => absurd (wrapped_of_toList hs hc) (by rw [hsq]; decide)]
  next rest hs => rw [if_neg fun hc => absurd (wrapped_of_toList hs hc) (by rw [hbr]; decide)]

theorem itemToken_literal {x : Item} (hx : x.isLiteral = true) :
    itemToken x = .ok (.operand x.toSymbol) := by
  cases x with
  | int n => rfl
  | str s => exact atomToken_literal hx

theorem mapM_itemToken_literal :
    ∀ xs : List Item, xs.all Item.isLiteral = true →
      xs.mapM itemToken = .ok (xs.map fun x => .operand x.toSymbol)
  | [], _ => rfl
  | x :: xs, h => by
    simp only [List.all_cons, Bool.and_eq_true] at h
    rw [List.mapM_cons, itemToken_literal h.1, mapM_itemToken_literal xs h.2]
    rfl

/-- **Both readers agree on a literal pattern.** A pattern without operators reads as one
operand per atom, the operand of the very symbol the sequence reader gives that atom. -/
theorem tokenize_of_operatorFree {p : Input} (hp : p.operatorFree = true) :
    tokenize p = .ok (p.toSymbols.map .operand) := by
  simp only [Input.operatorFree, Bool.and_eq_true] at hp
  obtain ⟨-, hlit⟩ := hp
  unfold tokenize Input.toSymbols
  -- both readers look at the pattern after the shorthand
  cases hnorm : p.normalize with
  | text s =>
    have hs : (s.toList.all fun c => !textOperators.contains c) = true := by
      rw [hnorm] at hlit
      exact hlit
    show scanText s = .ok ((s.toList.map .char).map .operand)
    rw [scanText, scanChars_literal s _ [] hs]
    simp
  | items xs =>
    have hxs : xs.all Item.isLiteral = true := by
      rw [hnorm] at hlit
      exact hlit
    show xs.mapM itemToken = .ok ((xs.map Item.toSymbol).map .operand)
    rw [mapM_itemToken_literal xs hxs]
    simp

/-- A symbol that an input spells is never the wildcard. -/
theorem Input.isWildcard_of_mem_toSymbols {p : Input} {x : Symbol} (hx : x ∈ p.toSymbols) :
    x.isWildcard = false := by
  unfold Input.toSymbols at hx
  split at hx
  · obtain ⟨c, -, rfl⟩ := List.mem_map.mp hx
    rfl
  · obtain ⟨i, -, rfl⟩ := List.mem_map.mp hx
    cases i with
    | int n => rfl
    | str s =>
      show (Symbol.ofAtom s).isWildcard = false
      unfold Symbol.ofAtom
      split <;> rfl

/-! ## The tree of a literal sequence -/

namespace Regex

/-- The tree of a literal sequence: its symbols concatenated from the left, and the empty
expression for the empty sequence. -/
def word : List Symbol → Regex
  | [] => eps
  | x :: xs => xs.foldl (fun e y => cat e (sym y)) (sym x)

theorem rpn_foldl_cat (xs : List Symbol) :
    ∀ e : Regex, (xs.foldl (fun e y => cat e (sym y)) e).rpn =
      e.rpn ++ xs.flatMap fun y => [.operand y, .cat] := by
  induction xs with
  | nil => intro e; simp
  | cons y xs ih =>
    intro e
    rw [List.foldl_cons, ih]
    simp [rpn]

theorem rpn_word_cons (x : Symbol) (xs : List Symbol) :
    (word (x :: xs)).rpn = .operand x :: xs.flatMap fun y => [.operand y, .cat] := by
  rw [word, rpn_foldl_cat]
  rfl

/-- A literal symbol matches itself alone. -/
theorem mem_lang_sym_literal {x : Symbol} (hx : x.isWildcard = false) (term : Symbol)
    (w : List Symbol) : w ∈ (sym x).lang term ↔ w = [x] := by
  rw [mem_lang_sym]
  constructor
  · rintro ⟨y, rfl, hy⟩
    simp only [Symbol.accepts, hx, Bool.false_and, Bool.or_false, beq_iff_eq] at hy
    rw [hy]
  · rintro rfl
    exact ⟨x, rfl, Symbol.accepts_self x term⟩

theorem mem_lang_foldl_cat (term : Symbol) (xs : List Symbol) (hxs : ∀ y ∈ xs, y.isWildcard = false) :
    ∀ {e : Regex} {u : List Symbol}, (∀ w, w ∈ e.lang term ↔ w = u) →
      ∀ w, w ∈ (xs.foldl (fun e y => cat e (sym y)) e).lang term ↔ w = u ++ xs := by
  induction xs with
  | nil => intro e u he; simpa using he
  | cons y xs ih =>
    intro e u he
    -- one more symbol: the language of the longer tree is the longer sequence alone
    have hy := mem_lang_sym_literal (hxs y List.mem_cons_self) term
    have hcat : ∀ w, w ∈ (cat e (sym y)).lang term ↔ w = u ++ [y] := by
      intro w
      rw [show (cat e (sym y)).lang term = e.lang term * (sym y).lang term from rfl,
        Language.mem_mul]
      constructor
      · rintro ⟨v, hv, z, hz, rfl⟩
        rw [(he v).mp hv, (hy z).mp hz]
      · rintro rfl
        exact ⟨u, (he u).mpr rfl, [y], (hy [y]).mpr rfl, rfl⟩
    simpa using ih (fun z hz => hxs z (List.mem_cons_of_mem y hz)) hcat

/-- **A literal sequence's tree matches that sequence and no other.** -/
theorem mem_lang_word {xs : List Symbol} (hxs : ∀ y ∈ xs, y.isWildcard = false) (term : Symbol)
    (w : List Symbol) : w ∈ (word xs).lang term ↔ w = xs := by
  cases xs with
  | nil => exact Language.mem_one w
  | cons x xs =>
    rw [word, mem_lang_foldl_cat term xs (fun y hy => hxs y (List.mem_cons_of_mem x hy))
      (mem_lang_sym_literal (hxs x List.mem_cons_self) term)]
    rfl

end Regex

/-! ## From the atoms to the reverse Polish form -/

theorem renders_foldl_cat (xs : List Symbol) :
    ∀ {e : Regex} {ts : List Token}, Renders [] 1 e ts →
      Renders [] 1 (xs.foldl (fun e y => .cat e (.sym y)) e) (ts ++ xs.map .operand) := by
  induction xs with
  | nil => intro e ts h; simpa using h
  | cons y xs ih =>
    intro e ts h
    simpa using ih (Renders.cat h (.sym y))

/-- The atoms of a non-empty literal sequence, one after another, are a rendering of the
sequence's tree. -/
theorem renders_word (x : Symbol) (xs : List Symbol) :
    Renders [] 1 (Regex.word (x :: xs)) ((x :: xs).map .operand) :=
  renders_foldl_cat xs (Renders.lower (.sym x))

/-- The operands of a literal sequence convert to the reverse Polish form of its tree. -/
theorem toRpn_joinConcat_word (xs : List Symbol) :
    toRpn (joinConcat (xs.map .operand)) = .ok (Regex.word xs).rpn := by
  cases xs with
  | nil => rfl
  | cons x xs =>
    -- the loop reads the rendering with its markers at level 0, and the end of the stream
    -- pops what it leaves pending
    obtain ⟨done, pend, he, hp, hrun⟩ := (renders_word x xs).joinConcat.lower.process
    have hread := hrun [] [] [] trivial
    simp only [List.append_nil] at hread
    rw [toRpn, hread, toRpnGo, drainOps_pending _ hp, he]
    simp

theorem ofRpn_word (xs : List Symbol) : Regex.ofRpn (Regex.word xs).rpn = some (Regex.word xs) := by
  cases xs with
  | nil => rfl
  | cons x xs => exact (renders_word x xs).ofRpn

/-! ## Compiling a literal sequence -/

namespace Build

open Nfa

/-- Each further symbol of a literal sequence, with the marker after it, adds its two
states and joins its fragment to the one below. -/
theorem applyTokens_pairs (ys : List Symbol) :
    ∀ (f : Fragment) (stack : List Fragment) (ar : Array State), ∃ f' ar',
      (applyTokens none (ys.flatMap fun y => [.operand y, .cat]) (f :: stack)).run ar =
        .ok (f' :: stack) ar' ∧ ar'.size = ar.size + 2 * ys.length := by
  induction ys with
  | nil => intro f stack ar; exact ⟨f, ar, rfl, rfl⟩
  | cons y ys ih =>
    intro f stack ar
    obtain ⟨g, ar₁, hg, hsize₁⟩ := Adds.symbol y ar
    obtain ⟨f₁, ar₂, hc, hsize₂⟩ := Adds.concat f g ar₁
    obtain ⟨f', ar', hrest, hsize⟩ := ih f₁ stack ar₂
    refine ⟨f', ar', ?_, by simp only [List.length_cons]; omega⟩
    have hsym : (applyToken none (.operand y) (f :: stack)).run ar = .ok (g :: f :: stack) ar₁ :=
      run_bind_eq_ok.mpr ⟨g, ar₁, hg, rfl⟩
    have hcat : (applyToken none .cat (g :: f :: stack)).run ar₁ = .ok (f₁ :: stack) ar₂ :=
      run_bind_eq_ok.mpr ⟨f₁, ar₂, hc, rfl⟩
    exact run_bind_eq_ok.mpr ⟨_, ar₁, hsym, run_bind_eq_ok.mpr ⟨_, ar₂, hcat, hrest⟩⟩

end Build

namespace Nfa

open Build

/-- A literal sequence of at most `2^19` symbols compiles within the state budget: two
states per symbol, and two for the empty sequence. -/
theorem compile_word {xs : List Symbol} (hlen : xs.length ≤ Build.maxStates / 2) :
    ∃ a, compile (Regex.word xs).rpn = .ok a := by
  cases xs with
  | nil =>
    obtain ⟨f, ar, hrun, hsize⟩ := Adds.epsilon #[]
    have h : compileWith none [] = .ok (ofFragment ar f) := by
      simp [compileWith, construct, hrun]
    exact ⟨_, compile_of_size_le h (by simp [ofFragment, hsize, Build.maxStates])⟩
  | cons x xs =>
    obtain ⟨g, ar₁, hg, hsize₁⟩ := Adds.symbol x #[]
    obtain ⟨f, ar, hrest, hsize⟩ := applyTokens_pairs xs g [] ar₁
    -- the first symbol pushes its fragment, and every further one joins it
    have hstack : (applyTokens none (.operand x :: xs.flatMap fun y => [.operand y, .cat]) []).run
        #[] = .ok [f] ar :=
      run_bind_eq_ok.mpr ⟨[g], ar₁, run_bind_eq_ok.mpr ⟨g, ar₁, hg, rfl⟩, hrest⟩
    have hbuild : (construct none (.operand x :: xs.flatMap fun y => [.operand y, .cat])).run #[] =
        .ok f ar :=
      run_bind_eq_ok.mpr ⟨[f], ar, hstack, rfl⟩
    have h : compileWith none (Regex.word (x :: xs)).rpn = .ok (ofFragment ar f) := by
      rw [Regex.rpn_word_cons, compileWith, hbuild]
    refine ⟨_, compile_of_size_le h ?_⟩
    simp only [List.length_cons] at hlen
    simp only [ofFragment, hsize, hsize₁, Array.size_empty]
    unfold Build.maxStates at hlen ⊢
    omega

/-- A compiled stream's automaton accepts exactly the language of the stream's tree,
whatever the cap. -/
theorem accepts_iff_lang_of_compileWith {cap : Option Nat} {ts : List Token} {a : Nfa}
    (h : compileWith cap ts = .ok a) :
    ∃ e, Regex.ofRpn ts = some e ∧ ∀ s, a.accepts s = true ↔ s ∈ e.lang .stop := by
  obtain ⟨e, he, hown, hf⟩ := faithful_of_compileWith h
  have hsingle : a.SingleExit := singleExit_ofFragment hown
  refine ⟨e, he, fun s => ?_⟩
  rw [accepts_iff_path, ← hf.denotes .stop s]
  constructor
  · rintro ⟨j, hp, hacc⟩
    rwa [(hsingle.accepting_iff j).mp hacc] at hp
  · intro hp
    exact ⟨a.exit, hp, (hsingle.accepting_iff _).mpr rfl⟩

/-- **A literal pattern matches only itself.** Let a pattern be free of operators: at
most `2^19` atoms after the comma shorthand, and a text without the characters
`\ | ? * + ( ) . [` and the opening brace, or an atom list without a string that spells
an operator or the wildcard or is wrapped in square brackets or braces. Then matching
it against any sequence argument succeeds, and tells whether the two spell the same
symbols. -/
theorem matchOne_literal (p s : Input) (hp : p.operatorFree = true) :
    matchOne p s = .ok (p.toSymbols == s.toSymbols) := by
  have hlen : p.toSymbols.length ≤ Build.maxStates / 2 := by
    simp only [Input.operatorFree, Bool.and_eq_true, decide_eq_true_eq] at hp
    exact hp.1
  have hrpn : rpnOf p = .ok (Regex.word p.toSymbols).rpn := by
    rw [rpnOf, tokenize_of_operatorFree hp]
    exact toRpn_joinConcat_word _
  obtain ⟨a, ha⟩ := compile_word hlen
  obtain ⟨e, he, hacc⟩ := accepts_iff_lang_of_compileWith ha
  rw [ofRpn_word, Option.some.injEq] at he
  subst he
  -- the automaton accepts the pattern's own symbols and nothing else
  have hmatch : a.acceptsInput s = (p.toSymbols == s.toSymbols) := by
    rw [acceptsInput, Bool.eq_iff_iff, hacc, Regex.mem_lang_word
      (fun y hy => Input.isWildcard_of_mem_toSymbols hy), beq_iff_eq, eq_comm]
  simp only [matchOne, ofPattern, hrpn, bind, Except.bind, ha, pure, Except.pure, hmatch]

/-- The shorthand pattern `7,ab` is free of operators, and matching it against the atoms
`7` and `ab` compares the symbols both spell. -/
theorem matchOne_literal_shorthand :
    (Input.items [.str "7,ab"]).operatorFree = true ∧
      matchOne (.items [.str "7,ab"]) (.items [.int 7, .str "ab"]) =
        .ok ((Input.items [.str "7,ab"]).toSymbols == (Input.items [.int 7, .str "ab"]).toSymbols) :=
  ⟨by decide, matchOne_literal _ _ (by decide)⟩

end Nfa

end SeqPattern
