import SeqPattern.Input
/-!
# Atom spellings read back

The atom spelling of a symbol (`Item.ofSymbol`) keeps integers and writes every
other symbol as its text. This module shows when an atom list of spellings reads
back, through `Input.toSymbols`, as the sequence it spells.

Two things can go wrong, and the hypotheses exclude exactly them:

- reading a string atom looks only at its length, so the wildcard and the
  terminator (whose texts are `.` and `$`), and a word of one character, come back
  as characters;
- an atom list of exactly one string is the comma shorthand, so a lone text with a
  comma, or a lone run of digits, is split or read as integers.

Main statement: `toSymbols_items_ofSymbol`.
-/

namespace SeqPattern

/-- A symbol that reading a string atom gives back: neither the wildcard nor the
terminator, and no word of exactly one character. -/
def Symbol.IsAtomic : Symbol → Prop
  | .wildcard => False
  | .stop => False
  | .word w => w.length ≠ 1
  | _ => True

/-- A symbol whose spelling passes the comma shorthand unchanged when it stands alone:
an integer, or a symbol whose text has no comma and is not a non-empty run of ASCII
digits. -/
def Symbol.KeepsAlone : Symbol → Prop
  | .int _ => True
  | s => ',' ∉ s.display.toList ∧ ¬ (s.display.toList ≠ [] ∧ ∀ c ∈ s.display.toList, c.isDigit = true)

namespace Proofs

/-- Reading the spelling of an atomic symbol gives the symbol back. -/
theorem toSymbol_ofSymbol (s : Symbol) (h : s.IsAtomic) : (Item.ofSymbol s).toSymbol = s := by
  cases s with
  | char c => simp [Item.ofSymbol, Item.toSymbol, Symbol.display, Symbol.ofAtom]
  | int n => rfl
  | word w =>
    simp only [Item.ofSymbol, Item.toSymbol, Symbol.display, Symbol.ofAtom]
    split
    · rename_i c hc
      have hlen : w.length = 1 := by rw [← String.length_toList, hc]; rfl
      exact absurd hlen h
    · rfl
  | wildcard => exact absurd h id
  | stop => exact absurd h id

/-- A text that is not a non-empty run of ASCII digits reads as no integer. -/
theorem parseDigits_eq_none (t : String)
    (h : ¬ (t.toList ≠ [] ∧ ∀ c ∈ t.toList, c.isDigit = true)) : Symbol.parseDigits? t = none := by
  have hcond : (t.toList.isEmpty || !t.toList.all Char.isDigit) = true := by
    by_cases he : t.toList = []
    · simp [he]
    · have hd : ¬ ∀ c ∈ t.toList, c.isDigit = true := fun hall => h ⟨he, hall⟩
      simp only [Bool.or_eq_true, Bool.not_eq_true', List.all_eq_false]
      exact Or.inr (Classical.byContradiction fun hne =>
        hd fun c hc => Classical.byContradiction fun hnd => hne ⟨c, hc, hnd⟩)
  show (if (t.toList.isEmpty || !t.toList.all Char.isDigit) = true then none else _) = none
  rw [if_pos hcond]

/-- A text without a comma that is no run of digits passes the shorthand as itself. -/
theorem splitShorthand_of_keeps (t : String) (hc : ',' ∉ t.toList)
    (hd : ¬ (t.toList ≠ [] ∧ ∀ c ∈ t.toList, c.isDigit = true)) :
    Item.splitShorthand t = [.str t] := by
  simp [Item.splitShorthand, Text.splitText_of_not_mem ',' t hc, Item.ofPart, parseDigits_eq_none t hd]

/-- The comma shorthand leaves an atom list of spellings unchanged when a lone
element keeps alone. -/
theorem normalize_items_ofSymbol (seq : List Symbol)
    (hone : seq.length = 1 → ∀ s ∈ seq, s.KeepsAlone) :
    (Input.items (seq.map Item.ofSymbol)).normalize = .items (seq.map Item.ofSymbol) := by
  match seq, hone with
  | [], _ => rfl
  | [s], hone =>
    have hs := hone rfl s List.mem_cons_self
    cases s with
    | int n => rfl
    | char c =>
      simp only [Symbol.KeepsAlone] at hs
      simp [Input.normalize, Item.ofSymbol, splitShorthand_of_keeps _ hs.1 hs.2]
    | word w =>
      simp only [Symbol.KeepsAlone] at hs
      simp [Input.normalize, Item.ofSymbol, splitShorthand_of_keeps _ hs.1 hs.2]
    | wildcard =>
      simp only [Symbol.KeepsAlone] at hs
      simp [Input.normalize, Item.ofSymbol, splitShorthand_of_keeps _ hs.1 hs.2]
    | stop =>
      simp only [Symbol.KeepsAlone] at hs
      simp [Input.normalize, Item.ofSymbol, splitShorthand_of_keeps _ hs.1 hs.2]
  | a :: _ :: _, _ =>
    simp only [List.map_cons]
    cases Item.ofSymbol a <;> rfl

/-- The atom list of the spellings of a sequence reads back as the sequence, when every
symbol is atomic and a lone symbol keeps alone. -/
theorem toSymbols_items_ofSymbol (seq : List Symbol) (hatom : ∀ s ∈ seq, s.IsAtomic)
    (hone : seq.length = 1 → ∀ s ∈ seq, s.KeepsAlone) :
    (Input.items (seq.map Item.ofSymbol)).toSymbols = seq := by
  unfold Input.toSymbols
  rw [normalize_items_ofSymbol seq hone]
  simp only [List.map_map]
  conv => rhs; rw [← List.map_id seq]
  exact List.map_congr_left fun s hs => toSymbol_ofSymbol s (hatom s hs)

/-- A mixed sequence, a word, a negative integer and a comma character, reads back from
its spellings. -/
theorem spellings_read_back_mixed :
    (∀ s ∈ [Symbol.word "hi", .int (-3), .char ','], s.IsAtomic) ∧
    ([Symbol.word "hi", .int (-3), .char ','].length = 1 →
      ∀ s ∈ [Symbol.word "hi", .int (-3), .char ','], s.KeepsAlone) ∧
    (Input.items ([Symbol.word "hi", .int (-3), .char ','].map Item.ofSymbol)).toSymbols =
      [Symbol.word "hi", .int (-3), .char ','] := by
  have h1 : ∀ s ∈ [Symbol.word "hi", .int (-3), .char ','], s.IsAtomic := by
    intro s hs
    simp only [List.mem_cons, List.not_mem_nil, or_false] at hs
    rcases hs with rfl | rfl | rfl
    · show "hi".length ≠ 1
      decide
    · trivial
    · trivial
  have h2 : [Symbol.word "hi", .int (-3), .char ','].length = 1 →
      ∀ s ∈ [Symbol.word "hi", .int (-3), .char ','], s.KeepsAlone := by
    intro h
    simp at h
  exact ⟨h1, h2, toSymbols_items_ofSymbol _ h1 h2⟩

end Proofs

end SeqPattern
