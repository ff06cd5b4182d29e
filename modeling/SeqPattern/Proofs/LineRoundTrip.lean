import SeqPattern.Store
import SeqPattern.Proofs.AtomSpelling
/-!
# A rendered sequence read back as a store line

A sequence is shown by `Symbol.renderSeq`: characters one after the other, and any
sequence with an integer or a word comma-joined. A store reads a stream one entry per
line, trimmed: a line with a comma is split at its commas into atoms, runs of digits
becoming integers and one-character parts characters; any other line is a sequence of
characters. This file shows when the two rules invert each other: a rendered sequence
written as one line of a stream reads back as exactly one entry, the sequence itself.

The reading goes through four layers, one section each:

* bytes to lines: the UTF-8 bytes of a text without line feeds, and with a line feed
  after it, are one line, which decodes to the text (`Text.readLines_line`);
* trimming: a text with no blank at either end is its own trimmed form
  (`Text.trim_of_ends`);
* splitting: splitting a comma-joined list of parts without commas gives the parts
  back (`Text.splitText_intercalate`), and the decimal text of an integer in range reads
  as the integer (`Symbol.parseDigits_toString`);
* atoms: a symbol whose text survives the split is read back by `Item.ofPart` as its
  own atom spelling (`Symbol.CommaReadable.ofPart_display`).

The hypotheses are the shapes on which the two rules disagree: a line with a comma
but no integer or word, a single integer or word (rendered without a comma), a negative
integer, a character that is a digit or a comma among integers and words, and a word
that is one character, holds a comma, or is a run of digits.

Main statement: `Store.read_rendered_line`.
-/

namespace SeqPattern

namespace Text

/-! ## Bytes to lines -/

/-- The bytes of a byte array, read by its loop, are its data. -/
theorem byteArray_toList (bs : ByteArray) : bs.toList = bs.data.toList := by
  -- the loop conses the bytes from `i` on onto `r`, reversed
  have loop : ∀ i (r : List UInt8),
      ByteArray.toList.loop bs i r = r.reverse ++ bs.data.toList.drop i := by
    intro i r
    fun_induction ByteArray.toList.loop bs i r with
    | case1 i r hlt ih =>
      have hi : i < bs.data.toList.length := by simpa using hlt
      rw [ih, List.drop_eq_getElem_cons hi]
      simp [ByteArray.get!, hlt]
    | case2 i r hge =>
      rw [List.drop_eq_nil_of_le (by simpa using Nat.le_of_not_lt hge)]
      simp
  unfold ByteArray.toList
  simpa using loop 0 []

/-- A byte below `128` in the encoding of a character is the whole character. -/
theorem toNat_eq_of_mem_utf8EncodeChar {c : Char} {b : UInt8}
    (hb : b ∈ String.utf8EncodeChar c) (hlt : b.toNat < 128) : c.toNat = b.toNat := by
  -- every byte of a longer encoding has its top bit set
  unfold String.utf8EncodeChar at hb
  simp only at hb
  by_cases h₁ : c.val.toNat ≤ 127
  · rw [if_pos h₁, List.mem_singleton] at hb
    subst hb
    simp only [UInt8.toNat_ofNat'] at hlt ⊢
    simp only [Char.toNat]
    omega
  rw [if_neg h₁] at hb
  by_cases h₂ : c.val.toNat ≤ 2047
  · rw [if_pos h₂] at hb
    simp only [List.mem_cons, List.not_mem_nil, or_false] at hb
    rcases hb with rfl | rfl <;> simp only [UInt8.toNat_ofNat'] at hlt <;> omega
  rw [if_neg h₂] at hb
  by_cases h₃ : c.val.toNat ≤ 65535
  · rw [if_pos h₃] at hb
    simp only [List.mem_cons, List.not_mem_nil, or_false] at hb
    rcases hb with rfl | rfl | rfl <;> simp only [UInt8.toNat_ofNat'] at hlt <;> omega
  · rw [if_neg h₃] at hb
    simp only [List.mem_cons, List.not_mem_nil, or_false] at hb
    rcases hb with rfl | rfl | rfl | rfl <;> simp only [UInt8.toNat_ofNat'] at hlt <;> omega

/-- An ASCII byte of the encoding of a text is the byte of one of its characters. -/
theorem exists_char_of_mem_bytes {s : String} {b : UInt8} (hb : b ∈ s.toByteArray.data.toList)
    (hlt : b.toNat < 128) : ∃ c ∈ s.toList, c.toNat = b.toNat := by
  rw [← String.utf8Encode_toList, List.utf8Encode, List.toList_data_toByteArray,
    List.mem_flatMap] at hb
  obtain ⟨c, hc, hbc⟩ := hb
  exact ⟨c, hc, toNat_eq_of_mem_utf8EncodeChar hbc hlt⟩

/-- The byte of an ASCII character is in the encoding of a text only when the
character is in the text. -/
theorem byte_not_mem {s : String} {c : Char} {b : UInt8} (hc : c ∉ s.toList)
    (hb : b.toNat = c.toNat) (hlt : b.toNat < 128) : b ∉ s.toByteArray.data.toList := by
  intro hmem
  obtain ⟨d, hd, hdb⟩ := exists_char_of_mem_bytes hmem hlt
  rw [hb, Char.toNat_inj] at hdb
  exact hc (hdb ▸ hd)

/-- Bytes without a line feed and then a line feed are one line, after the bytes of
the current line so far. -/
theorem splitLinesGo_line {bs cur : List UInt8} {acc : List (List UInt8)}
    (h : lineFeed ∉ bs) :
    splitLinesGo (bs ++ [lineFeed]) cur acc = (dropReturn (cur.reverse ++ bs) :: acc).reverse := by
  induction bs generalizing cur with
  | nil => simp [splitLinesGo]
  | cons b bs ih =>
    have hb : b ≠ lineFeed := fun e => h (e ▸ List.mem_cons_self)
    rw [List.cons_append, splitLinesGo, if_neg hb, ih (fun m => h (List.mem_cons_of_mem _ m))]
    simp

/-- **One line.** A text without line feeds or carriage returns, written with a line
feed after it, is read as that text alone. -/
theorem readLines_line (s : String) (hlf : '\n' ∉ s.toList) (hcr : '\r' ∉ s.toList) :
    readLines (s ++ "\n").toUTF8 = ([s], false) := by
  have hbytes : (s ++ "\n").toUTF8.toList = s.toByteArray.data.toList ++ [lineFeed] := by
    rw [byteArray_toList, String.toUTF8_eq_toByteArray, String.toByteArray_append,
      ByteArray.data_append, Array.toList_append]
    rfl
  have hdrop : dropReturn s.toByteArray.data.toList = s.toByteArray.data.toList := by
    unfold dropReturn
    rw [if_neg]
    intro hlast
    exact byte_not_mem hcr rfl (by decide) (List.mem_of_getLast? hlast)
  have hdecode : decodeLine s.toByteArray.data.toList = some s := by
    unfold decodeLine
    rw [Array.toArray_toList, String.fromUTF8?, dif_pos s.isValidUTF8]
    rfl
  unfold readLines
  rw [hbytes, splitLines, splitLinesGo_line (byte_not_mem hlf rfl (by decide))]
  simp [hdrop, readLines.go, hdecode]

/-! ## Trimming -/

/-- Dropping the leading characters of a class keeps a list whose head is not in it. -/
theorem dropWhile_of_head {p : Char → Bool} {cs : List Char} (h : ∀ c ∈ cs.head?, p c = false) :
    cs.dropWhile p = cs := by
  cases cs with
  | nil => rfl
  | cons c cs => exact List.dropWhile_cons_of_neg (by simpa using h)

/-- A text with no blank at either end is its own trimmed form. -/
theorem trim_of_ends {s : String} (hhead : ∀ c ∈ s.toList.head?, isBlank c = false)
    (hlast : ∀ c ∈ s.toList.getLast?, isBlank c = false) : trim s = s := by
  rw [trim, trimChars, dropWhile_of_head hhead, dropWhile_of_head (by simpa using hlast),
    List.reverse_reverse, String.ofList_toList]

/-! ## Splitting at a separator -/

/-- The splitting loop is the library's split of a list at a separator, after the parts
it has finished. -/
theorem splitGo_eq (sep : Char) (cs cur : List Char) (acc : List (List Char)) :
    splitGo sep cs cur acc = acc.reverse ++ List.splitOnPPrepend (· == sep) cs cur := by
  induction cs generalizing cur acc with
  | nil => simp [splitGo]
  | cons c cs ih =>
    rw [List.splitOnPPrepend_cons_eq_if]
    by_cases hc : c = sep
    · simp [splitGo, hc, ih]
    · simp [splitGo, hc, ih]

/-- **Splitting undoes joining.** Joining parts without the separator by it, and
splitting at it, gives the parts back. -/
theorem splitText_intercalate {sep : Char} {parts : List String} (hne : parts ≠ [])
    (hsep : ∀ p ∈ parts, sep ∉ p.toList) :
    splitText sep ((String.singleton sep).intercalate parts) = parts := by
  have hsplit : splitChars sep ((String.singleton sep).intercalate parts).toList =
      parts.map String.toList := by
    rw [splitChars, splitGo_eq, String.toList_intercalate, String.toList_singleton]
    simp only [List.reverse_nil, List.nil_append, List.splitOnPPrepend_nil_right]
    exact List.splitOn_intercalate sep (by simpa using hsep) (by simpa using hne)
  rw [splitText, hsplit, List.map_map]
  simp

end Text

namespace Symbol

/-! ## Digits -/

/-- The digit reader is the library's reading of decimal digit characters. -/
theorem digitsValue_eq (ds : List Char) : digitsValue ds = Nat.ofDigitChars 10 ds 0 := by
  unfold digitsValue Nat.ofDigitChars
  congr 1
  funext acc d
  rw [Nat.mul_comm]

/-- The text of an integer that is not negative is its decimal digits, with no sign. -/
theorem toList_toString_of_nonneg {n : Int} (h0 : 0 ≤ n) :
    (toString n).toList = Nat.toDigits 10 n.toNat := by
  rw [Int.toString_eq_repr, Int.repr_eq_if, if_pos h0, Nat.toList_repr]

/-- The decimal text of an integer of the alphabet that is not negative reads back as
the integer. -/
theorem parseDigits_toString {n : Int} (h0 : 0 ≤ n) (hmax : n ≤ intMax) :
    parseDigits? (toString n) = some n := by
  have htext := toList_toString_of_nonneg h0
  have hdigits : (Nat.toDigits 10 n.toNat).isEmpty = false ∧
      (Nat.toDigits 10 n.toNat).all Char.isDigit = true := by
    refine ⟨by simp [Nat.toDigits_ne_nil], List.all_eq_true.2 fun c hc => ?_⟩
    exact Nat.isDigit_of_mem_toDigits (by decide) (by decide) hc
  unfold parseDigits?
  simp only [htext, hdigits, Bool.not_true, Bool.or_false, Bool.false_eq_true, if_false,
    digitsValue_eq, Nat.ofDigitChars_ten_toDigits, Int.toNat_of_nonneg h0]
  rw [if_pos hmax]

/-! ## Atoms of a comma-joined line -/

/-- A symbol whose text, as one part of a comma-joined line, reads back as the symbol: an
integer that is not negative (and in the range of the alphabet), a character that is
neither an ASCII digit nor a comma, or a word without a comma that is neither a run of
ASCII digits nor one character long. -/
def CommaReadable : Symbol → Prop
  | .char c => c.isDigit = false ∧ c ≠ ','
  | .int n => 0 ≤ n ∧ n ≤ intMax
  | .word w => ',' ∉ w.toList ∧ ¬ (w.toList ≠ [] ∧ ∀ c ∈ w.toList, c.isDigit = true) ∧ w.length ≠ 1
  | .wildcard => False
  | .stop => False

instance : DecidablePred CommaReadable
  | .char _ => inferInstanceAs (Decidable (_ ∧ _))
  | .int _ => inferInstanceAs (Decidable (_ ∧ _))
  | .word _ => inferInstanceAs (Decidable (_ ∧ _))
  | .wildcard => inferInstanceAs (Decidable False)
  | .stop => inferInstanceAs (Decidable False)

namespace CommaReadable

variable {s : Symbol}

/-- Reading the spelling of a readable symbol as an atom gives the symbol back. -/
theorem isAtomic (h : s.CommaReadable) : s.IsAtomic := by
  cases s with
  | char c => trivial
  | int n => trivial
  | word w => exact h.2.2
  | wildcard => exact absurd h id
  | stop => exact absurd h id

/-- The text of a readable symbol has no comma. -/
theorem comma_not_mem (h : s.CommaReadable) : ',' ∉ s.display.toList := by
  cases s with
  | char c => simpa [display] using h.2.symm
  | int n =>
    -- the decimal digits of an integer that is not negative
    rw [display, toList_toString_of_nonneg h.1]
    intro hc
    have := Nat.isDigit_of_mem_toDigits (by decide) (by decide) hc
    exact absurd this (by decide)
  | word w => exact h.1
  | wildcard => exact absurd h id
  | stop => exact absurd h id

/-- A part that is the text of a readable symbol is read as the symbol's atom
spelling. -/
theorem ofPart_display (h : s.CommaReadable) : Item.ofPart s.display = Item.ofSymbol s := by
  cases s with
  | char c =>
    have hnot : ¬ ((String.singleton c).toList ≠ [] ∧
        ∀ d ∈ (String.singleton c).toList, d.isDigit = true) := by
      simp [h.1]
    simp [Item.ofPart, display, Item.ofSymbol, Proofs.parseDigits_eq_none _ hnot]
  | int n =>
    simp only [Item.ofPart, display, Item.ofSymbol]
    rw [parseDigits_toString h.1 h.2]
  | word w => simp [Item.ofPart, display, Item.ofSymbol, Proofs.parseDigits_eq_none _ h.2.1]
  | wildcard => exact absurd h id
  | stop => exact absurd h id

end CommaReadable

end Symbol

namespace Store

/-! ## A rendered sequence as a line of a store -/

/-- A sequence of which every symbol is a character is a list of characters. -/
theorem exists_chars {seq : List Symbol} (h : ∀ s ∈ seq, ∃ c, s = .char c) :
    ∃ cs : List Char, seq = cs.map .char := by
  induction seq with
  | nil => exact ⟨[], rfl⟩
  | cons s seq ih =>
    obtain ⟨c, rfl⟩ := h s List.mem_cons_self
    obtain ⟨cs, rfl⟩ := ih fun t ht => h t (List.mem_cons_of_mem _ ht)
    exact ⟨c :: cs, rfl⟩

/-- Joining one-character lists with nothing between them gives the characters. -/
theorem intercalate_nil_singletons (cs : List Char) :
    ([] : List Char).intercalate (cs.map fun c => [c]) = cs := by
  induction cs with
  | nil => rfl
  | cons c cs ih =>
    cases cs with
    | nil => rfl
    | cons d cs =>
      rw [List.map_cons] at ih
      rw [List.map_cons, List.map_cons, List.intercalate_cons_cons, ih]
      rfl

/-- A sequence of characters renders as the characters, one after the other. -/
theorem renderSeq_chars (cs : List Char) : Symbol.renderSeq (cs.map .char) = String.ofList cs := by
  have hall : (cs.map Symbol.char).all Symbol.isCharLike = true := by
    refine List.all_eq_true.2 fun s hs => ?_
    obtain ⟨c, _, rfl⟩ := List.mem_map.1 hs
    rfl
  have hparts : (String.toList ∘ Symbol.display ∘ Symbol.char) = fun c => [c] := by
    funext c
    simp [Symbol.display]
  rw [← String.toList_inj, String.toList_ofList]
  simp only [Symbol.renderSeq, hall, if_true, String.toList_intercalate, List.map_map, hparts]
  exact intercalate_nil_singletons cs

/-- A sequence with a symbol that is neither a character nor reserved renders
comma-joined. -/
theorem renderSeq_of_not_chars {seq : List Symbol}
    (hreserved : ∀ s ∈ seq, s ≠ .wildcard ∧ s ≠ .stop) (h : ¬ ∀ s ∈ seq, ∃ c, s = .char c) :
    Symbol.renderSeq seq = ",".intercalate (seq.map Symbol.display) := by
  have hall : seq.all Symbol.isCharLike = false := by
    simp only [Classical.not_forall, not_exists] at h
    obtain ⟨s, hs, hnc⟩ := h
    rw [List.all_eq_false]
    refine ⟨s, hs, ?_⟩
    cases s with
    | char c => exact absurd rfl (hnc c)
    | int n => exact Bool.false_ne_true
    | word w => exact Bool.false_ne_true
    | wildcard => exact absurd rfl (hreserved _ hs).1
    | stop => exact absurd rfl (hreserved _ hs).2
  simp [Symbol.renderSeq, hall]

/-- A line of characters without a comma, and with no blank at either end, is read as
its characters. -/
theorem lineEntry_chars {cs : List Char} (hne : cs ≠ []) (hcomma : ',' ∉ cs)
    (hhead : ∀ c ∈ cs.head?, Text.isBlank c = false)
    (hlast : ∀ c ∈ cs.getLast?, Text.isBlank c = false) :
    lineEntry (String.ofList cs) = some (cs.map .char) := by
  have htrim : Text.trim (String.ofList cs) = String.ofList cs :=
    Text.trim_of_ends (by simpa using hhead) (by simpa using hlast)
  simp [lineEntry, htrim, hcomma, hne]

/-- A comma-joined line of at least two readable symbols, with no blank at either end,
is read as the symbols. -/
theorem lineEntry_commas {seq : List Symbol} (hlen : 2 ≤ seq.length)
    (hread : ∀ s ∈ seq, s.CommaReadable)
    (hhead : ∀ c ∈ (",".intercalate (seq.map Symbol.display)).toList.head?, Text.isBlank c = false)
    (hlast : ∀ c ∈ (",".intercalate (seq.map Symbol.display)).toList.getLast?,
      Text.isBlank c = false) :
    lineEntry (",".intercalate (seq.map Symbol.display)) = some seq := by
  obtain ⟨a, b, rest, rfl⟩ : ∃ a b rest, seq = a :: b :: rest := by
    rcases seq with _ | ⟨a, _ | ⟨b, rest⟩⟩
    · simp at hlen
    · simp at hlen
    · exact ⟨a, b, rest, rfl⟩
  have htrim := Text.trim_of_ends hhead hlast
  -- the line has a comma, between its first two parts
  have hcomma : (",".intercalate ((a :: b :: rest).map Symbol.display)).toList.contains ',' = true := by
    simp
  -- splitting gives the parts, and each part is read as its symbol's spelling
  have hsplit : Item.splitShorthand (",".intercalate ((a :: b :: rest).map Symbol.display)) =
      (a :: b :: rest).map Item.ofSymbol := by
    rw [Item.splitShorthand, show "," = String.singleton ',' from rfl,
      Text.splitText_intercalate (by simp), List.map_map]
    · exact List.map_congr_left fun s hs => (hread s hs).ofPart_display
    · intro p hp
      obtain ⟨s, hs, rfl⟩ := List.mem_map.1 hp
      exact (hread s hs).comma_not_mem
  -- a list of at least two atoms is no shorthand, and each atom reads back
  have hsyms : Input.toSymbols (.items ((a :: b :: rest).map Item.ofSymbol)) = a :: b :: rest := by
    unfold Input.toSymbols
    rw [Proofs.normalize_items_ofSymbol _ (fun h => by simp at h)]
    simp only [List.map_map]
    conv => rhs; rw [← List.map_id (a :: b :: rest)]
    exact List.map_congr_left fun s hs => Proofs.toSymbol_ofSymbol s (hread s hs).isAtomic
  have hne : (",".intercalate ((a :: b :: rest).map Symbol.display)).isEmpty = false := by
    simp
  simp only [lineEntry, htrim, hne, hcomma, Bool.false_eq_true, if_false, if_true, hsplit, hsyms]

/-- **A rendered sequence reads back as one store line.** Let a sequence be non-empty,
without the wildcard or the terminator, and let its rendering have no line feed or
carriage return and no blank at either end. If every symbol is a character, let none be
a comma; otherwise let the sequence have at least two symbols, each readable in a
comma-joined line. Then a stream holding the rendering and a line feed is read as a
store of exactly one entry, the sequence. -/
theorem read_rendered_line (seq : List Symbol) (hne : seq ≠ [])
    (hreserved : ∀ s ∈ seq, s ≠ .wildcard ∧ s ≠ .stop)
    (hlf : '\n' ∉ (Symbol.renderSeq seq).toList) (hcr : '\r' ∉ (Symbol.renderSeq seq).toList)
    (hhead : ∀ c ∈ (Symbol.renderSeq seq).toList.head?, Text.isBlank c = false)
    (hlast : ∀ c ∈ (Symbol.renderSeq seq).toList.getLast?, Text.isBlank c = false)
    (hchars : (∀ s ∈ seq, ∃ c, s = .char c) → ∀ c, Symbol.char c ∈ seq → c ≠ ',')
    (hmixed : ¬ (∀ s ∈ seq, ∃ c, s = .char c) → 2 ≤ seq.length ∧ ∀ s ∈ seq, s.CommaReadable) :
    read (Symbol.renderSeq seq ++ "\n").toUTF8 = .ok ⟨[seq], .stop⟩ := by
  have hentry : lineEntry (Symbol.renderSeq seq) = some seq := by
    by_cases hall : ∀ s ∈ seq, ∃ c, s = .char c
    · -- characters are written one after the other, and read back one by one
      obtain ⟨cs, rfl⟩ := exists_chars hall
      rw [renderSeq_chars, String.toList_ofList] at hhead hlast
      rw [renderSeq_chars]
      have hcomma : ',' ∉ cs := fun hc => hchars hall ',' (List.mem_map_of_mem hc) rfl
      exact lineEntry_chars (by simpa using hne) hcomma hhead hlast
    · -- anything else is comma-joined, and split back at the commas
      obtain ⟨hlen, hread⟩ := hmixed hall
      rw [renderSeq_of_not_chars hreserved hall] at hhead hlast ⊢
      exact lineEntry_commas hlen hread hhead hlast
  rw [read, Text.readLines_line _ hlf hcr]
  simp [ofLines, hentry]

/-- A word, an integer and a character outside ASCII, written as a line, read back as
one entry. -/
theorem read_rendered_line_mixed :
    read (Symbol.renderSeq [.word "hi", .int 42, .char 'é'] ++ "\n").toUTF8 =
      .ok ⟨[[.word "hi", .int 42, .char 'é']], .stop⟩ := by
  have hline : (Symbol.renderSeq [.word "hi", .int 42, .char 'é']).toList =
      ['h', 'i', ',', '4', '2', ',', 'é'] := by decide
  have hword : "hi".toList = ['h', 'i'] := by decide
  have hread : ∀ s ∈ [Symbol.word "hi", .int 42, .char 'é'], s.CommaReadable := by
    intro s hs
    simp only [List.mem_cons, List.not_mem_nil, or_false] at hs
    rcases hs with rfl | rfl | rfl
    · -- the word is not a run of digits since 'h' is not a digit
      refine ⟨by rw [hword]; decide, fun h => absurd (h.2 'h' ?_) (by decide), ?_⟩
      · rw [hword]
        exact List.mem_cons_self
      · rw [← String.length_toList, hword]
        decide
    · exact ⟨by decide, by decide⟩
    · exact ⟨by decide, by decide⟩
  refine read_rendered_line _ (by simp) (by decide) (by rw [hline]; decide) (by rw [hline]; decide)
    ?_ ?_ ?_ (fun _ => ⟨by decide, hread⟩)
  · rw [hline]
    simp only [List.head?_cons, Option.mem_def, Option.some.injEq, forall_eq']
    decide
  · rw [hline]
    simp only [List.getLast?_cons_cons, List.getLast?_singleton, Option.mem_def, Option.some.injEq,
      forall_eq']
    decide
  · intro hall
    obtain ⟨c, hc⟩ := hall _ List.mem_cons_self
    exact absurd hc (by simp)

end Store

end SeqPattern
