/-!
# Splitting at a separator

A text splits at every occurrence of a separator character into the parts between
them, in order. Empty parts are kept, so a text with `k` separators has `k + 1`
parts, and a text without the separator is its own single part.
-/

namespace SeqPattern.Text

/-- Splits the characters `cs` at `sep`, with the current part so far in `cur`, last
first, and the finished parts in `acc`, last first. -/
def splitGo (sep : Char) : List Char → List Char → List (List Char) → List (List Char)
  | [], cur, acc => (cur.reverse :: acc).reverse
  | c :: cs, cur, acc =>
    if c = sep then splitGo sep cs [] (cur.reverse :: acc) else splitGo sep cs (c :: cur) acc

/-- The parts of a character list between the separators. -/
def splitChars (sep : Char) (cs : List Char) : List (List Char) := splitGo sep cs [] []

/-- The parts of a text between the separators. -/
def splitText (sep : Char) (s : String) : List String := (splitChars sep s.toList).map String.ofList

theorem splitGo_of_not_mem (sep : Char) (cs cur : List Char) (acc : List (List Char))
    (h : sep ∉ cs) : splitGo sep cs cur acc = ((cur.reverse ++ cs) :: acc).reverse := by
  induction cs generalizing cur with
  | nil => simp [splitGo]
  | cons c cs ih =>
    have hc : c ≠ sep := fun e => h (e ▸ List.mem_cons_self)
    have hcs : sep ∉ cs := fun m => h (List.mem_cons_of_mem c m)
    simp [splitGo, hc, ih _ hcs]

/-- A text without the separator is its own single part. -/
@[simp] theorem splitText_of_not_mem (sep : Char) (s : String) (h : sep ∉ s.toList) :
    splitText sep s = [s] := by
  simp [splitText, splitChars, splitGo_of_not_mem sep _ [] [] h]

end SeqPattern.Text
