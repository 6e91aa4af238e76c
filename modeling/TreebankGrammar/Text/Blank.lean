/-!
# Blank characters

Which characters separate words, how the blanks around a text are trimmed, and
how a text falls apart into its words.

Main definitions:

- `isBlank`: the 29 characters that count as blank.
- `trim` and `strip`: a text without the blanks at its two ends.
- `splitWords` and `words`: the maximal blank-free stretches of a text, in order.
-/

namespace TreebankGrammar
namespace Text

/-! ## The class of blank characters -/

/-- The code points of the blank characters, as closed intervals in increasing order. -/
def blankRanges : List (Nat × Nat) :=
  [(0x09, 0x0D), (0x1C, 0x20), (0x85, 0x85), (0xA0, 0xA0), (0x1680, 0x1680), (0x2000, 0x200A),
    (0x2028, 0x2029), (0x202F, 0x202F), (0x205F, 0x205F), (0x3000, 0x3000)]

/-- A character is blank when its code point lies in one of the blank intervals. -/
def isBlank (c : Char) : Bool :=
  blankRanges.any fun (low, high) => low ≤ c.toNat && c.toNat ≤ high

/-! ## Trimming -/

/-- A list of characters without its leading and trailing blanks. -/
def trim (cs : List Char) : List Char :=
  ((cs.dropWhile isBlank).reverse.dropWhile isBlank).reverse

/-- A text without its leading and trailing blanks. -/
def strip (s : String) : String :=
  String.ofList (trim s.toList)

/-! ## Words -/

/-- Characters read from the right: the word that has just been entered, and the words after it. -/
structure WordCut where
  current : List Char
  later : List (List Char)

/-- All words of a cut, the entered one first when it has a character. -/
def WordCut.all (cut : WordCut) : List (List Char) :=
  if cut.current.isEmpty then cut.later else cut.current :: cut.later

/-- Reads one more character on the left: a blank ends the entered word. -/
def WordCut.push (c : Char) (cut : WordCut) : WordCut :=
  if isBlank c then ⟨[], cut.all⟩ else ⟨c :: cut.current, cut.later⟩

/-- The maximal stretches of non-blank characters, in order. -/
def splitWords (cs : List Char) : List (List Char) :=
  (cs.foldr WordCut.push ⟨[], []⟩).all

/-- The words of a text, in order. -/
def words (s : String) : List String :=
  (splitWords s.toList).map String.ofList

@[simp]
theorem splitWords_nil : splitWords [] = [] :=
  rfl

/-- A leading blank does not change the words. -/
@[simp]
theorem splitWords_cons_blank {c : Char} (h : isBlank c = true) (cs : List Char) :
    splitWords (c :: cs) = splitWords cs := by
  simp [splitWords, WordCut.push, WordCut.all, h]

end Text
end TreebankGrammar
