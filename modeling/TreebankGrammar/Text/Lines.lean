/-!
# Lines

A text file is a sequence of lines.  A line ends at a line feed, at a carriage
return, or at a carriage return directly followed by a line feed, and at no other
character.  The last line may lack its end.

Main definitions:

- `splitLines` and `lines`: the lines of a text, without their ends.
-/

namespace TreebankGrammar
namespace Text

/-- Characters read from the right: the lines after the one that has just been entered, and
whether the leftmost character so far is a line feed.  The entered line is absent
while nothing has been read after the last line end. -/
structure LineCut where
  current : Option (List Char)
  later : List (List Char)
  atFeed : Bool

/-- All lines of a cut. -/
def LineCut.all (cut : LineCut) : List (List Char) :=
  cut.current.toList ++ cut.later

/-- Reads one more character on the left.  A line feed or a carriage return ends the line on its
left, but a carriage return before a line feed belongs to the same line end. -/
def LineCut.push (c : Char) (cut : LineCut) : LineCut :=
  if c = '\n' then ⟨some [], cut.all, true⟩
  else if c = '\r' then
    if cut.atFeed then { cut with atFeed := false } else ⟨some [], cut.all, false⟩
  else ⟨some (c :: cut.current.getD []), cut.later, false⟩

/-- The lines of a list of characters, without their ends. -/
def splitLines (cs : List Char) : List (List Char) :=
  (cs.foldr LineCut.push ⟨none, [], false⟩).all

/-- The lines of a text, without their ends. -/
def lines (s : String) : List String :=
  (splitLines s.toList).map String.ofList

@[simp]
theorem splitLines_nil : splitLines [] = [] :=
  rfl

/-- A text that ends its last line has no empty line after it. -/
example : lines "a\r\n\rb\n" = ["a", "", "b"] := by decide +kernel

/-- The last line may lack its end. -/
example : lines "\na" = ["", "a"] := by decide +kernel

end Text
end TreebankGrammar
