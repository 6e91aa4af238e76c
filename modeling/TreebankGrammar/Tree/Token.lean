import TreebankGrammar.Text.Blank

/-!
# Tokens of bracketed text

A bracketed text falls apart into brackets and words: each round bracket is a token, and
so is each maximal stretch of characters that are neither blanks nor round brackets.

Main definitions:

- `Token`: an opening bracket, a closing bracket, or a word.
- `Token.ofText`: the tokens of a text, in order.
- `Token.text`: the text of a token.
-/

namespace TreebankGrammar

/-- A token of bracketed text. -/
inductive Token where
  | opening
  | closing
  | word (text : String)
deriving DecidableEq

namespace Token

/-- The text of a token. -/
def text : Token → String
  | .opening => "("
  | .closing => ")"
  | .word w => w

/-- Whether a character is a round bracket. -/
def isBracket (c : Char) : Bool :=
  c = '(' || c = ')'

/-- A text in which a blank stands on both sides of each bracket. -/
def spaceBrackets (cs : List Char) : List Char :=
  cs.flatMap fun c => if isBracket c then [' ', c, ' '] else [c]

/-- The token that a blank-free stretch of characters is. -/
def ofChars (cs : List Char) : Token :=
  if cs = ['('] then .opening
  else if cs = [')'] then .closing
  else .word (String.ofList cs)

/-- The tokens of a text, in order. -/
def ofText (s : String) : List Token :=
  (Text.splitWords (spaceBrackets s.toList)).map ofChars

/-- The texts of tokens with single blanks between them. -/
def joined (tokens : List Token) : String :=
  " ".intercalate (tokens.map text)

end Token
end TreebankGrammar
