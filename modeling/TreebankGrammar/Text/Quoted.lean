import TreebankGrammar.Text.Invisible

/-!
# Quoted text

The quoted form in which a text, a list of texts or a truth value is shown inside a
message.

Main definitions:

- `quoted`: a text between single quotes, or between double quotes when it holds a
  single quote and no double quote.
- `quotedTuple`: a list of texts, each quoted, between round brackets.
- `truthName`: the name of a truth value.
-/

namespace TreebankGrammar
namespace Text

/-- The lower-case hexadecimal digit of a number below sixteen. -/
def hexDigit (n : Nat) : Char :=
  Nat.digitChar (n % 16)

/-- The hexadecimal form of a number with the given number of digits. -/
def hexDigits : Nat → Nat → List Char
  | 0, _ => []
  | count + 1, n => hexDigits count (n / 16) ++ [hexDigit n]

/-- The escape for a code point: two, four or eight hexadecimal digits. -/
def escaped (n : Nat) : List Char :=
  if n < 0x100 then '\\' :: 'x' :: hexDigits 2 n
  else if n < 0x10000 then '\\' :: 'u' :: hexDigits 4 n
  else '\\' :: 'U' :: hexDigits 8 n

/-- The form of one character between the given quotes: the quote, the backslash and the
invisible characters are escaped, all else stands for itself. -/
def quotedChar (quote c : Char) : List Char :=
  if c = quote || c = '\\' then ['\\', c]
  else if c = '\n' then ['\\', 'n']
  else if c = '\r' then ['\\', 'r']
  else if c = '\t' then ['\\', 't']
  else if isInvisible c then escaped c.toNat
  else [c]

/-- The quote used unless the text asks for the other one. -/
def singleQuote : Char :=
  '\x27'

/-- The quote used for a text that holds a single quote and no double quote. -/
def doubleQuote : Char :=
  '\x22'

/-- The quote that goes around a text. -/
def quoteFor (cs : List Char) : Char :=
  if cs.contains singleQuote && !cs.contains doubleQuote then doubleQuote else singleQuote

/-- A text between quotes, with escapes. -/
def quoted (s : String) : String :=
  let quote := quoteFor s.toList
  String.ofList (quote :: s.toList.flatMap (quotedChar quote) ++ [quote])

/-- A list of texts between round brackets, each text quoted; a single text is followed by a comma. -/
def quotedTuple : List String → String
  | [s] => "(" ++ quoted s ++ ",)"
  | ss => "(" ++ ", ".intercalate (ss.map quoted) ++ ")"

/-- The name of a truth value. -/
def truthName (b : Bool) : String :=
  if b then "True" else "False"

example : quoted "it's" = "\"it's\"" := by decide +kernel

example : quoted "it's \"so\"\t" = "'it\\'s \"so\"\\t'" := by decide +kernel

example : quoted "\x01\u2028é" = "'\\x01\\u2028é'" := by decide +kernel

example : quotedTuple ["a"] = "('a',)" := by decide +kernel

end Text
end TreebankGrammar
