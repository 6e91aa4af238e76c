import TreebankGrammar.Text.Lines

/-!
# Decoded lines

The bytes of a file are decoded in chunks, a chunk when the lines of the chunks before it have been
taken.  So bytes that are no UTF-8 are met only by a reader that asks for a line beyond those that end
in the chunks before.  The end of a chunk may cut a character, the end of the file may not.

Main definitions:

- `isUnfinished`: bytes with which a character may begin.
- `decodeBeginning?`: the characters at the beginning of a file.
- `LineStream`: the lines that a file gives, and whether it breaks off behind them.
- `LineStream.ofBytes`: the lines of the given bytes.
-/

namespace TreebankGrammar
namespace Text

/-! ## Characters that are cut -/

/-- Whether a byte goes on with a character. -/
def isTail (b : UInt8) : Bool :=
  0x80 ≤ b && b ≤ 0xBF

/-- Whether two bytes may begin a character of more than two bytes.  A surrogate, which is no character,
is noticed at its third byte. -/
def isUnfinishedPair (first second : UInt8) : Bool :=
  0xE0 ≤ first && first ≤ 0xF4 &&
    (if first = 0xE0 then 0xA0 else if first = 0xF0 then 0x90 else 0x80) ≤ second &&
    second ≤ (if first = 0xF4 then 0x8F else 0xBF)

/-- Whether bytes may begin a character and do not end it. -/
def isUnfinished : List UInt8 → Bool
  | [] => true
  | [a] => 0xC2 ≤ a && a ≤ 0xF4
  | [a, b] => isUnfinishedPair a b
  | [a, b, c] => 0xF0 ≤ a && isUnfinishedPair a b && isTail c
  | _ => false

/-- The characters of the first bytes of a file, except one that is not finished, if more bytes may
follow them. -/
def decodeBeginning? (bytes : ByteArray) : Option String :=
  (List.range 4).findSome? fun cut =>
    let kept := bytes.size - cut
    if isUnfinished (bytes.data.toList.drop kept) then String.fromUTF8? (bytes.extract 0 kept)
    else none

/-! ## Chunks -/

/-- The number of bytes that are decoded at a time. -/
def chunkBytes : Nat :=
  8192

/-- The text of the most chunks that can be decoded, of at most so many. -/
def decodeChunks (bytes : ByteArray) : Nat → String
  | 0 => ""
  | chunks + 1 =>
    match decodeBeginning? (bytes.extract 0 ((chunks + 1) * chunkBytes)) with
    | some text => text
    | none => decodeChunks bytes chunks

/-! ## Lines -/

/-- The lines that end in a text which may go on.  A carriage return at its end may be the first half of
a line end. -/
def endedLines (s : String) : List String :=
  if s.toList.getLast? = some '\n' then lines s else (lines s).dropLast

/-- The lines that a file gives. -/
structure LineStream where
  lines : List String
  /-- What follows the lines cannot be decoded. -/
  broken : Bool := false
deriving DecidableEq

/-- The lines of the given bytes. -/
def LineStream.ofBytes (bytes : ByteArray) : LineStream :=
  match String.fromUTF8? bytes with
  | some text => { lines := Text.lines text }
  | none => { lines := endedLines (decodeChunks bytes (bytes.size / chunkBytes + 1)), broken := true }

/-- A character that is cut by the end of a file breaks off the lines only behind those before it. -/
example : LineStream.ofBytes ⟨#[0x61, 0x0A, 0x62, 0x0D, 0xC3]⟩ = ⟨["a"], true⟩ := by decide +kernel

/-- A byte that no character begins with breaks off its whole chunk. -/
example : LineStream.ofBytes ⟨#[0x61, 0x0A, 0xFF]⟩ = ⟨[], true⟩ := by decide +kernel

end Text
end TreebankGrammar
