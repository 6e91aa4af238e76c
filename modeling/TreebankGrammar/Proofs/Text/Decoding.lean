import TreebankGrammar.Text.Decoding

/-!
# Decoding of files

A file that is well-formed UTF-8 gives the lines of its text, all of them.  Any other file breaks off
behind some lines, and these end in a text that the bytes of the file begin with.

Main results:

- Theorem `fromUTF8?_eq_some_iff`: which bytes are those of a text.
- Theorem `LineStream.ofBytes_toUTF8`: the lines of a text.
- Theorem `LineStream.ofBytes_cases`: the lines of any bytes.
-/

namespace TreebankGrammar
namespace Text

/-- Bytes decode to the one text that they are the bytes of. -/
theorem fromUTF8?_eq_some_iff {bytes : ByteArray} {text : String} :
    String.fromUTF8? bytes = some text ↔ text.toUTF8 = bytes := by
  constructor
  · intro h
    unfold String.fromUTF8? at h
    split at h
    · cases h
      rfl
    · cases h
  · rintro rfl
    exact dif_pos text.isValidUTF8

/-! ## Beginnings of files -/

/-- Bytes with a text in front. -/
def BeginsWith (bytes : ByteArray) (text : String) : Prop :=
  ∃ rest, text.toUTF8 ++ rest = bytes

theorem beginsWith_extract {bytes : ByteArray} {stop : Nat} {text : String}
    (h : BeginsWith (bytes.extract 0 stop) text) : BeginsWith bytes text := by
  obtain ⟨rest, hrest⟩ := h
  refine ⟨rest ++ bytes.extract stop bytes.size, ?_⟩
  rw [← ByteArray.append_assoc, hrest, ByteArray.extract_append_extract, Nat.zero_min,
    ByteArray.extract_zero_max_size]

/-- What is decoded of a beginning is in front of it. -/
theorem beginsWith_of_decodeBeginning? {bytes : ByteArray} {text : String}
    (h : decodeBeginning? bytes = some text) : BeginsWith bytes text := by
  obtain ⟨cut, -, hcut⟩ := List.exists_of_findSome?_eq_some h
  dsimp only at hcut
  split at hcut
  · rw [fromUTF8?_eq_some_iff] at hcut
    exact beginsWith_extract ⟨.empty, by rw [ByteArray.append_empty, hcut]⟩
  · cases hcut

/-- What is decoded of some chunks is in front of the file. -/
theorem beginsWith_decodeChunks (bytes : ByteArray) (chunks : Nat) :
    BeginsWith bytes (decodeChunks bytes chunks) := by
  induction chunks with
  | zero => exact ⟨bytes, ByteArray.empty_append⟩
  | succ chunks ih =>
    rw [decodeChunks]
    split
    · rename_i text hdecode
      exact beginsWith_extract (beginsWith_of_decodeBeginning? hdecode)
    · exact ih

/-! ## Lines -/

namespace LineStream

/-- The bytes of a text give its lines. -/
theorem ofBytes_toUTF8 (text : String) : ofBytes text.toUTF8 = { lines := Text.lines text } := by
  rw [ofBytes, fromUTF8?_eq_some_iff.2 rfl]

/-- Bytes that are no text break off. -/
theorem ofBytes_of_not_text {bytes : ByteArray} (h : ∀ text : String, text.toUTF8 ≠ bytes) :
    ofBytes bytes =
      { lines := endedLines (decodeChunks bytes (bytes.size / chunkBytes + 1)), broken := true } := by
  have hnone : String.fromUTF8? bytes = none :=
    Option.eq_none_iff_forall_ne_some.2 fun text htext => h text (fromUTF8?_eq_some_iff.1 htext)
  rw [ofBytes, hnone]

/-- Bytes give the lines of their text if they have one.  Otherwise the lines break off, and those before
are the ones that end in a text at the beginning of the bytes. -/
theorem ofBytes_cases (bytes : ByteArray) :
    (∃ text : String, text.toUTF8 = bytes ∧ ofBytes bytes = { lines := Text.lines text }) ∨
      (∀ text : String, text.toUTF8 ≠ bytes) ∧ ∃ text, BeginsWith bytes text ∧
        ofBytes bytes = { lines := endedLines text, broken := true } := by
  by_cases h : ∃ text : String, text.toUTF8 = bytes
  · obtain ⟨text, rfl⟩ := h
    exact .inl ⟨text, rfl, ofBytes_toUTF8 text⟩
  · rw [not_exists] at h
    exact .inr ⟨h, _, beginsWith_decodeChunks bytes _, ofBytes_of_not_text h⟩

/-- Lines that do not break off are those of a text. -/
theorem exists_text_of_not_broken {bytes : ByteArray} (h : (ofBytes bytes).broken = false) :
    ∃ text : String, text.toUTF8 = bytes ∧ ofBytes bytes = { lines := Text.lines text } := by
  rcases ofBytes_cases bytes with htext | ⟨-, text, -, hbroken⟩
  · exact htext
  · rw [hbroken] at h
    cases h

end LineStream
end Text
end TreebankGrammar
