import TreebankGrammar.Directory
import TreebankGrammar.Proofs.Table
import TreebankGrammar.Proofs.Text.Decoding

/-!
# Reading what has been written

A text that has been written to a file is the text of this file, and the files that other names lead
to stay as they are.

Main results:

- Theorem `Directory.writeBytes_eq_ok_iff`: which names can be written, and what a write does.
- Theorem `Directory.readLines_of_readText`: the lines of a file are those of its text.
- Theorem `Directory.exists_write_iff`: whether a text can be written depends on the name.
- Theorem `Directory.readText_write`: a text is read as it was written.
- Theorem `Directory.readText_write_of_ne` and `Directory.get?_files_write_of_ne`: a write changes no
  other file.
-/

namespace TreebankGrammar
namespace Directory

/-- Bytes can be written under the names of entries of the directory itself that are not too long;
they become the value of this entry. -/
theorem writeBytes_eq_ok_iff {d d' : Directory} {name : String} {bytes : ByteArray} :
    d.writeBytes name bytes = .ok d' ↔
      ∃ part, Place.find name = .ok (.entry true part .nothing) ∧
        part.utf8ByteSize ≤ maxEntryBytes ∧ d' = { files := d.files.insert part bytes } := by
  constructor
  · intro h
    unfold writeBytes at h
    split at h
    · cases h
    · cases h
    · rename_i inside part ending hfind
      unfold writeEntry at h
      split at h
      · cases h
      · split at h
        · cases h
        · rename_i hlong
          cases h
          exact ⟨part, hfind, Nat.le_of_not_lt hlong, rfl⟩
      · cases h
  · rintro ⟨part, hfind, hlong, rfl⟩
    rw [writeBytes, hfind]
    simp [writeEntry, Nat.not_lt.2 hlong]

/-- The bytes of an entry of the directory itself. -/
theorem read_of_find {d : Directory} {name part : String} {bytes : ByteArray}
    (hfind : Place.find name = .ok (.entry true part .nothing))
    (hbytes : d.files.get? part = some bytes) : d.read name = .ok bytes := by
  have hentry : d.entry? true part = some bytes := hbytes
  rw [read, hfind]
  simp [readEntry, hentry]

/-- A name under which bytes can be read leads to an entry of the directory itself. -/
theorem exists_find_of_read {d : Directory} {name : String} {bytes : ByteArray}
    (h : d.read name = .ok bytes) :
    ∃ part, Place.find name = .ok (.entry true part .nothing) ∧ d.files.get? part = some bytes := by
  unfold read at h
  split at h
  · cases h
  · cases h
  · rename_i inside part ending hfind
    unfold readEntry at h
    split at h
    · rename_i hentry
      cases h
      cases inside with
      | false => cases hentry
      | true => exact ⟨part, hfind, hentry⟩
    · cases h

/-- The text of a file whose bytes are those of a text. -/
theorem readText_of_read {d : Directory} {name text : String} (h : d.read name = .ok text.toUTF8) :
    d.readText name = .ok text := by
  have hdecode : String.fromUTF8? text.toUTF8 = some text := Text.fromUTF8?_eq_some_iff.2 rfl
  rw [readText, h]
  simp only [hdecode]

/-- A file with a text has the bytes of this text. -/
theorem read_of_readText {d : Directory} {name text : String} (h : d.readText name = .ok text) :
    d.read name = .ok text.toUTF8 := by
  unfold readText at h
  split at h
  · cases h
  · rename_i bytes hread
    split at h
    · rename_i decoded hdecode
      cases h
      rw [hread, Text.fromUTF8?_eq_some_iff.1 hdecode]
    · cases h

/-- The lines of a file with a text are those of this text. -/
theorem readLines_of_readText {d : Directory} {name text : String} (h : d.readText name = .ok text) :
    d.readLines name = .ok { lines := Text.lines text } := by
  rw [readLines, read_of_readText h]
  simp only [Text.LineStream.ofBytes_toUTF8]

/-- A file that can be opened has a text, or its lines break off. -/
theorem exists_readText_of_readLines {d : Directory} {name : String} {stream : Text.LineStream}
    (h : d.readLines name = .ok stream) (hwhole : stream.broken = false) :
    ∃ text, d.readText name = .ok text ∧ stream = { lines := Text.lines text } := by
  unfold readLines at h
  split at h
  · cases h
  · rename_i bytes hread
    cases h
    obtain ⟨text, rfl, hlines⟩ := Text.LineStream.exists_text_of_not_broken hwhole
    exact ⟨text, readText_of_read hread, hlines⟩

/-- A name is refused because of the null character only if it contains it. -/
theorem nullCharacter_mem_of_find {name : String}
    (h : Place.find name = .error .nullCharacter) : '\x00' ∈ name.toList := by
  unfold Place.find at h
  split at h
  · rename_i hcontains
    simpa using hcontains
  · split at h
    · cases h
    · split at h
      · cases h
      · cases h

/-- A file cannot be opened because of the null character only if its name contains it. -/
theorem nullCharacter_mem_of_readLines {d : Directory} {name : String}
    (h : d.readLines name = .error .nullCharacter) : '\x00' ∈ name.toList := by
  have hread : d.read name = .error .nullCharacter := by
    unfold readLines at h
    split at h
    · rename_i e he
      rw [he, Except.error.inj h]
    · cases h
  unfold read at hread
  split at hread
  · rename_i e hfind
    rw [Except.error.inj hread] at hfind
    exact nullCharacter_mem_of_find hfind
  · cases hread
  · rename_i inside part ending _
    unfold readEntry obstacle at hread
    split at hread
    · cases hread
    · split at hread
      · cases hread
      · split at hread
        · cases hread
        · cases hread

/-- A name under which a file of a directory can be written. -/
def IsFileName (name : String) : Prop :=
  ∃ part, Place.find name = .ok (.entry true part .nothing) ∧ part.utf8ByteSize ≤ maxEntryBytes

/-- Whether a text can be written depends on the name alone. -/
theorem exists_write_iff {d : Directory} {name text : String} :
    (∃ d', d.write name text = .ok d') ↔ IsFileName name := by
  constructor
  · rintro ⟨d', h⟩
    obtain ⟨part, hfind, hlong, -⟩ := writeBytes_eq_ok_iff.1 h
    exact ⟨part, hfind, hlong⟩
  · rintro ⟨part, hfind, hlong⟩
    exact ⟨_, writeBytes_eq_ok_iff.2 ⟨part, hfind, hlong, rfl⟩⟩

/-- Names that lead to the same place have the same text. -/
theorem readText_congr {d : Directory} {name other text : String}
    (hplace : Place.find name = Place.find other) (h : d.readText name = .ok text) :
    d.readText other = .ok text := by
  cases hbytes : d.read name with
  | error e =>
    rw [readText, hbytes] at h
    cases h
  | ok bytes =>
    obtain ⟨part, hfind, hget⟩ := exists_find_of_read hbytes
    rw [readText, hbytes] at h
    rw [readText, read_of_find (hplace.symm.trans hfind) hget]
    exact h

/-- A text is read as it was written. -/
theorem readText_write {d d' : Directory} {name text : String} (h : d.write name text = .ok d') :
    d'.readText name = .ok text := by
  obtain ⟨part, hfind, -, rfl⟩ := writeBytes_eq_ok_iff.1 h
  refine readText_of_read (read_of_find hfind ?_)
  rw [Table.get?_insert, if_pos rfl]

/-- A write changes no file that a name with another place leads to. -/
theorem readText_write_of_ne {d d' : Directory} {name other text old : String}
    (h : d.write name text = .ok d') (hne : Place.find other ≠ Place.find name)
    (hread : d.readText other = .ok old) : d'.readText other = .ok old := by
  obtain ⟨part, hfind, -, rfl⟩ := writeBytes_eq_ok_iff.1 h
  cases hbytes : d.read other with
  | error e =>
    rw [readText, hbytes] at hread
    cases hread
  | ok bytes =>
    obtain ⟨part', hfind', hget⟩ := exists_find_of_read hbytes
    have hpart : part' ≠ part := by
      rintro rfl
      exact hne (hfind'.trans hfind.symm)
    have hkept : ({ files := d.files.insert part text.toUTF8 } : Directory).read other = .ok bytes := by
      refine read_of_find hfind' ?_
      rw [Table.get?_insert, if_neg hpart, hget]
    rw [readText, hbytes] at hread
    rw [readText, hkept]
    exact hread

/-- A write changes the bytes of no entry but the one that its name leads to. -/
theorem get?_files_write_of_ne {d d' : Directory} {name text part : String}
    (h : d.write name text = .ok d') (hne : Place.find name ≠ .ok (.entry true part .nothing)) :
    d'.files.get? part = d.files.get? part := by
  obtain ⟨written, hfind, -, rfl⟩ := writeBytes_eq_ok_iff.1 h
  have hpart : part ≠ written := by
    rintro rfl
    exact hne hfind
  rw [Table.get?_insert, if_neg hpart]

end Directory
end TreebankGrammar
