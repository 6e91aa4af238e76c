import TreebankGrammar.Proofs.Treebank.Writing

/-!
# Treebanks are counted as a whole or not at all

Counting a list of trees stops at the first tree that cannot be counted and keeps what has been
counted before.  The wanted trees of a treebank file are read before the first of them is counted, and
trees that are read from a file can all be counted.  So either all wanted trees of a file are counted,
or the file is refused and the grammar stays as it was.  A file with bytes that are no UTF-8 is refused
for them only if lines are asked for behind those that come before.

Main definitions:

- `Grammar.refusal?`: why a treebank file is refused, if it is.
- `Grammar.Error.IsRefusal`: the errors with which a treebank file is refused.
- `Grammar.CountsWhole`: all wanted trees of a file are counted.

Main results:

- Theorem `Grammar.countTreebank_of_refusal`: a refused file changes nothing.
- Theorem `Grammar.countsWhole_of_accepted`: the trees of every other file are all counted.
- Theorem `Grammar.countTreebank_all_or_nothing`: a file is counted as a whole or refused.
-/

namespace TreebankGrammar
namespace Grammar

/-! ## Refusals -/

/-- The errors with which a treebank file is refused: the grammar takes no counts, the file gives no
lines, or one of its lines holds no tree. -/
inductive Error.IsRefusal : Error → Prop
  | frozen : IsRefusal .frozen
  | corpus (cause : CorpusError) : IsRefusal (.corpus cause)
  | line (cause : Treebank.LineError) : IsRefusal (.line cause)

/-- Why a treebank file is refused, if it is. -/
def refusal? (g : Grammar) (d : Directory) (file : String) (limits : Treebank.Limits) :
    Option Error :=
  if g.normalised then some .frozen
  else
    match corpusLines d file with
    | .error e => some e
    | .ok stream => corpusFailure? file limits stream

/-- The lines of a treebank file are those of the file. -/
theorem corpusLines_eq_ok_iff {d : Directory} {file : String} {stream : Text.LineStream} :
    corpusLines d file = .ok stream ↔ d.readLines file = .ok stream := by
  rw [corpusLines]
  constructor
  · intro h
    split at h
    · rename_i hread
      rwa [Except.ok.inj h] at hread
    all_goals cases h
  · intro hread
    rw [hread]

/-- A file that gives no lines is refused, unless its name is not one of a file. -/
theorem isRefusal_of_corpusLines {d : Directory} {file : String} {e : Error}
    (h : corpusLines d file = .error e) :
    e.IsRefusal ∨ e = .nullCharacter ∧ '\x00' ∈ file.toList := by
  unfold corpusLines at h
  split at h
  · cases h
  · rename_i hread
    cases h
    exact .inr ⟨rfl, Directory.nullCharacter_mem_of_readLines hread⟩
  · cases h
    exact .inl (.corpus _)

/-- So is a file the wanted trees of which cannot be read. -/
theorem isRefusal_of_corpusFailure {file : String} {limits : Treebank.Limits}
    {stream : Text.LineStream} {e : Error} (h : corpusFailure? file limits stream = some e) :
    e.IsRefusal := by
  unfold corpusFailure? at h
  split at h
  · cases h
    exact .line _
  · split at h
    · cases h
      exact .corpus _
    · cases h

theorem isRefusal_of_refusal {g : Grammar} {d : Directory} {file : String}
    {limits : Treebank.Limits} {e : Error} (h : g.refusal? d file limits = some e) :
    e.IsRefusal ∨ e = .nullCharacter ∧ '\x00' ∈ file.toList := by
  unfold refusal? at h
  split at h
  · cases h
    exact .inl .frozen
  · split at h
    · rename_i hlines
      cases h
      exact isRefusal_of_corpusLines hlines
    · exact .inl (isRefusal_of_corpusFailure h)

/-- A refused file changes nothing. -/
theorem countTreebank_of_refusal {g : Grammar} {d : Directory} {file : String}
    {limits : Treebank.Limits} {e : Error} (h : g.refusal? d file limits = some e) :
    (g.countTreebank d file limits).result = .error e ∧
      (g.countTreebank d file limits).grammar = g := by
  cases hg : g.normalised with
  | true =>
    rw [refusal?, if_pos hg] at h
    cases h
    rw [countTreebank, if_pos hg]
    exact ⟨rfl, rfl⟩
  | false =>
    rw [refusal?, hg] at h
    rw [countTreebank, hg]
    simp only [Bool.false_eq_true, if_false] at h ⊢
    cases hlines : corpusLines d file with
    | error e' =>
      rw [hlines] at h
      cases h
      exact ⟨rfl, rfl⟩
    | ok stream =>
      rw [hlines] at h
      dsimp only at h ⊢
      rw [h]
      exact ⟨rfl, rfl⟩

/-! ## Files that are counted -/

/-- All wanted trees among the lines of a file are counted: none of the lines fails, and none is asked for
that cannot be decoded; the number of these trees is returned, and the grammar is the one that counting
the list of them makes. -/
structure CountsWhole (g : Grammar) (d : Directory) (file : String) (limits : Treebank.Limits)
    (stream : Text.LineStream) (trees : List Tree) : Prop where
  readLines : d.readLines file = .ok stream
  trees_eq : (Treebank.read limits stream.lines).trees = trees
  failure : (Treebank.read limits stream.lines).failure = none
  decoded : stream.broken = true → Treebank.asksBeyond limits stream.lines = false
  result : (g.countTreebank d file limits).result = .ok trees.length
  countTrees_result : (g.countTrees (trees.map Tree.toCandidate)).result = .ok trees.length
  grammar : (g.countTreebank d file limits).grammar =
    (g.countTrees (trees.map Tree.toCandidate)).grammar

/-- All wanted trees of a file that is not refused are counted. -/
theorem countsWhole_of_accepted {g : Grammar} {d : Directory} {file : String}
    {limits : Treebank.Limits} (h : g.refusal? d file limits = none) :
    ∃ stream trees, g.CountsWhole d file limits stream trees := by
  unfold refusal? at h
  split at h
  · cases h
  · rename_i hnormalised
    have hg : g.normalised = false := Bool.not_eq_true _ ▸ hnormalised
    split at h
    · cases h
    · rename_i stream hlines
      obtain ⟨hfailure, hdecoded⟩ := corpusFailure?_eq_none_iff.1 h
      have hlabels : ∀ t ∈ (Treebank.read limits stream.lines).trees, ∀ l ∈ t.labels, l ≠ "" :=
        fun t ht l hl => (Treebank.isLabel_of_mem_read ht l hl).1
      have hcounted := countTrees_result hg hlabels
      obtain ⟨hgrammar, hresult⟩ := countTreebank_of_read hg hlines h
      exact ⟨stream, _, corpusLines_eq_ok_iff.1 hlines, rfl, hfailure, hdecoded,
        hresult.trans hcounted, hcounted, hgrammar⟩

/-- The wanted trees of a treebank file are all counted, or the file is refused and the grammar stays as
it was.  The only other error is the one for a name with the null character, which is the name of no
file, and it leaves the grammar as it was too. -/
theorem countTreebank_all_or_nothing (g : Grammar) (d : Directory) (file : String)
    (length n : Int) :
    (∃ stream trees, g.CountsWhole d file (.ofInts length n) stream trees) ∨
      ∃ e, (g.countTreebank d file (.ofInts length n)).result = .error e ∧
        (g.countTreebank d file (.ofInts length n)).grammar = g ∧
        (e.IsRefusal ∨ e = .nullCharacter ∧ '\x00' ∈ file.toList) := by
  cases h : g.refusal? d file (.ofInts length n) with
  | none => exact .inl (countsWhole_of_accepted h)
  | some e =>
    obtain ⟨hresult, hgrammar⟩ := countTreebank_of_refusal h
    exact .inr ⟨e, hresult, hgrammar, isRefusal_of_refusal h⟩

/-- With a name that contains the null character, a file is neither counted as a whole nor refused for
what is in it. -/
theorem countTreebank_nullCharacter :
    ¬ ((∃ stream trees, empty.CountsWhole {} "a\x00b" (.ofInts 0 (-1)) stream trees) ∨
      ∃ e, (empty.countTreebank {} "a\x00b" (.ofInts 0 (-1))).result = .error e ∧
        (empty.countTreebank {} "a\x00b" (.ofInts 0 (-1))).grammar = empty ∧ e.IsRefusal) := by
  have hresult : (empty.countTreebank {} "a\x00b" (.ofInts 0 (-1))).result =
      .error .nullCharacter := rfl
  rintro (⟨stream, trees, h⟩ | ⟨e, h, -, hrefusal⟩)
  · have hcounted := h.result
    rw [hresult] at hcounted
    cases hcounted
  · rw [hresult] at h
    cases h
    cases hrefusal

end Grammar
end TreebankGrammar
