import TreebankGrammar.Proofs.Tree.Labels
import TreebankGrammar.Proofs.Tree.Traversals

/-!
# Reading what has been printed

The text of a tree falls apart into the tokens of the tree when no label is empty or contains a blank
or a bracket, so that reading the text gives back the tree.  No other labels come through: a label
that is read is a word.

Main results:

- Theorem `Tree.splits_bracketed`: the tokens of the bracketed form of a tree.
- Theorem `Tree.read_text_eq_ok_iff`: which trees are read as they were printed.
-/

namespace TreebankGrammar

/-- A label is cut off as a word where no plain character follows. -/
theorem Token.Splits.label {l : String} (hl : IsLabel l) {cs : List Char} {tokens : List Token}
    (hend : ∀ c ∈ cs.head?, ¬IsPlain c) (h : Splits cs tokens) :
    Splits (l.toList ++ cs) (.word l :: tokens) := by
  have hne : l.toList ≠ [] := fun hnil => hl.1 (String.toList_eq_nil_iff.1 hnil)
  have hword := Splits.word hne hl.2 hend h
  rwa [String.ofList_toList] at hword

namespace Tree

/-! ## Tokens of the bracketed form -/

/-- Where the forms of a sequence begin no word goes on. -/
theorem not_isPlain_of_mem_head? (ts : List Tree) {cs : List Char}
    (hend : ∀ c ∈ cs.head?, ¬Token.IsPlain c) :
    ∀ c ∈ ((bracketedItems ts).toList ++ cs).head?, ¬Token.IsPlain c := by
  cases ts with
  | nil => simpa [bracketedItems] using hend
  | cons t ts =>
    have hblank : ¬Token.IsPlain ' ' := by decide
    simpa [bracketedItems] using hblank

mutual

/-- The bracketed form of a tree falls apart into the tokens of the tree, wherever it stands. -/
theorem splits_bracketed (t : Tree) (ht : ∀ l ∈ t.labels, Token.IsLabel l) {cs : List Char}
    {tokens : List Token} (hend : ∀ c ∈ cs.head?, ¬Token.IsPlain c) (h : Token.Splits cs tokens) :
    Token.Splits (t.bracketed.toList ++ cs) (t.tokens ++ tokens) := by
  match t with
  | .node l [] => exact .label (ht l (by simp [labels])) hend h
  | .node l (c :: ts) =>
    rw [labels, List.forall_mem_cons] at ht
    have hclosing : ∀ d ∈ (')' :: cs).head?, ¬Token.IsPlain d := by
      simp only [List.head?_cons, Option.mem_some_iff, forall_eq']
      decide
    have hitems := splits_bracketedItems (c :: ts) ht.2 hclosing (.closing h)
    have hnode := hitems.label ht.1 (not_isPlain_of_mem_head? (c :: ts) hclosing)
    simpa [bracketed, Tree.tokens] using hnode.opening

theorem splits_bracketedItems (ts : List Tree) (hts : ∀ l ∈ labelsAll ts, Token.IsLabel l)
    {cs : List Char} {tokens : List Token} (hend : ∀ c ∈ cs.head?, ¬Token.IsPlain c)
    (h : Token.Splits cs tokens) :
    Token.Splits ((bracketedItems ts).toList ++ cs) (tokensAll ts ++ tokens) := by
  match ts with
  | [] => simpa [bracketedItems, tokensAll] using h
  | t :: ts =>
    rw [labelsAll, List.forall_mem_append] at hts
    have hlater := splits_bracketedItems ts hts.2 hend h
    have hfirst := splits_bracketed t hts.1 (not_isPlain_of_mem_head? ts hend) hlater
    have hspaced := Token.Splits.blank (c := ' ') (by decide) hfirst
    simpa [bracketedItems, tokensAll] using hspaced

end

/-! ## Reading the text of a tree -/

/-- A tree with children whose labels are words without brackets is read as it was printed. -/
theorem read_text {t : Tree} (hchildren : t.children ≠ [])
    (ht : ∀ l ∈ t.labels, Token.IsLabel l) : Tree.read t.text = .ok t := by
  have hend : ∀ c ∈ ([] : List Char).head?, ¬Token.IsPlain c := by simp
  have hsplits := t.splits_bracketed ht hend .nil
  rw [List.append_nil, List.append_nil, ← text_eq_bracketed] at hsplits
  exact (read_eq_ok_iff _ t).2 ⟨t.tokens, hsplits, hchildren, Or.inl rfl⟩

/-- A tree is read as it was printed exactly when it has children and each of its labels has a
character, no blank and no bracket.  So it is with every tree that is read from a text. -/
theorem read_text_eq_ok_iff :
    (∀ t : Tree, Tree.read t.text = .ok t ↔
      t.children ≠ [] ∧ ∀ l ∈ t.labels, Token.IsLabel l) ∧
    ∀ (s : String) (t : Tree), Tree.read s = .ok t → Tree.read t.text = .ok t := by
  have hread : ∀ (s : String) (t : Tree), Tree.read s = .ok t →
      t.children ≠ [] ∧ ∀ l ∈ t.labels, Token.IsLabel l := by
    intro s t h
    obtain ⟨tokens, -, hchildren, -⟩ := (read_eq_ok_iff s t).1 h
    exact ⟨hchildren, isLabel_of_read h⟩
  constructor
  · intro t
    constructor
    · exact hread t.text t
    · rintro ⟨hchildren, ht⟩
      exact read_text hchildren ht
  · intro s t h
    obtain ⟨hchildren, ht⟩ := hread s t h
    exact read_text hchildren ht

end Tree
end TreebankGrammar
