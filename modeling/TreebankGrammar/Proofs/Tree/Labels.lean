import TreebankGrammar.Proofs.Tree.Malformed
import TreebankGrammar.Proofs.Tree.Reading
import TreebankGrammar.Proofs.Treebank.Reading

/-!
# Labels of trees

The symbols of a tree's productions are labels of the tree.  The productions of a tree without empty
labels can be collected, and the labels of a tree that is read from a text are words without
brackets.

Main definitions:

- `Tree.labels` and `Candidate.labels`: the labels of all nodes.
- `Production.All`: all symbols of a production have a property.
- `Token.IsLabel`: a text that can be a label of a tree that is read.

Main results:

- Theorem `Candidate.all_of_productions`: the symbols of the productions are labels.
- Theorem `Tree.exists_productions`: the productions of a tree without empty labels.
- Theorem `Treebank.isLabel_of_mem_read`: the labels of trees that are read.
-/

namespace TreebankGrammar

/-! ## Labels -/

namespace Tree

mutual

/-- The labels of all nodes of a tree, each before those of its children. -/
def labels : Tree → List String
  | .node l cs => l :: labelsAll cs

/-- The labels of a sequence of trees. -/
def labelsAll : List Tree → List String
  | [] => []
  | t :: ts => t.labels ++ labelsAll ts

end

end Tree

namespace Candidate

mutual

/-- The labels of all nodes of a candidate and of what stands in the place of nodes. -/
def labels : Candidate → List String
  | .text s => [s]
  | .other .. => [""]
  | .node l cs => l :: labelsAll cs

/-- The labels of a sequence of candidates. -/
def labelsAll : List Candidate → List String
  | [] => []
  | c :: cs => c.labels ++ labelsAll cs

end

mutual

/-- The labels of a candidate are those of its parts. -/
theorem labels_eq_map (c : Candidate) : c.labels = c.parts.map label := by
  match c with
  | .text s => rfl
  | .other type shown => rfl
  | .node l cs => rw [labels, parts, List.map_cons, labelsAll_eq_map cs, label]

theorem labelsAll_eq_map (cs : List Candidate) : labelsAll cs = (partsAll cs).map label := by
  match cs with
  | [] => rfl
  | c :: cs => rw [labelsAll, partsAll, List.map_append, labels_eq_map c, labelsAll_eq_map cs]

end

theorem label_mem_labels {c d : Candidate} (h : d ∈ c.parts) : d.label ∈ c.labels := by
  rw [labels_eq_map]
  exact List.mem_map_of_mem h

end Candidate

/-! ## Productions -/

/-- All symbols of a production have a property. -/
def Production.All (P : String → Prop) (p : Production) : Prop :=
  P p.lhs ∧ ∀ s ∈ p.rhs, P s

namespace Candidate

/-- The symbols of the productions of a candidate are its labels. -/
theorem all_of_productions {P : String → Prop} {c : Candidate} {ps : List Production}
    (h : c.productions = .ok ps) (hlabels : ∀ l ∈ c.labels, P l) : ∀ p ∈ ps, p.All P := by
  obtain ⟨-, rfl⟩ := (c.productions_eq_ok_iff ps).1 h
  intro p hp
  obtain ⟨d, hd, rfl⟩ := List.mem_map.1 hp
  have hpart := (mem_inner_iff.1 hd).1
  refine ⟨hlabels _ (label_mem_labels hpart), ?_⟩
  intro s hs
  obtain ⟨e, he, rfl⟩ := List.mem_map.1 hs
  exact hlabels _ (label_mem_labels (c.mem_parts_of_mem_children hpart he))

end Candidate

namespace Tree

mutual

/-- A tree has the same labels when it is offered as a tree. -/
theorem labels_toCandidate (t : Tree) : t.toCandidate.labels = t.labels := by
  match t with
  | .node l cs => rw [toCandidate, Candidate.labels, labels, labels_toCandidates cs]

theorem labels_toCandidates (ts : List Tree) :
    Candidate.labelsAll (toCandidates ts) = labelsAll ts := by
  match ts with
  | [] => rfl
  | t :: ts =>
    rw [toCandidates, Candidate.labelsAll, labelsAll, labels_toCandidate t, labels_toCandidates ts]

end

mutual

/-- Nothing else stands in the place of a node of a tree. -/
theorem not_isNoTree_of_mem_parts (t : Tree) : ∀ c ∈ t.toCandidate.parts, ¬c.IsNoTree := by
  match t with
  | .node l cs =>
    rw [toCandidate, Candidate.parts]
    exact List.forall_mem_cons.2 ⟨id, not_isNoTree_of_mem_partsAll cs⟩

theorem not_isNoTree_of_mem_partsAll (ts : List Tree) :
    ∀ c ∈ Candidate.partsAll (toCandidates ts), ¬c.IsNoTree := by
  match ts with
  | [] => nofun
  | t :: ts =>
    rw [toCandidates, Candidate.partsAll]
    exact List.forall_mem_append.2 ⟨not_isNoTree_of_mem_parts t, not_isNoTree_of_mem_partsAll ts⟩

end

/-- A tree without empty labels is not malformed. -/
theorem not_isMalformed {t : Tree} (h : ∀ l ∈ t.labels, l ≠ "") : ¬t.toCandidate.IsMalformed := by
  rintro (hroot | ⟨-, c, hc, hfaulty⟩)
  · exact t.not_isNoTree_of_mem_parts _ (Candidate.mem_parts_self _) hroot
  · cases c with
    | text s => exact t.not_isNoTree_of_mem_parts _ hc trivial
    | other type shown => exact t.not_isNoTree_of_mem_parts _ hc trivial
    | node l cs =>
      have hl : l ∈ t.toCandidate.labels := Candidate.label_mem_labels hc
      rw [labels_toCandidate] at hl
      exact h l hl hfaulty

/-- The productions of a tree without empty labels, the symbols of which are its labels. -/
theorem exists_productions {P : String → Prop} {t : Tree} (hP : ∀ l ∈ t.labels, P l)
    (hne : ∀ l ∈ t.labels, l ≠ "") :
    ∃ ps, t.toCandidate.productions = .ok ps ∧ ∀ p ∈ ps, p.All P := by
  obtain ⟨ps, hps, -⟩ := Candidate.exists_productions (not_isMalformed hne)
  exact ⟨ps, hps, Candidate.all_of_productions hps (by rwa [labels_toCandidate])⟩

end Tree

/-! ## Labels of trees that are read -/

/-- A text can be a label of a tree that is read if it has a character, no blank and no bracket. -/
def Token.IsLabel (l : String) : Prop :=
  l ≠ "" ∧ ∀ c ∈ l.toList, IsPlain c

instance (l : String) : Decidable (Token.IsLabel l) :=
  have := List.decidableBAll (fun c => Token.IsPlain c) l.toList
  inferInstanceAs (Decidable (l ≠ "" ∧ ∀ c ∈ l.toList, Token.IsPlain c))

theorem Token.IsLabel.isWord {l : String} (h : IsLabel l) : Text.IsWord l :=
  ⟨h.1, fun c hc => (h.2 c hc).1⟩

/-- The words among the tokens of a text can be labels. -/
theorem Token.Splits.isLabel_of_word_mem {cs : List Char} {tokens : List Token}
    (h : Splits cs tokens) {w : String} (hw : .word w ∈ tokens) : IsLabel w := by
  induction h with
  | nil => cases hw
  | blank _ _ ih => exact ih hw
  | opening _ ih => exact ih (by simpa using hw)
  | closing _ ih => exact ih (by simpa using hw)
  | word hne hplain _ _ ih =>
    rcases List.mem_cons.1 hw with heq | hw
    · obtain rfl := Token.word.inj heq
      refine ⟨fun hnil => hne ?_, by simpa using hplain⟩
      simpa using congrArg String.toList hnil
    · exact ih hw

namespace Tree

mutual

/-- The labels of a tree are words among its tokens. -/
theorem word_mem_tokens (t : Tree) : ∀ l ∈ t.labels, .word l ∈ t.tokens := by
  match t with
  | .node l [] => simp [labels, labelsAll, tokens]
  | .node l (c :: cs) =>
    have hchildren := word_mem_tokensAll (c :: cs)
    rw [labels, tokens]
    refine List.forall_mem_cons.2 ⟨by simp, fun l' hl' => ?_⟩
    simp [hchildren l' hl']

theorem word_mem_tokensAll (ts : List Tree) : ∀ l ∈ labelsAll ts, .word l ∈ tokensAll ts := by
  match ts with
  | [] => simp [labelsAll]
  | t :: ts =>
    rw [labelsAll, tokensAll, List.forall_mem_append]
    exact ⟨fun l hl => List.mem_append_left _ (word_mem_tokens t l hl),
      fun l hl => List.mem_append_right _ (word_mem_tokensAll ts l hl)⟩

end

/-- The labels of a tree that is read from a text. -/
theorem isLabel_of_read {s : String} {t : Tree} (h : Tree.read s = .ok t) :
    ∀ l ∈ t.labels, Token.IsLabel l := by
  obtain ⟨tokens, hsplits, -, htokens⟩ := (Tree.read_eq_ok_iff s t).1 h
  intro l hl
  have hword := t.word_mem_tokens l hl
  refine hsplits.isLabel_of_word_mem ?_
  rcases htokens with rfl | rfl
  · exact hword
  · simp [hword]

end Tree

namespace Treebank

/-- The labels of the trees of a treebank. -/
theorem isLabel_of_mem_read {limits : Limits} {lines : List String} {t : Tree}
    (h : t ∈ (read limits lines).trees) : ∀ l ∈ t.labels, Token.IsLabel l := by
  obtain ⟨s, hread⟩ := exists_read_of_mem h
  exact Tree.isLabel_of_read hread

end Treebank
end TreebankGrammar
