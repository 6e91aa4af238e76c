import Mathlib.Data.List.TakeWhile
import TreebankGrammar.Proofs.Tree.Labels
import TreebankGrammar.Proofs.Tree.Traversals

/-!
# Equality of trees

Two trees count as equal when they have the same text.  If no label contains a character that the text
puts between labels, the text determines the tree: a label goes on up to the next of these
characters, also when it is empty, and only a node with children begins with an opening bracket.

Main definitions:

- `Tree.IsDelimiter`: the characters that a text puts between labels.
- `Tree.IsDelimited`: a text can follow a label.

Main results:

- Theorem `Tree.bracketed_append_inj`: the bracketed form of a tree determines the tree and what
  follows it.
- Theorem `Tree.beq_iff_eq_of_labels`: trees without delimiters in their labels count as equal only if
  they are the same tree.
-/

namespace TreebankGrammar
namespace Tree

/-! ## Where labels end -/

/-- The characters that the text of a tree puts between labels. -/
def IsDelimiter (c : Char) : Prop :=
  c = '(' ∨ c = ')' ∨ c = ' '

instance : DecidablePred IsDelimiter := fun c =>
  inferInstanceAs (Decidable (c = '(' ∨ c = ')' ∨ c = ' '))

/-- A text can follow a label: it is empty, or begins with a closing bracket or a space. -/
def IsDelimited (cs : List Char) : Prop :=
  ∀ c ∈ cs.head?, c = ')' ∨ c = ' '

theorem isDelimited_nil : IsDelimited [] := by
  simp [IsDelimited]

theorem isDelimited_closing (cs : List Char) : IsDelimited (')' :: cs) := by
  simp [IsDelimited]

theorem isDelimited_space (cs : List Char) : IsDelimited (' ' :: cs) := by
  simp [IsDelimited]

/-- What follows a label up to a closing bracket are the forms of a sequence of trees. -/
theorem isDelimited_bracketedItems (ts : List Tree) {cs : List Char} (hcs : IsDelimited cs) :
    IsDelimited ((bracketedItems ts).toList ++ cs) := by
  cases ts with
  | nil => simpa [bracketedItems] using hcs
  | cons t ts => simpa [bracketedItems] using isDelimited_space _

/-- A label is the longest stretch without a delimiter. -/
theorem takeWhile_label {l cs : List Char} (hl : ∀ c ∈ l, ¬IsDelimiter c) (hcs : IsDelimited cs) :
    (l ++ cs).takeWhile (fun c => ¬IsDelimiter c) = l := by
  have hstop : cs.takeWhile (fun c => ¬IsDelimiter c) = [] := by
    cases cs with
    | nil => rfl
    | cons c cs =>
      have hc : IsDelimiter c := .inr (hcs c rfl)
      simp [hc]
  rw [List.takeWhile_append_of_pos (by simpa using hl), hstop, List.append_nil]

/-- A text that begins with a label determines the label. -/
theorem label_append_inj {l m cs ds : List Char} (hl : ∀ c ∈ l, ¬IsDelimiter c)
    (hm : ∀ c ∈ m, ¬IsDelimiter c) (hcs : IsDelimited cs) (hds : IsDelimited ds)
    (h : l ++ cs = m ++ ds) : l = m ∧ cs = ds := by
  have hlabel : l = m := by
    rw [← takeWhile_label hl hcs, h, takeWhile_label hm hds]
  rw [hlabel] at h
  exact ⟨hlabel, List.append_cancel_left h⟩

/-- A text that begins with a label, be it empty, does not begin with an opening bracket. -/
theorem label_append_ne_opening {l cs : List Char} (hl : ∀ c ∈ l, ¬IsDelimiter c)
    (hcs : IsDelimited cs) (ds : List Char) : l ++ cs ≠ '(' :: ds := by
  intro h
  cases l with
  | nil =>
    have hhead := hcs '(' (by rw [show cs = '(' :: ds from h]; rfl)
    simp at hhead
  | cons c l =>
    obtain rfl := (List.cons.inj h).1
    exact hl '(' List.mem_cons_self (.inl rfl)

/-! ## The bracketed form determines the tree -/

theorem toList_bracketed_leaf (l : String) : (node l []).bracketed.toList = l.toList := by
  rw [bracketed]

theorem toList_bracketed_node (l : String) (c : Tree) (ts : List Tree) (cs : List Char) :
    (node l (c :: ts)).bracketed.toList ++ cs =
      '(' :: (l.toList ++ ((bracketedItems (c :: ts)).toList ++ ')' :: cs)) := by
  simp [bracketed]

theorem toList_bracketedItems_cons (t : Tree) (ts : List Tree) (cs : List Char) :
    (bracketedItems (t :: ts)).toList ++ cs =
      ' ' :: (t.bracketed.toList ++ ((bracketedItems ts).toList ++ cs)) := by
  simp [bracketedItems]

mutual

/-- The bracketed form of a tree determines the tree and what follows it. -/
theorem bracketed_append_inj {t u : Tree} (ht : ∀ l ∈ t.labels, ∀ c ∈ l.toList, ¬IsDelimiter c)
    (hu : ∀ l ∈ u.labels, ∀ c ∈ l.toList, ¬IsDelimiter c) {cs ds : List Char}
    (hcs : IsDelimited cs) (hds : IsDelimited ds)
    (h : t.bracketed.toList ++ cs = u.bracketed.toList ++ ds) : t = u ∧ cs = ds := by
  match t, u with
  | .node l ts, .node m us =>
    rw [labels, List.forall_mem_cons] at ht hu
    match ts, us with
    | [], [] =>
      rw [toList_bracketed_leaf, toList_bracketed_leaf] at h
      obtain ⟨hlabel, hrest⟩ := label_append_inj ht.1 hu.1 hcs hds h
      rw [String.toList_inj.1 hlabel]
      exact ⟨rfl, hrest⟩
    | [], d :: us =>
      rw [toList_bracketed_leaf, toList_bracketed_node] at h
      exact absurd h (label_append_ne_opening ht.1 hcs _)
    | c :: ts, [] =>
      rw [toList_bracketed_leaf, toList_bracketed_node] at h
      exact absurd h.symm (label_append_ne_opening hu.1 hds _)
    | c :: ts, d :: us =>
      rw [toList_bracketed_node, toList_bracketed_node, List.cons_inj_right] at h
      obtain ⟨hlabel, hitems⟩ := label_append_inj ht.1 hu.1
        (isDelimited_bracketedItems _ (isDelimited_closing cs))
        (isDelimited_bracketedItems _ (isDelimited_closing ds)) h
      obtain ⟨hchildren, hrest⟩ := bracketedItems_append_inj ht.2 hu.2 hitems
      rw [String.toList_inj.1 hlabel, hchildren]
      exact ⟨rfl, hrest⟩

/-- The forms of a sequence of trees up to a closing bracket determine the trees. -/
theorem bracketedItems_append_inj {ts us : List Tree}
    (hts : ∀ l ∈ labelsAll ts, ∀ c ∈ l.toList, ¬IsDelimiter c)
    (hus : ∀ l ∈ labelsAll us, ∀ c ∈ l.toList, ¬IsDelimiter c) {cs ds : List Char}
    (h : (bracketedItems ts).toList ++ ')' :: cs = (bracketedItems us).toList ++ ')' :: ds) :
    ts = us ∧ cs = ds := by
  match ts, us with
  | [], [] => simpa [bracketedItems] using h
  | [], u :: us => simp [bracketedItems] at h
  | t :: ts, [] => simp [bracketedItems] at h
  | t :: ts, u :: us =>
    rw [labelsAll, List.forall_mem_append] at hts hus
    rw [toList_bracketedItems_cons, toList_bracketedItems_cons, List.cons_inj_right] at h
    obtain ⟨htree, hitems⟩ := bracketed_append_inj hts.1 hus.1
      (isDelimited_bracketedItems ts (isDelimited_closing cs))
      (isDelimited_bracketedItems us (isDelimited_closing ds)) h
    obtain ⟨htrees, hrest⟩ := bracketedItems_append_inj hts.2 hus.2 hitems
    rw [htree, htrees]
    exact ⟨rfl, hrest⟩

end

/-! ## Trees that count as equal -/

theorem beq_iff_text_eq (a b : Tree) : (a == b) = true ↔ a.text = b.text := by
  change (a.text == b.text) = true ↔ a.text = b.text
  exact beq_iff_eq

/-- Trees whose labels contain no bracket and no space count as equal exactly when they are the same
tree, with the same label and the same sequence of children at every node.  So a terminal never
counts as equal to a node with children. -/
theorem beq_iff_eq_of_labels (a b : Tree)
    (ha : ∀ l ∈ a.labels, ∀ c ∈ l.toList, ¬IsDelimiter c)
    (hb : ∀ l ∈ b.labels, ∀ c ∈ l.toList, ¬IsDelimiter c) :
    ((a == b) = true ↔ a = b) ∧ (a.isTerminal ≠ b.isTerminal → (a == b) = false) := by
  have heq : (a == b) = true ↔ a = b := by
    rw [beq_iff_text_eq]
    constructor
    · intro h
      rw [text_eq_bracketed, text_eq_bracketed] at h
      exact (bracketed_append_inj ha hb isDelimited_nil isDelimited_nil (by rw [h])).1
    · exact congrArg text
  refine ⟨heq, fun hterminal => ?_⟩
  rw [Bool.eq_false_iff, ne_eq, heq]
  exact fun hab => hterminal (congrArg isTerminal hab)

/-- Where an empty label stands can be told from the spaces. -/
theorem beq_emptyLabels :
    (node "S" [node "" [], node "\t" []] == node "S" [node "\t" [], node "" []]) = false := by
  have ha : ∀ l ∈ (node "S" [node "" [], node "\t" []]).labels, ∀ c ∈ l.toList, ¬IsDelimiter c := by
    simp [labels, labelsAll, IsDelimiter]
  have hb : ∀ l ∈ (node "S" [node "\t" [], node "" []]).labels, ∀ c ∈ l.toList, ¬IsDelimiter c := by
    simp [labels, labelsAll, IsDelimiter]
  rw [Bool.eq_false_iff, ne_eq, (beq_iff_eq_of_labels _ _ ha hb).1]
  simp

/-- A space in a label may be taken for one between labels. -/
example : (node "S" [node "a b" []] == node "S" [node "a" [], node "b" []]) = true := by
  simp [BEq.beq, text, writeOpen]

end Tree
end TreebankGrammar
