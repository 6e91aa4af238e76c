import TreebankGrammar.Text.Blank

/-!
# Words of a text

A word is a stretch of characters without blanks that has at least one character.  A text falls
apart into words only, a word that is followed by a blank or by nothing is cut off as it stands, and
blanks at the ends of a text do not matter.

Main results:

- Theorem `splitWords_append`: a word in front of a text that begins with a blank is its first word.
- Theorem `isWord_of_mem_words`: a text falls apart into words.
- Theorem `words_strip`: trimming a text does not change its words.
-/

namespace TreebankGrammar
namespace Text

/-- Characters without a blank among them. -/
def BlankFree (cs : List Char) : Prop :=
  ∀ c ∈ cs, isBlank c = false

instance (cs : List Char) : Decidable (BlankFree cs) :=
  List.decidableBAll (fun c => isBlank c = false) cs

/-- A text is a word when it has a character and no blanks. -/
def IsWord (s : String) : Prop :=
  s ≠ "" ∧ BlankFree s.toList

instance (s : String) : Decidable (IsWord s) :=
  inferInstanceAs (Decidable (s ≠ "" ∧ BlankFree s.toList))

/-- Whether a text ends here or goes on with a blank. -/
def AtBlank (cs : List Char) : Prop :=
  ∀ c ∈ cs.head?, isBlank c = true

theorem atBlank_nil : AtBlank [] := by
  simp [AtBlank]

theorem atBlank_cons {c : Char} (h : isBlank c = true) (cs : List Char) : AtBlank (c :: cs) := by
  simpa [AtBlank] using h

theorem blankFree_cons {c : Char} {cs : List Char} :
    BlankFree (c :: cs) ↔ isBlank c = false ∧ BlankFree cs :=
  List.forall_mem_cons

theorem blankFree_append {cs ds : List Char} :
    BlankFree (cs ++ ds) ↔ BlankFree cs ∧ BlankFree ds :=
  List.forall_mem_append

/-- A word given by its characters. -/
theorem isWord_ofList {cs : List Char} (hne : cs ≠ []) (hfree : BlankFree cs) :
    IsWord (String.ofList cs) := by
  constructor
  · intro h
    exact hne (by simpa using congrArg String.toList h)
  · simpa using hfree

/-- The characters of a word. -/
theorem IsWord.toList_ne_nil {s : String} (h : IsWord s) : s.toList ≠ [] := by
  intro hnil
  exact h.1 (String.toList_eq_nil_iff.1 hnil)

/-! ## Cutting off a word -/

/-- Characters that are not blank are put in front of the entered word. -/
theorem foldr_push_append {cs : List Char} (h : BlankFree cs) (ds : List Char) (cut : WordCut) :
    (cs ++ ds).foldr WordCut.push cut =
      ⟨cs ++ (ds.foldr WordCut.push cut).current, (ds.foldr WordCut.push cut).later⟩ := by
  induction cs with
  | nil => rfl
  | cons c cs ih =>
    rcases blankFree_cons.1 h with ⟨hc, hcs⟩
    rw [List.cons_append, List.foldr_cons, ih hcs, WordCut.push, if_neg (by simp [hc])]
    rfl

/-- No word has been entered at a blank. -/
theorem current_foldr_push {cs : List Char} (h : AtBlank cs) :
    (cs.foldr WordCut.push ⟨[], []⟩).current = [] := by
  cases cs with
  | nil => rfl
  | cons c cs =>
    have hc : isBlank c = true := h c rfl
    simp [WordCut.push, hc]

/-- A word in front of a text that begins with a blank is its first word. -/
theorem splitWords_append {cs : List Char} (hne : cs ≠ []) (hfree : BlankFree cs) {ds : List Char}
    (hds : AtBlank ds) : splitWords (cs ++ ds) = cs :: splitWords ds := by
  have hcurrent := current_foldr_push hds
  unfold splitWords
  rw [foldr_push_append hfree]
  simp [WordCut.all, hcurrent, hne]

/-- The words of a text that is a word. -/
theorem splitWords_of_blankFree {cs : List Char} (hne : cs ≠ []) (hfree : BlankFree cs) :
    splitWords cs = [cs] := by
  simpa using splitWords_append hne hfree atBlank_nil

/-- Words with single blanks between them are the words of the text. -/
theorem splitWords_intercalate {c : Char} (hc : isBlank c = true) {ws : List (List Char)}
    (h : ∀ w ∈ ws, w ≠ [] ∧ BlankFree w) : splitWords ([c].intercalate ws) = ws := by
  induction ws with
  | nil => rfl
  | cons w ws ih =>
    obtain ⟨⟨hne, hfree⟩, hws⟩ := List.forall_mem_cons.1 h
    cases ws with
    | nil => rw [List.intercalate_singleton, splitWords_of_blankFree hne hfree]
    | cons v vs =>
      rw [List.intercalate_cons_cons, List.append_assoc, List.singleton_append,
        splitWords_append hne hfree (atBlank_cons hc _), splitWords_cons_blank hc, ih hws]

/-! ## All words -/

/-- All words of a cut have characters, none of them blank. -/
theorem forall_mem_all_foldr_push (cs : List Char) :
    BlankFree (cs.foldr WordCut.push ⟨[], []⟩).current ∧
      ∀ w ∈ (cs.foldr WordCut.push ⟨[], []⟩).later, w ≠ [] ∧ BlankFree w := by
  induction cs with
  | nil => simp [BlankFree]
  | cons c cs ih =>
    rcases ih with ⟨hcurrent, hlater⟩
    rw [List.foldr_cons, WordCut.push]
    split
    · refine ⟨by simp [BlankFree], ?_⟩
      intro w hw
      rw [WordCut.all] at hw
      split at hw
      · exact hlater w hw
      · rename_i hne
        rcases List.mem_cons.1 hw with rfl | hw
        · exact ⟨by simpa using hne, hcurrent⟩
        · exact hlater w hw
    · rename_i hc
      exact ⟨blankFree_cons.2 ⟨by simpa using hc, hcurrent⟩, hlater⟩

/-- The stretches that a text falls apart into have characters, none of them blank. -/
theorem forall_mem_splitWords {cs w : List Char} (hw : w ∈ splitWords cs) :
    w ≠ [] ∧ BlankFree w := by
  rcases forall_mem_all_foldr_push cs with ⟨hcurrent, hlater⟩
  rw [splitWords, WordCut.all] at hw
  split at hw
  · exact hlater w hw
  · rename_i hne
    rcases List.mem_cons.1 hw with rfl | hw
    · exact ⟨by simpa using hne, hcurrent⟩
    · exact hlater w hw

/-- A text falls apart into words. -/
theorem isWord_of_mem_words {s w : String} (hw : w ∈ words s) : IsWord w := by
  rcases List.mem_map.1 hw with ⟨cs, hcs, rfl⟩
  rcases forall_mem_splitWords hcs with ⟨hne, hfree⟩
  exact isWord_ofList hne hfree

/-! ## Blanks at the ends -/

/-- Blanks in front of a text do not change its words. -/
theorem splitWords_dropWhile (cs : List Char) :
    splitWords (cs.dropWhile isBlank) = splitWords cs := by
  induction cs with
  | nil => rfl
  | cons c cs ih =>
    by_cases hc : isBlank c = true
    · rw [List.dropWhile_cons_of_pos hc, ih, splitWords_cons_blank hc]
    · rw [List.dropWhile_cons_of_neg hc]

/-- A blank at the end of a text does not change its words. -/
theorem splitWords_concat {c : Char} (h : isBlank c = true) (cs : List Char) :
    splitWords (cs ++ [c]) = splitWords cs := by
  have hpush : WordCut.push c ⟨[], []⟩ = ⟨[], []⟩ := by
    simp [WordCut.push, WordCut.all, h]
  unfold splitWords
  rw [List.foldr_append, List.foldr_cons, List.foldr_nil, hpush]

/-- Blanks at the end of a text do not change its words. -/
theorem splitWords_reverse_dropWhile (cs : List Char) :
    splitWords (cs.dropWhile isBlank).reverse = splitWords cs.reverse := by
  induction cs with
  | nil => rfl
  | cons c cs ih =>
    by_cases hc : isBlank c = true
    · rw [List.dropWhile_cons_of_pos hc, ih, List.reverse_cons, splitWords_concat hc]
    · rw [List.dropWhile_cons_of_neg hc]

/-- Trimming a text does not change its words. -/
theorem words_strip (s : String) : words (strip s) = words s := by
  unfold words strip trim
  rw [String.toList_ofList, splitWords_reverse_dropWhile, List.reverse_reverse,
    splitWords_dropWhile]

/-- Trimming keeps a first character that is not blank. -/
theorem head?_trim_cons {c : Char} (h : isBlank c = false) (cs : List Char) :
    (trim (c :: cs)).head? = some c := by
  have hdrop : ∀ ds : List Char,
      ((ds ++ [c]).dropWhile isBlank).getLast? = some c := by
    intro ds
    induction ds with
    | nil => simp [h]
    | cons d ds ih =>
      by_cases hd : isBlank d = true
      · rw [List.cons_append, List.dropWhile_cons_of_pos hd, ih]
      · rw [List.cons_append, List.dropWhile_cons_of_neg hd, ← List.cons_append,
          List.getLast?_concat]
  rw [trim, List.dropWhile_cons_of_neg (by simp [h]), List.reverse_cons, List.head?_reverse, hdrop]

/-- A trimmed text begins with the first character that is not blank. -/
theorem head?_trim (cs : List Char) : (trim cs).head? = (cs.dropWhile isBlank).head? := by
  cases hdrop : cs.dropWhile isBlank with
  | nil =>
    rw [trim, hdrop]
    rfl
  | cons c rest =>
    have hc : isBlank c = false := by
      have hstop := List.head?_dropWhile_not isBlank cs
      rw [hdrop] at hstop
      simpa using hstop
    have hcons := head?_trim_cons hc rest
    rw [trim, List.dropWhile_cons_of_neg (by simp [hc])] at hcons
    rw [trim, hdrop, hcons, List.head?_cons]

/-- A text that begins and ends with characters that are not blank has nothing to be trimmed. -/
theorem trim_eq_self {cs : List Char} (hhead : ∀ c ∈ cs.head?, isBlank c = false)
    (hlast : ∀ c ∈ cs.getLast?, isBlank c = false) : trim cs = cs := by
  have hdrop : ∀ ds : List Char, (∀ c ∈ ds.head?, isBlank c = false) →
      ds.dropWhile isBlank = ds := by
    intro ds hds
    cases ds with
    | nil => rfl
    | cons d ds =>
      have hd : isBlank d = false := hds d rfl
      rw [List.dropWhile_cons_of_neg (by simp [hd])]
  rw [trim, hdrop cs hhead, hdrop cs.reverse (by rwa [List.head?_reverse]), List.reverse_reverse]

end Text
end TreebankGrammar
