import Mathlib.Data.List.TakeWhile
import TreebankGrammar.Proofs.Text.Words
import TreebankGrammar.Tree.Basic
import TreebankGrammar.Tree.Token

/-!
# Token sequences

Which sequence of tokens a text is, said by the characters alone: blanks are passed over, a round
bracket is a token of its own, and a word goes on as long as neither a blank nor a bracket comes.
The tokens of a tree are those of its bracketed form.

Main definitions:

- `Token.Splits`: a text falls apart into a sequence of tokens.
- `Tree.tokens`: the tokens of the bracketed form of a tree.

Main results:

- Theorem `Token.splits_iff`: a text falls apart into its tokens and into no other sequence.
-/

namespace TreebankGrammar
namespace Token

/-! ## Splitting a text -/

/-- Whether a character may stand in a word of bracketed text. -/
def IsPlain (c : Char) : Prop :=
  Text.isBlank c = false ∧ isBracket c = false

instance : DecidablePred IsPlain := fun c =>
  inferInstanceAs (Decidable (Text.isBlank c = false ∧ isBracket c = false))

/-- A text falls apart into a sequence of tokens: blanks separate tokens, each round bracket is a
token, and a word ends only where the text ends or a blank or a bracket follows. -/
inductive Splits : List Char → List Token → Prop
  | nil : Splits [] []
  | blank {c : Char} {cs : List Char} {tokens : List Token} (hc : Text.isBlank c = true)
      (h : Splits cs tokens) : Splits (c :: cs) tokens
  | opening {cs : List Char} {tokens : List Token} (h : Splits cs tokens) :
      Splits ('(' :: cs) (.opening :: tokens)
  | closing {cs : List Char} {tokens : List Token} (h : Splits cs tokens) :
      Splits (')' :: cs) (.closing :: tokens)
  | word {w cs : List Char} {tokens : List Token} (hne : w ≠ []) (hw : ∀ c ∈ w, IsPlain c)
      (hend : ∀ c ∈ cs.head?, ¬IsPlain c) (h : Splits cs tokens) :
      Splits (w ++ cs) (.word (String.ofList w) :: tokens)

/-- The tokens of a list of characters, as they are computed. -/
def ofCharList (cs : List Char) : List Token :=
  (Text.splitWords (spaceBrackets cs)).map ofChars

theorem ofText_eq (s : String) : ofText s = ofCharList s.toList :=
  rfl

theorem ofCharList_blank {c : Char} (hc : Text.isBlank c = true) (cs : List Char) :
    ofCharList (c :: cs) = ofCharList cs := by
  have hbracket : isBracket c = false := by
    rw [isBracket, Bool.or_eq_false_iff, decide_eq_false_iff_not, decide_eq_false_iff_not]
    constructor
    · rintro rfl
      revert hc
      decide
    · rintro rfl
      revert hc
      decide
  simp [ofCharList, spaceBrackets, hbracket, hc]

/-- A bracket is cut off as a token of its own, whatever stands around it. -/
theorem ofCharList_bracket {c : Char} (hc : isBracket c = true) (hfree : Text.isBlank c = false)
    (cs : List Char) : ofCharList (c :: cs) = ofChars [c] :: ofCharList cs := by
  have hspace : Text.isBlank ' ' = true := by decide
  have hspaced : spaceBrackets (c :: cs) = ' ' :: ([c] ++ ' ' :: spaceBrackets cs) := by
    simp [spaceBrackets, hc]
  have hcut := Text.splitWords_append (List.cons_ne_nil c [])
    (Text.blankFree_cons.2 ⟨hfree, by simp [Text.BlankFree]⟩)
    (Text.atBlank_cons hspace (spaceBrackets cs))
  rw [ofCharList, hspaced, Text.splitWords_cons_blank hspace, hcut,
    Text.splitWords_cons_blank hspace]
  rfl

/-- Where no plain character comes, a text with spaced brackets ends or goes on with a blank. -/
theorem atBlank_spaceBrackets {cs : List Char} (h : ∀ c ∈ cs.head?, ¬IsPlain c) :
    Text.AtBlank (spaceBrackets cs) := by
  cases cs with
  | nil => exact Text.atBlank_nil
  | cons c cs =>
    have hc : ¬IsPlain c := h c rfl
    by_cases hbracket : isBracket c = true
    · have hspaced := Text.atBlank_cons (c := ' ') (by decide) (c :: ' ' :: spaceBrackets cs)
      simpa [spaceBrackets, hbracket] using hspaced
    · have hblank : Text.isBlank c = true := by
        by_contra hnot
        exact hc ⟨by simpa using hnot, by simpa using hbracket⟩
      simpa [spaceBrackets, hbracket] using Text.atBlank_cons hblank (spaceBrackets cs)

/-- Plain characters are left as they are when brackets are spaced. -/
theorem spaceBrackets_append {w : List Char} (hw : ∀ c ∈ w, IsPlain c) (cs : List Char) :
    spaceBrackets (w ++ cs) = w ++ spaceBrackets cs := by
  induction w with
  | nil => rfl
  | cons c w ih =>
    rcases List.forall_mem_cons.1 hw with ⟨hc, hw⟩
    have hrest := ih hw
    simp only [spaceBrackets] at hrest ⊢
    simp [hc.2, hrest]

/-- The token of plain characters is a word. -/
theorem ofChars_eq_word {w : List Char} (hw : ∀ c ∈ w, IsPlain c) :
    ofChars w = .word (String.ofList w) := by
  have hopening : w ≠ ['('] := by
    rintro rfl
    exact absurd (hw '(' (by simp)) (by decide)
  have hclosing : w ≠ [')'] := by
    rintro rfl
    exact absurd (hw ')' (by simp)) (by decide)
  rw [ofChars, if_neg hopening, if_neg hclosing]

/-- Plain characters up to a blank, a bracket or the end are cut off as a word. -/
theorem ofCharList_word {w cs : List Char} (hne : w ≠ []) (hw : ∀ c ∈ w, IsPlain c)
    (hend : ∀ c ∈ cs.head?, ¬IsPlain c) :
    ofCharList (w ++ cs) = .word (String.ofList w) :: ofCharList cs := by
  have hcut := Text.splitWords_append hne (fun c hc => (hw c hc).1) (atBlank_spaceBrackets hend)
  rw [ofCharList, spaceBrackets_append hw, hcut, List.map_cons, ofChars_eq_word hw]
  rfl

/-- A text falls apart into no other sequence than its tokens. -/
theorem Splits.eq_ofCharList {cs : List Char} {tokens : List Token} (h : Splits cs tokens) :
    tokens = ofCharList cs := by
  induction h with
  | nil => rfl
  | blank hc _ ih => rw [ofCharList_blank hc, ih]
  | opening _ ih =>
    rw [ofCharList_bracket (by decide) (by decide), ih]
    rfl
  | closing _ ih =>
    rw [ofCharList_bracket (by decide) (by decide), ih]
    rfl
  | word hne hw hend _ ih => rw [ofCharList_word hne hw hend, ih]

/-- A text that begins with a plain character begins with a word that is as long as possible. -/
theorem exists_word_append {c : Char} (hc : IsPlain c) (rest : List Char) :
    ∃ w tail, c :: rest = w ++ tail ∧ w ≠ [] ∧ (∀ d ∈ w, IsPlain d) ∧
      (∀ d ∈ tail.head?, ¬IsPlain d) ∧ tail.length ≤ rest.length := by
  refine ⟨c :: rest.takeWhile (IsPlain ·), rest.dropWhile (IsPlain ·), ?_, by simp, ?_, ?_,
    List.length_dropWhile_le _ rest⟩
  · rw [List.cons_append, List.takeWhile_append_dropWhile]
  · intro d hd
    rcases List.mem_cons.1 hd with rfl | hd
    · exact hc
    · simpa using List.mem_takeWhile_imp hd
  · intro d hd
    have hstop := List.head?_dropWhile_not (fun c => decide (IsPlain c)) rest
    rw [Option.mem_def] at hd
    rw [hd] at hstop
    simpa using hstop

/-- Every text falls apart into tokens. -/
theorem exists_splits (cs : List Char) : ∃ tokens, Splits cs tokens := by
  -- A word takes several characters at once, so the induction is on the length.
  induction hn : cs.length using Nat.strongRecOn generalizing cs with
  | ind n ih =>
    cases cs with
    | nil => exact ⟨[], .nil⟩
    | cons c rest =>
      rw [List.length_cons] at hn
      by_cases hblank : Text.isBlank c = true
      · rcases ih rest.length (by omega) rest rfl with ⟨tokens, h⟩
        exact ⟨tokens, .blank hblank h⟩
      · by_cases hbracket : isBracket c = true
        · rcases ih rest.length (by omega) rest rfl with ⟨tokens, h⟩
          rw [isBracket, Bool.or_eq_true, decide_eq_true_iff, decide_eq_true_iff] at hbracket
          rcases hbracket with rfl | rfl
          · exact ⟨_, .opening h⟩
          · exact ⟨_, .closing h⟩
        · have hc : IsPlain c := ⟨by simpa using hblank, by simpa using hbracket⟩
          rcases exists_word_append hc rest with ⟨w, tail, hcut, hne, hw, hend, hle⟩
          rcases ih tail.length (by omega) tail rfl with ⟨tokens, h⟩
          rw [hcut]
          exact ⟨_, .word hne hw hend h⟩

/-- A text falls apart into its tokens and into no other sequence. -/
theorem splits_iff (s : String) (tokens : List Token) :
    Splits s.toList tokens ↔ tokens = ofText s := by
  constructor
  · exact Splits.eq_ofCharList
  · rintro rfl
    rcases exists_splits s.toList with ⟨tokens, h⟩
    rw [ofText_eq, ← h.eq_ofCharList]
    exact h

end Token

/-! ## Tokens of a tree -/

namespace Tree

mutual

/-- The tokens of the bracketed form of a tree: the label of a terminal is a word, and any other
node has its label and its children between brackets. -/
def tokens : Tree → List Token
  | .node l [] => [.word l]
  | .node l (c :: cs) => .opening :: .word l :: (tokensAll (c :: cs) ++ [.closing])

/-- The tokens of a sequence of trees. -/
def tokensAll : List Tree → List Token
  | [] => []
  | t :: ts => t.tokens ++ tokensAll ts

end

theorem tokensAll_append (ts us : List Tree) :
    tokensAll (ts ++ us) = tokensAll ts ++ tokensAll us := by
  induction ts with
  | nil => rfl
  | cons t ts ih => simp [tokensAll, ih]

/-- The tokens of a node with children. -/
theorem tokens_node {l : String} {cs : List Tree} (h : cs ≠ []) :
    (node l cs).tokens = .opening :: .word l :: (tokensAll cs ++ [.closing]) := by
  cases cs with
  | nil => exact absurd rfl h
  | cons c cs => rfl

end Tree
end TreebankGrammar
