import TreebankGrammar.Proofs.Treebank.Writing

/-!
# Which lines of a treebank are considered

Reading a treebank has to do with those lines only that are not skipped, and with no more of them than
are asked for.  They are read one after the other until one of them holds no tree, which is reported
with its number among all lines.

Main definitions:

- `Treebank.considered`: the lines that are considered, with their numbers.

Main results:

- Theorem `Treebank.read_eq_readNumbered`: only the considered lines are read.
- Theorem `Treebank.read_considered`: what a treebank gives, and where reading breaks off.
-/

namespace TreebankGrammar
namespace Treebank

/-! ## Considered lines -/

/-- The lines that are considered when so many trees are asked for: the first ones of the lines that are
not skipped, or all of them if the number is negative.  Lines are counted from one. -/
def considered (n : Int) (lines : List String) : List (String × Nat) :=
  if 0 ≤ n then (numberedLines 1 lines).take n.toNat else numberedLines 1 lines

theorem numberedLines_append (first : Nat) (lines later : List String) :
    numberedLines first (lines ++ later) =
      numberedLines first lines ++ numberedLines (first + lines.length) later := by
  simp [numberedLines, List.zipIdx_append]

theorem upTo_maxTrees {α : Type} (length n : Int) (xs : List α) :
    upTo (Limits.ofInts length n).maxTrees xs = if 0 ≤ n then xs.take n.toNat else xs := by
  unfold Limits.ofInts
  dsimp only
  split
  · rfl
  · rfl

/-- The lines that are considered do not change when lines are added after the last one asked for. -/
theorem considered_append {n : Int} (hn : 0 ≤ n) {lines : List String}
    (h : n ≤ (considered n lines).length) (later : List String) :
    considered n (lines ++ later) = considered n lines := by
  have hlength : n.toNat ≤ (numberedLines 1 lines).length := by
    rw [considered, if_pos hn, List.length_take] at h
    omega
  rw [considered, if_pos hn, considered, if_pos hn, numberedLines_append,
    List.take_append_of_le_length hlength]

/-! ## Reading considered lines -/

/-- A treebank is read as far as its considered lines go. -/
theorem read_eq_readNumbered (length n : Int) (lines : List String) :
    read (.ofInts length n) lines =
      readNumbered (Limits.ofInts length n).maxWords (considered n lines) := by
  rw [read, readFrom_eq_readNumbered, upTo_maxTrees]
  rfl

/-- Reading breaks off exactly if one of the lines holds no tree. -/
theorem exists_failure_readNumbered_iff (maxWords : Option Nat) {lines : List (String × Nat)} :
    (∃ e, (readNumbered maxWords lines).failure = some e) ↔
      ∃ line ∈ lines, ∃ cause, Tree.read line.1 = .error cause := by
  induction lines with
  | nil => simp [readNumbered]
  | cons line lines ih =>
    obtain ⟨text, number⟩ := line
    rw [List.exists_mem_cons_iff, ← ih, readNumbered]
    cases hread : Tree.read text with
    | error cause => simp
    | ok t => simp

/-- Lines hold trees, or there is a first one among them that holds none. -/
theorem holdTrees_or_exists_first (lines : List (String × Nat)) :
    (∃ ts, HoldTrees lines ts) ∨
      ∃ before text number after ts cause, lines = before ++ (text, number) :: after ∧
        HoldTrees before ts ∧ Tree.read text = .error cause := by
  induction lines with
  | nil => exact .inl ⟨[], .nil⟩
  | cons line lines ih =>
    obtain ⟨text, number⟩ := line
    cases hread : Tree.read text with
    | error cause => exact .inr ⟨[], text, number, lines, [], cause, rfl, .nil, hread⟩
    | ok t =>
      rcases ih with ⟨ts, hlines⟩ | ⟨before, text', number', after, ts, cause, rfl, hbefore, hbad⟩
      · exact .inl ⟨t :: ts, .cons hread hlines⟩
      · exact .inr ⟨(text, number) :: before, text', number', after, t :: ts, cause, rfl,
          .cons hread hbefore, hbad⟩

/-- Reading a treebank breaks off exactly if one of its considered lines holds no tree. -/
theorem exists_failure_read_iff (length n : Int) {lines : List String} :
    (∃ e, (read (.ofInts length n) lines).failure = some e) ↔
      ∃ line ∈ considered n lines, ∃ cause, Tree.read line.1 = .error cause := by
  rw [read_eq_readNumbered, exists_failure_readNumbered_iff]

/-! ## What a treebank gives -/

/-- The trees with at most so many words, or all of them if the number is not positive. -/
def shortEnough (length : Int) (ts : List Tree) : List Tree :=
  if length ≤ 0 then ts else ts.filter fun t => (t.leaves.length : Int) ≤ length

/-- If all considered lines hold trees, a treebank gives those that are short enough.  Otherwise it
gives those of the lines before the first one that holds no tree, and reading breaks off with the
number of this line among all lines.  Which lines are considered does not depend on the words in
their trees, nor on what comes after the last one that is asked for. -/
theorem read_considered (length n : Int) (lines : List String) :
    ((∃ ts, HoldTrees (considered n lines) ts ∧
        (read (.ofInts length n) lines).trees = shortEnough length ts ∧
        (read (.ofInts length n) lines).failure = none) ∨
      ∃ before text number after ts cause,
        considered n lines = before ++ (text, number) :: after ∧
        HoldTrees before ts ∧ Tree.read text = .error cause ∧
        (read (.ofInts length n) lines).trees = shortEnough length ts ∧
        (read (.ofInts length n) lines).failure = some ⟨number, cause⟩) ∧
    ∀ later, 0 ≤ n → n ≤ (considered n lines).length →
      read (.ofInts length n) (lines ++ later) = read (.ofInts length n) lines := by
  have hshort : ∀ ts, shortTrees (Limits.ofInts length n).maxWords ts = shortEnough length ts :=
    shortTrees_ofInts length n
  constructor
  · rw [read_eq_readNumbered]
    rcases holdTrees_or_exists_first (considered n lines) with
      ⟨ts, hlines⟩ | ⟨before, text, number, after, ts, cause, hcut, hbefore, hbad⟩
    · left
      obtain ⟨hfailure, htrees⟩ := readNumbered_of_holdTrees hlines
      exact ⟨ts, hlines, htrees.trans (hshort ts), hfailure⟩
    · right
      obtain ⟨htrees, hfailure⟩ := readNumbered_append hbefore ((text, number) :: after)
      have hstop : readNumbered (Limits.ofInts length n).maxWords ((text, number) :: after) =
          { failure := some ⟨number, cause⟩ } := by
        rw [readNumbered, hbad]
      refine ⟨before, text, number, after, ts, cause, hcut, hbefore, hbad, ?_, ?_⟩
      · rw [hcut, htrees, hshort, hstop, List.append_nil]
      · rw [hcut, hfailure, hstop]
  · intro later hn hlength
    rw [read_eq_readNumbered, read_eq_readNumbered, considered_append hn hlength]

end Treebank
end TreebankGrammar
