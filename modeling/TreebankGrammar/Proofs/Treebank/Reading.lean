import Mathlib.Data.List.Forall2
import TreebankGrammar.Treebank

/-!
# The lines of a treebank that are read

Which lines of a treebank hold trees, and which of the trees are wanted.  The first ones are taken, and
of these the ones with too many words are left out.  Lines that are skipped only count for the numbers
of those that come after them, so that reading is a walk over numbered lines.

Main definitions:

- `Treebank.treeLines`: the stripped lines that are not skipped.
- `Treebank.Limits.select`: the wanted ones among trees.
- `Treebank.numberedLines`: the lines that are not skipped, with their numbers.
- `Treebank.readNumbered`: reads numbered lines, none of which is skipped.

Main results:

- Theorem `Treebank.readFrom_eq_readNumbered`: no line is read that is skipped or not asked for.
- Theorem `Treebank.readNumbered_append`: lines that hold trees are read before all later ones.
- Theorem `Treebank.read_of_treeLines`: what is read when every line that is not skipped holds a tree.
-/

namespace TreebankGrammar
namespace Treebank

/-- The stripped lines that are not skipped. -/
def treeLines (lines : List String) : List String :=
  (lines.map Text.strip).filter fun line => !isSkipped line

/-- The first trees, so many as there is a bound for. -/
def firstTrees (maxTrees : Option Nat) (ts : List Tree) : List Tree :=
  match maxTrees with
  | some bound => ts.take bound
  | none => ts

/-- The trees with no more words than a bound allows. -/
def shortTrees (maxWords : Option Nat) (ts : List Tree) : List Tree :=
  ts.filter fun t => !exceeds t.yield.length maxWords

/-- The wanted trees: the first ones, without those with too many words. -/
def Limits.select (limits : Limits) (ts : List Tree) : List Tree :=
  shortTrees limits.maxWords (firstTrees limits.maxTrees ts)

theorem treeLines_cons (line : String) (rest : List String) :
    treeLines (line :: rest) =
      if isSkipped (Text.strip line) then treeLines rest
      else Text.strip line :: treeLines rest := by
  rw [treeLines, List.map_cons, List.filter_cons]
  cases isSkipped (Text.strip line) with
  | true => rfl
  | false => rfl

/-! ## Numbered lines -/

/-- The stripped lines that are not skipped, each with its number, where the first line has the given
number. -/
def numberedLines (first : Nat) (lines : List String) : List (String × Nat) :=
  ((lines.map Text.strip).zipIdx first).filter fun line => !isSkipped line.1

/-- The first elements of a list, so many as there is a bound for. -/
def upTo {α : Type} (bound : Option Nat) (xs : List α) : List α :=
  match bound with
  | some count => xs.take count
  | none => xs

theorem numberedLines_cons (first : Nat) (line : String) (rest : List String) :
    numberedLines first (line :: rest) =
      if isSkipped (Text.strip line) then numberedLines (first + 1) rest
      else (Text.strip line, first) :: numberedLines (first + 1) rest := by
  rw [numberedLines, List.map_cons, List.zipIdx_cons, List.filter_cons]
  cases isSkipped (Text.strip line) with
  | true => rfl
  | false => rfl

/-- The numbered lines are the lines that are not skipped. -/
theorem map_fst_numberedLines (first : Nat) (lines : List String) :
    (numberedLines first lines).map Prod.fst = treeLines lines := by
  induction lines generalizing first with
  | nil => rfl
  | cons line rest ih =>
    rw [numberedLines_cons, treeLines_cons]
    split
    · exact ih (first + 1)
    · rw [List.map_cons, ih]

theorem upTo_cons {α : Type} {bound : Option Nat} (h : bound ≠ some 0) (x : α) (xs : List α) :
    upTo bound (x :: xs) = x :: upTo (bound.map (· - 1)) xs := by
  cases bound with
  | none => rfl
  | some count =>
    cases count with
    | zero => exact absurd rfl h
    | succ count => rfl

/-! ## Reading numbered lines -/

/-- Reads lines none of which is skipped up to the first that holds no tree. -/
def readNumbered (maxWords : Option Nat) : List (String × Nat) → Reading
  | [] => {}
  | (text, number) :: rest =>
    match Tree.read text with
    | .error cause => { failure := some ⟨number, cause⟩ }
    | .ok tree => (readNumbered maxWords rest).prepend maxWords number tree

/-- Each of the lines holds the tree that stands at its place. -/
def HoldTrees (lines : List (String × Nat)) (ts : List Tree) : Prop :=
  List.Forall₂ (fun line t => Tree.read line.1 = .ok t) lines ts

/-- Only the lines that are not skipped are read, and no more of them than may still hold a tree. -/
theorem readFrom_eq_readNumbered (maxWords remaining : Option Nat) (line : Nat)
    (lines : List String) :
    readFrom maxWords remaining line lines =
      readNumbered maxWords (upTo remaining (numberedLines line lines)) := by
  induction lines generalizing remaining line with
  | nil =>
    cases remaining with
    | none => rfl
    | some count =>
      change readNumbered maxWords [] = readNumbered maxWords (List.take count [])
      rw [List.take_nil]
  | cons text rest ih =>
    rw [readFrom, numberedLines_cons]
    by_cases hremaining : remaining = some 0
    · rw [if_pos hremaining, hremaining]
      rfl
    · rw [if_neg hremaining]
      split
      · exact ih remaining (line + 1)
      · rw [upTo_cons hremaining, readNumbered]
        cases Tree.read (Text.strip text) with
        | error cause => rfl
        | ok t =>
          dsimp only
          rw [ih]

@[simp]
theorem failure_prepend (maxWords : Option Nat) (number : Nat) (t : Tree) (later : Reading) :
    (later.prepend maxWords number t).failure = later.failure := by
  unfold Reading.prepend
  dsimp only
  split
  · rfl
  · rfl

/-- Lines that hold trees give those that are short enough, and then reading goes on. -/
theorem readNumbered_append {maxWords : Option Nat} {lines : List (String × Nat)} {ts : List Tree}
    (h : HoldTrees lines ts) (later : List (String × Nat)) :
    (readNumbered maxWords (lines ++ later)).trees =
        shortTrees maxWords ts ++ (readNumbered maxWords later).trees ∧
      (readNumbered maxWords (lines ++ later)).failure = (readNumbered maxWords later).failure := by
  induction h with
  | nil => exact ⟨rfl, rfl⟩
  | @cons line t lines ts hread hlines ih =>
    obtain ⟨htrees, hfailure⟩ := ih
    rw [List.cons_append, readNumbered, hread, shortTrees, List.filter_cons]
    unfold Reading.prepend
    dsimp only
    cases exceeds t.yield.length maxWords with
    | true => exact ⟨htrees, hfailure⟩
    | false => exact ⟨congrArg (t :: ·) htrees, hfailure⟩

/-- The trees of numbered lines are read from them. -/
theorem exists_read_of_mem_readNumbered {maxWords : Option Nat} {lines : List (String × Nat)}
    {t : Tree} (h : t ∈ (readNumbered maxWords lines).trees) :
    ∃ line ∈ lines, Tree.read line.1 = .ok t := by
  induction lines with
  | nil => cases h
  | cons line lines ih =>
    rw [List.exists_mem_cons_iff]
    rw [readNumbered] at h
    cases hread : Tree.read line.1 with
    | error cause =>
      rw [hread] at h
      cases h
    | ok u =>
      rw [hread] at h
      unfold Reading.prepend at h
      dsimp only at h
      split at h
      · exact .inr (ih h)
      · rcases List.mem_cons.1 h with rfl | h
        · exact .inl rfl
        · exact .inr (ih h)

/-- The trees of a treebank are read from texts. -/
theorem exists_read_of_mem {limits : Limits} {lines : List String} {t : Tree}
    (h : t ∈ (read limits lines).trees) : ∃ s, Tree.read s = .ok t := by
  rw [read, readFrom_eq_readNumbered] at h
  obtain ⟨line, -, hread⟩ := exists_read_of_mem_readNumbered h
  exact ⟨line.1, hread⟩

/-- The first lines hold the first trees. -/
theorem HoldTrees.upTo {lines : List (String × Nat)} {ts : List Tree} (h : HoldTrees lines ts)
    (maxTrees : Option Nat) : HoldTrees (upTo maxTrees lines) (firstTrees maxTrees ts) := by
  cases maxTrees with
  | none => exact h
  | some count => exact List.forall₂_take count h

/-- Lines that hold trees are read to the end. -/
theorem readNumbered_of_holdTrees {maxWords : Option Nat} {lines : List (String × Nat)}
    {ts : List Tree} (h : HoldTrees lines ts) :
    (readNumbered maxWords lines).failure = none ∧
      (readNumbered maxWords lines).trees = shortTrees maxWords ts := by
  obtain ⟨htrees, hfailure⟩ := readNumbered_append h []
  rw [List.append_nil] at htrees hfailure
  refine ⟨hfailure, ?_⟩
  rw [htrees, readNumbered, List.append_nil]

/-- When every line that is not skipped holds a tree, reading does not break off and gives the wanted
ones among the trees. -/
theorem read_of_treeLines (limits : Limits) {lines : List String} {ts : List Tree}
    (h : List.Forall₂ (fun line t => Tree.read line = .ok t) (treeLines lines) ts) :
    (read limits lines).failure = none ∧ (read limits lines).trees = limits.select ts := by
  rw [← map_fst_numberedLines 1, List.forall₂_map_left_iff] at h
  rw [read, readFrom_eq_readNumbered]
  exact readNumbered_of_holdTrees (HoldTrees.upTo h limits.maxTrees)

/-! ## Lines that are asked for -/

/-- A line is asked for behind others only if reading these does not break off. -/
theorem failure_readFrom_of_asksFrom {remaining : Option Nat} {lines : List String}
    (h : asksFrom remaining lines = true) (maxWords : Option Nat) (line : Nat) :
    (readFrom maxWords remaining line lines).failure = none := by
  induction lines generalizing remaining line with
  | nil => rfl
  | cons text rest ih =>
    rw [asksFrom] at h
    rw [readFrom]
    split
    · rfl
    · rename_i hremaining
      rw [if_neg hremaining] at h
      cases hskipped : isSkipped (Text.strip text) with
      | true =>
        rw [hskipped] at h
        exact ih h (line + 1)
      | false =>
        rw [hskipped] at h
        cases hread : Tree.read (Text.strip text) with
        | error cause => simp [hread] at h
        | ok t =>
          simp only [hread, Bool.false_eq_true, if_false] at h ⊢
          rw [failure_prepend]
          exact ih h (line + 1)

/-- The same for a whole treebank. -/
theorem failure_read_of_asksBeyond {limits : Limits} {lines : List String}
    (h : asksBeyond limits lines = true) : (read limits lines).failure = none :=
  failure_readFrom_of_asksFrom h limits.maxWords 1

end Treebank
end TreebankGrammar
