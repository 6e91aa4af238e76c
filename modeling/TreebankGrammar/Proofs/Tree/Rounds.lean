import Mathlib.Algebra.BigOperators.Group.List.Basic
import Mathlib.Algebra.Ring.Nat
import Mathlib.Logic.Function.Iterate
import TreebankGrammar.Proofs.Tree.Traversals

/-!
# Traversals in rounds

A tree of any depth can be traversed with a stack.  In each round the entry on top is taken off, what
has been found so far is brought up to date, and other entries may be put in its place.  The text, the
words and the depth of a tree are found in this way with three kinds of entries: nodes with the
position of their next child, nodes alone, and nodes with their level.

Main definitions:

- `Stack.round`: one round of a traversal.
- `Stack.Settles`: how many rounds an entry takes, and what comes of it.
- `Tree.writeNext`, `Tree.gatherNext` and `Tree.deepenNext`: what a round does with the entry on top.

Main results:

- Theorem `Stack.Settles.iterate_round`: a traversal ends after the rounds that its entries take.
- Theorem `Tree.traversals_by_recursion`: the text, the words and the depth of a tree are what
  recursion on the tree says, and what the traversals find.
-/

namespace TreebankGrammar

/-! ## Stacks -/

namespace Stack

variable {α β : Type}

/-- One round: other entries, the first of them on top, are put in the place of the entry on top.
Nothing happens any more when the stack is empty. -/
def round (next : α → β → List α × β) : List α × β → List α × β
  | ([], found) => ([], found)
  | (top :: rest, found) => ((next top found).1 ++ rest, (next top found).2)

/-- What comes of the entries of a stack, from the top on. -/
def outcome (effect : α → β → β) (found : β) (stack : List α) : β :=
  stack.foldl (fun found entry => effect entry found) found

/-- How many rounds go by until an entry and all that is put in its place are gone, and what has been
found then. -/
structure Settles (next : α → β → List α × β) (rounds : α → Nat) (effect : α → β → β) : Prop where
  rounds_eq : ∀ top found, rounds top = 1 + ((next top found).1.map rounds).sum
  effect_eq : ∀ top found, effect top found = outcome effect (next top found).2 (next top found).1

/-- A traversal ends after the rounds that its entries take, and finds what comes of them. -/
theorem Settles.iterate_round {next : α → β → List α × β} {rounds : α → Nat}
    {effect : α → β → β} (h : Settles next rounds effect) (stack : List α) (found : β) :
    (round next)^[(stack.map rounds).sum] (stack, found) = ([], outcome effect found stack) := by
  -- The number of rounds that are left falls by one in each round, however the stack grows.
  induction hn : (stack.map rounds).sum generalizing stack found with
  | zero =>
    cases stack with
    | nil => rfl
    | cons top rest =>
      rw [List.map_cons, List.sum_cons, h.rounds_eq top found] at hn
      omega
  | succ n ih =>
    cases stack with
    | nil => cases hn
    | cons top rest =>
      have hleft : (((next top found).1 ++ rest).map rounds).sum = n := by
        rw [List.map_cons, List.sum_cons, h.rounds_eq top found] at hn
        rw [List.map_append, List.sum_append]
        omega
      rw [Function.iterate_succ_apply, round, ih _ _ hleft]
      simp only [outcome, List.foldl_append, List.foldl_cons, h.effect_eq top found]

end Stack

namespace Tree

/-! ## Writing the text -/

/-- What has been written when the children from a position on are still to come: before the first of
them comes the label. -/
def opened (t : Tree) (position : Nat) (written : String) : String :=
  if position = 0 then written ++ "(" ++ t.label else written

/-- Writes on at a node with the position of its next child.  A child without children is written at
once, and any other child comes on top. -/
def writeNext (entry : Tree × Nat) (written : String) : List (Tree × Nat) × String :=
  let (t, position) := entry
  match t.children[position]? with
  | none => ([], t.opened position written ++ ")")
  | some child =>
    if child.isTerminal then
      ([(t, position + 1)], t.opened position written ++ " " ++ child.label)
    else ([(child, 0), (t, position + 1)], t.opened position written ++ " ")

mutual

/-- The number of rounds in which a tree is written; a terminal is written in a round of its parent. -/
def writeRounds : Tree → Nat
  | .node _ [] => 0
  | .node _ (c :: cs) => 1 + writeRoundsAll (c :: cs)

/-- The number of rounds in which children of a node are written. -/
def writeRoundsAll : List Tree → Nat
  | [] => 0
  | t :: ts => 1 + t.writeRounds + writeRoundsAll ts

end

/-- The text after the rest of a node has been written, from the position of its next child on. -/
def writtenFrom (entry : Tree × Nat) (written : String) : String :=
  entry.1.opened entry.2 written ++ bracketedItems (entry.1.children.drop entry.2) ++ ")"

section Writing

variable {t : Tree} {position : Nat} {later : List Tree} (written : String)

theorem getElem?_children_of_drop {child : Tree}
    (h : t.children.drop position = child :: later) : t.children[position]? = some child := by
  rw [← List.head?_drop, h, List.head?_cons]

theorem drop_succ_of_drop {child : Tree} (h : t.children.drop position = child :: later) :
    t.children.drop (position + 1) = later := by
  rw [← List.tail_drop, h, List.tail_cons]

theorem writeNext_of_drop_eq_nil (h : t.children.drop position = []) :
    writeNext (t, position) written = ([], t.opened position written ++ ")") := by
  have hnone : t.children[position]? = none := by rw [← List.head?_drop, h, List.head?_nil]
  rw [writeNext, hnone]

theorem writeNext_of_leaf {l : String} (h : t.children.drop position = node l [] :: later) :
    writeNext (t, position) written =
      ([(t, position + 1)], t.opened position written ++ " " ++ l) := by
  rw [writeNext, getElem?_children_of_drop h]
  rfl

theorem writeNext_of_inner {l : String} {c : Tree} {cs : List Tree}
    (h : t.children.drop position = node l (c :: cs) :: later) :
    writeNext (t, position) written =
      ([(node l (c :: cs), 0), (t, position + 1)], t.opened position written ++ " ") := by
  rw [writeNext, getElem?_children_of_drop h]
  rfl

end Writing

/-- A node takes one round for each of its children that is left, the rounds of these children, and one
round for the closing bracket. -/
theorem settles_writeNext :
    Stack.Settles writeNext (fun entry => 1 + writeRoundsAll (entry.1.children.drop entry.2))
      writtenFrom where
  rounds_eq := by
    rintro ⟨t, position⟩ written
    dsimp only
    match h : t.children.drop position with
    | [] =>
      rw [writeNext_of_drop_eq_nil written h]
      rfl
    | .node l [] :: later =>
      rw [writeNext_of_leaf written h]
      simp [writeRoundsAll, writeRounds, drop_succ_of_drop h]
    | .node l (c :: cs) :: later =>
      rw [writeNext_of_inner written h]
      simp only [List.map_cons, List.map_nil, List.sum_cons, List.sum_nil, List.drop_zero,
        children_node, drop_succ_of_drop h]
      rw [writeRoundsAll, writeRounds]
      omega
  effect_eq := by
    rintro ⟨t, position⟩ written
    rw [writtenFrom]
    dsimp only
    match h : t.children.drop position with
    | [] =>
      rw [writeNext_of_drop_eq_nil written h]
      simp [Stack.outcome, bracketedItems]
    | .node l [] :: later =>
      rw [writeNext_of_leaf written h]
      simp [Stack.outcome, writtenFrom, opened, drop_succ_of_drop h, bracketedItems, bracketed,
        String.append_assoc]
    | .node l (c :: cs) :: later =>
      rw [writeNext_of_inner written h]
      simp [Stack.outcome, writtenFrom, opened, drop_succ_of_drop h, bracketedItems, bracketed,
        String.append_assoc]

/-! ## Gathering the words -/

/-- Takes the word of a terminal, or puts the children of a node in its place. -/
def gatherNext (t : Tree) (words : List String) : List Tree × List String :=
  if t.isTerminal then ([], words ++ [t.label]) else (t.children, words)

theorem outcome_leaves (words : List String) (ts : List Tree) :
    Stack.outcome (fun t words => words ++ t.leaves) words ts = words ++ leavesAll ts := by
  induction ts generalizing words with
  | nil => simp [Stack.outcome, leavesAll]
  | cons t ts ih =>
    have hstep : Stack.outcome (fun t words => words ++ t.leaves) words (t :: ts) =
        Stack.outcome (fun t words => words ++ t.leaves) (words ++ t.leaves) ts := rfl
    rw [hstep, ih, leavesAll, List.append_assoc]

theorem sizeAll_eq_sum (ts : List Tree) : sizeAll ts = (ts.map size).sum := by
  induction ts with
  | nil => rfl
  | cons t ts ih => rw [sizeAll, ih, List.map_cons, List.sum_cons]

/-- Each node takes one round. -/
theorem settles_gatherNext :
    Stack.Settles gatherNext size (fun t words => words ++ t.leaves) where
  rounds_eq := by
    rintro ⟨l, _ | ⟨c, cs⟩⟩ words
    · rfl
    · rw [size, sizeAll_eq_sum]
      rfl
  effect_eq := by
    rintro ⟨l, _ | ⟨c, cs⟩⟩ words
    · rfl
    · rw [leaves]
      exact (outcome_leaves words (c :: cs)).symm

/-! ## Finding the depth -/

/-- Compares the level of a terminal with the greatest one so far, or puts the children of a node in
its place, one level deeper and the last of them on top. -/
def deepenNext (entry : Tree × Nat) (best : Nat) : List (Tree × Nat) × Nat :=
  let (t, level) := entry
  if t.isTerminal then ([], max best level)
  else ((t.children.map fun child => (child, level + 1)).reverse, best)

theorem outcome_height (best : Nat) (entries : List (Tree × Nat)) :
    Stack.outcome (fun entry best => max best (entry.2 + entry.1.height)) best entries =
      max best (reach entries) := by
  induction entries generalizing best with
  | nil => simp [Stack.outcome, reach]
  | cons entry entries ih =>
    have hstep : Stack.outcome (fun entry best => max best (entry.2 + entry.1.height)) best
          (entry :: entries) =
        Stack.outcome (fun entry best => max best (entry.2 + entry.1.height))
          (max best (entry.2 + entry.1.height)) entries := rfl
    rw [hstep, ih, reach, Nat.max_assoc]

/-- Which tree is on top does not matter for the greatest level. -/
theorem reach_reverse (entries : List (Tree × Nat)) : reach entries.reverse = reach entries := by
  induction entries with
  | nil => rfl
  | cons entry entries ih =>
    rw [List.reverse_cons, reach_append, ih, reach, reach, reach]
    omega

/-- Each node takes one round. -/
theorem settles_deepenNext :
    Stack.Settles deepenNext (fun entry => entry.1.size)
      (fun entry best => max best (entry.2 + entry.1.height)) where
  rounds_eq := by
    rintro ⟨⟨l, _ | ⟨c, cs⟩⟩, level⟩ best
    · rfl
    · have hnext : (deepenNext (node l (c :: cs), level) best).1 =
          ((c :: cs).map fun child => (child, level + 1)).reverse := rfl
      rw [hnext, List.map_reverse, List.sum_reverse, List.map_map]
      rw [size, sizeAll_eq_sum]
      rfl
  effect_eq := by
    rintro ⟨⟨l, _ | ⟨c, cs⟩⟩, level⟩ best
    · rfl
    · have hnext : deepenNext (node l (c :: cs), level) best =
          (((c :: cs).map fun child => (child, level + 1)).reverse, best) := rfl
      rw [hnext, outcome_height, reach_reverse, reach_children, height]
      simp only [Nat.add_assoc]

/-! ## Recursion on the tree -/

theorem bracketedItems_eq_join (ts : List Tree) :
    bracketedItems ts = String.join (ts.map fun t => " " ++ t.text) := by
  induction ts with
  | nil => rfl
  | cons t ts ih => rw [bracketedItems, ih, List.map_cons, String.join_cons, text_eq_bracketed]

theorem leavesAll_eq_flatMap (ts : List Tree) : leavesAll ts = ts.flatMap yield := by
  induction ts with
  | nil => rfl
  | cons t ts ih => rw [leavesAll, ih, List.flatMap_cons, yield_eq_leaves]

/-- The height of a sequence of trees is the greatest depth among them. -/
theorem max?_map_depth (t : Tree) (ts : List Tree) :
    ((t :: ts).map depth).max? = some (heightAll (t :: ts)) := by
  induction ts generalizing t with
  | nil => simp [depth_eq_height, heightAll]
  | cons u ts ih =>
    rw [List.map_cons, List.max?_cons, ih u, heightAll, depth_eq_height]
    rfl

/-- The text, the words and the depth of a tree are what recursion on the tree says: those of a terminal
are its label, its label alone, and zero; those of any other node are put together from those of its
children.  The traversals with a stack end, after numbers of rounds that recursion on the tree
gives as well, and find the same. -/
theorem traversals_by_recursion :
    (∀ l, (node l []).text = l ∧ (node l []).yield = [l] ∧ (node l []).depth = 0) ∧
    (∀ l c cs,
      (node l (c :: cs)).text =
        "(" ++ l ++ String.join ((c :: cs).map fun child => " " ++ child.text) ++ ")" ∧
      (node l (c :: cs)).yield = (c :: cs).flatMap yield ∧
      ∃ greatest, ((c :: cs).map depth).max? = some greatest ∧
        (node l (c :: cs)).depth = 1 + greatest) ∧
    (∀ l c cs,
      (Stack.round writeNext)^[(node l (c :: cs)).writeRounds] ([(node l (c :: cs), 0)], "") =
        ([], (node l (c :: cs)).text)) ∧
    ∀ t, (Stack.round gatherNext)^[t.size] ([t], []) = ([], t.yield) ∧
      (Stack.round deepenNext)^[t.size] ([(t, 0)], 0) = ([], t.depth) := by
  refine ⟨fun l => ⟨?_, ?_, ?_⟩, fun l c cs => ⟨?_, ?_, ?_⟩, fun l c cs => ?_, fun t => ⟨?_, ?_⟩⟩
  · rw [text]
  · rw [yield_eq_leaves, leaves]
  · rw [depth_eq_height, height]
  · rw [text_eq_bracketed, bracketed, bracketedItems_eq_join]
  · rw [yield_eq_leaves, leaves, leavesAll_eq_flatMap]
  · exact ⟨heightAll (c :: cs), max?_map_depth c cs, by rw [depth_eq_height, height]⟩
  · have hrounds := settles_writeNext.iterate_round [(node l (c :: cs), 0)] ""
    simpa [Stack.outcome, writtenFrom, opened, writeRounds, text_eq_bracketed, bracketed] using hrounds
  · have hrounds := settles_gatherNext.iterate_round [t] []
    simpa [Stack.outcome, yield_eq_leaves] using hrounds
  · have hrounds := settles_deepenNext.iterate_round [(t, 0)] 0
    simpa [Stack.outcome, depth_eq_height] using hrounds

end Tree
end TreebankGrammar
