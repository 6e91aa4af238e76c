import Mathlib.Algebra.Ring.Nat
import Mathlib.Order.Bounds.Basic
import TreebankGrammar.Proofs.Tree.Productions
import TreebankGrammar.Proofs.Tree.Traversals

/-!
# What the tokens say of a tree

The words, the labels and the depth of a tree that is read are seen from the tokens of the text alone.
A word directly after an opening bracket is the label of this bracket, every other word stands at a
terminal, and the tree is as deep as its labelled brackets are nested.  When the tokens of a tree have
been passed, the brackets that were open before are open again, so that what is said of the tokens of a
tree may be followed by any other tokens.

Main definitions:

- `Token.placed`: tokens, each with whether it stands directly after an opening bracket.
- `Token.headWords` and `Token.itemWords`: the words that do, and the words that do not.
- `Token.labelledOpen`: how many labelled brackets are open after some tokens.

Main results:

- Theorem `Token.isGreatest_highest`: the greatest number of labelled brackets that are open at once.
- Theorem `Tree.wordsFrom_tokens`: the words among the tokens of a tree.
- Theorem `Tree.highest_tokens`: how far the labelled brackets of a tree are nested.
- Theorem `Tree.sum_length_rhs`: how many symbols stand on the right of the productions of a tree.
- Theorem `Tree.tokens_describe`: what the tokens of a text say of the tree that it denotes.
-/

namespace TreebankGrammar
namespace Token

/-! ## Words and their places -/

/-- Where a token stands: directly after an opening bracket, or elsewhere. -/
inductive Position where
  | head
  | item
deriving DecidableEq

/-- Where the token after a token stands. -/
def nextPosition : Token → Position
  | .opening => .head
  | _ => .item

/-- The tokens of a sequence, each with where it stands, which is given for the first one. -/
def placed (first : Position) : List Token → List (Position × Token)
  | [] => []
  | token :: rest => (first, token) :: placed token.nextPosition rest

/-- The text of a word. -/
def word? : Token → Option String
  | .word w => some w
  | _ => none

/-- The words that stand where they are wanted, in order. -/
def wordsFrom (first wanted : Position) (tokens : List Token) : List String :=
  ((placed first tokens).filter (·.1 = wanted)).filterMap (·.2.word?)

/-- The words directly after opening brackets, in order. -/
def headWords (tokens : List Token) : List String :=
  wordsFrom .item .head tokens

/-- The words that do not stand directly after an opening bracket, in order. -/
def itemWords (tokens : List Token) : List String :=
  wordsFrom .item .item tokens

theorem wordsFrom_opening (first wanted : Position) (rest : List Token) :
    wordsFrom first wanted (.opening :: rest) = wordsFrom .head wanted rest := by
  by_cases h : first = wanted
  · simp [wordsFrom, placed, nextPosition, word?, h]
  · simp [wordsFrom, placed, nextPosition, h]

theorem wordsFrom_closing (first wanted : Position) (rest : List Token) :
    wordsFrom first wanted (.closing :: rest) = wordsFrom .item wanted rest := by
  by_cases h : first = wanted
  · simp [wordsFrom, placed, nextPosition, word?, h]
  · simp [wordsFrom, placed, nextPosition, h]

theorem wordsFrom_word (first wanted : Position) (w : String) (rest : List Token) :
    wordsFrom first wanted (.word w :: rest) =
      (if first = wanted then [w] else []) ++ wordsFrom .item wanted rest := by
  by_cases h : first = wanted
  · simp [wordsFrom, placed, nextPosition, word?, h]
  · simp [wordsFrom, placed, nextPosition, h]

/-! ## Open brackets -/

/-- The open brackets after one more token, from the innermost one on, each with whether it has a label.
A word directly after an opening bracket gives its label to this bracket. -/
def advance (brackets : List Bool) : Position × Token → List Bool
  | (_, .opening) => false :: brackets
  | (_, .closing) => brackets.tail
  | (.head, .word _) => true :: brackets.tail
  | (.item, .word _) => brackets

/-- The open brackets after some tokens, given those before them. -/
def openFrom (first : Position) (brackets : List Bool) (tokens : List Token) : List Bool :=
  (placed first tokens).foldl advance brackets

/-- The number of labelled brackets that are open after some tokens. -/
def labelledOpen (tokens : List Token) : Nat :=
  (openFrom .item [] tokens).count true

/-- The greatest number of labelled brackets that are open at once while tokens are passed. -/
def highest (first : Position) (brackets : List Bool) : List Token → Nat
  | [] => brackets.count true
  | token :: rest =>
    max (brackets.count true) (highest token.nextPosition (advance brackets (first, token)) rest)

/-- At the start the given brackets are open. -/
theorem count_le_highest (first : Position) (brackets : List Bool) (tokens : List Token) :
    brackets.count true ≤ highest first brackets tokens := by
  cases tokens with
  | nil => exact Nat.le_refl _
  | cons token rest => exact Nat.le_max_left _ _

/-- It is the greatest number after any of the first tokens. -/
theorem isGreatest_highest (first : Position) (brackets : List Bool) (tokens : List Token) :
    IsGreatest {n | ∃ before, before <+: tokens ∧ (openFrom first brackets before).count true = n}
      (highest first brackets tokens) := by
  induction tokens generalizing first brackets with
  | nil =>
    refine ⟨⟨[], List.nil_prefix, rfl⟩, ?_⟩
    rintro n ⟨before, hbefore, rfl⟩
    rw [List.prefix_nil.1 hbefore]
    exact Nat.le_refl _
  | cons token rest ih =>
    obtain ⟨⟨later, hlater, hcount⟩, hbound⟩ :=
      ih token.nextPosition (advance brackets (first, token))
    constructor
    · rcases Nat.le_total (highest token.nextPosition (advance brackets (first, token)) rest)
        (brackets.count true) with hle | hle
      · exact ⟨[], List.nil_prefix, (Nat.max_eq_left hle).symm⟩
      · refine ⟨token :: later, List.prefix_cons_inj token |>.2 hlater, ?_⟩
        exact hcount.trans (Nat.max_eq_right hle).symm
    · rintro n ⟨before, hbefore, rfl⟩
      rcases List.prefix_cons_iff.1 hbefore with rfl | ⟨later', rfl, hlater'⟩
      · exact Nat.le_max_left _ _
      · exact Nat.le_trans (hbound ⟨later', hlater', rfl⟩) (Nat.le_max_right _ _)

end Token

namespace Tree

/-! ## The tokens of a tree -/

/-- The tokens of a node with children, wherever they stand. -/
theorem tokens_node_append (l : String) (c : Tree) (cs : List Tree) (rest : List Token) :
    (node l (c :: cs)).tokens ++ rest =
      .opening :: .word l :: (tokensAll (c :: cs) ++ .closing :: rest) := by
  simp [tokens]

/-- The words of a tree at a place: the labels of the nodes with children, in the order of their
productions, or the labels of the terminals. -/
def wordsAt (t : Tree) : Token.Position → List String
  | .head => t.productions.map (·.lhs)
  | .item => t.leaves

/-- The words of a sequence of trees at a place. -/
def wordsAtAll (ts : List Tree) : Token.Position → List String
  | .head => (productionsAll ts).map (·.lhs)
  | .item => leavesAll ts

/-- The label of a node stands in front of the words of its children. -/
theorem wordsAt_node (l : String) (c : Tree) (cs : List Tree) (wanted : Token.Position) :
    (node l (c :: cs)).wordsAt wanted =
      (if .head = wanted then [l] else []) ++ wordsAtAll (c :: cs) wanted := by
  cases wanted with
  | head => rfl
  | item => rw [wordsAt, leaves, if_neg (by decide), List.nil_append, wordsAtAll]

theorem wordsAtAll_cons (t : Tree) (ts : List Tree) (wanted : Token.Position) :
    wordsAtAll (t :: ts) wanted = t.wordsAt wanted ++ wordsAtAll ts wanted := by
  cases wanted with
  | head => rw [wordsAtAll, productionsAll, List.map_append, wordsAt, wordsAtAll]
  | item => rw [wordsAtAll, leavesAll, wordsAt, wordsAtAll]

mutual

/-- The words among the tokens of a tree are those of the tree. -/
theorem wordsFrom_tokens (t : Tree) (wanted : Token.Position) (rest : List Token) :
    Token.wordsFrom .item wanted (t.tokens ++ rest) =
      t.wordsAt wanted ++ Token.wordsFrom .item wanted rest := by
  match t with
  | .node l [] =>
    rw [tokens, List.singleton_append, Token.wordsFrom_word]
    cases wanted with
    | head => rfl
    | item => rw [wordsAt, leaves, if_pos rfl]
  | .node l (c :: cs) =>
    rw [tokens_node_append, Token.wordsFrom_opening, Token.wordsFrom_word,
      wordsFrom_tokensAll (c :: cs), Token.wordsFrom_closing, wordsAt_node, List.append_assoc]

theorem wordsFrom_tokensAll (ts : List Tree) (wanted : Token.Position) (rest : List Token) :
    Token.wordsFrom .item wanted (tokensAll ts ++ rest) =
      wordsAtAll ts wanted ++ Token.wordsFrom .item wanted rest := by
  match ts with
  | [] =>
    cases wanted with
    | head => rfl
    | item => rfl
  | t :: ts =>
    rw [tokensAll, List.append_assoc, wordsFrom_tokens t, wordsFrom_tokensAll ts, wordsAtAll_cons,
      List.append_assoc]

end

mutual

/-- The labelled brackets of a tree are nested as far as the tree is high. -/
theorem highest_tokens (t : Tree) (brackets : List Bool) (rest : List Token) :
    Token.highest .item brackets (t.tokens ++ rest) =
      max (brackets.count true + t.height) (Token.highest .item brackets rest) := by
  match t with
  | .node l [] => rfl
  | .node l (c :: cs) =>
    have hchildren := highest_tokensAll (c :: cs) (true :: brackets) (.closing :: rest)
    -- Before the label is read, and after the bracket is closed, no further bracket counts.
    have hopened : Token.highest .item brackets ((node l (c :: cs)).tokens ++ rest) =
        max (brackets.count true) (max (brackets.count true)
          (Token.highest .item (true :: brackets) (tokensAll (c :: cs) ++ .closing :: rest))) := by
      rw [tokens_node_append]
      simp [Token.highest, Token.nextPosition, Token.advance]
    have hclosed : Token.highest .item (true :: brackets) (.closing :: rest) =
        max (brackets.count true + 1) (Token.highest .item brackets rest) := by
      simp [Token.highest, Token.nextPosition, Token.advance]
    rw [hopened, hchildren, hclosed, List.count_cons_self, height]
    omega

theorem highest_tokensAll (ts : List Tree) (brackets : List Bool) (rest : List Token) :
    Token.highest .item brackets (tokensAll ts ++ rest) =
      max (brackets.count true + heightAll ts) (Token.highest .item brackets rest) := by
  match ts with
  | [] => exact (Nat.max_eq_right (Token.count_le_highest .item brackets rest)).symm
  | t :: ts =>
    rw [tokensAll, List.append_assoc, highest_tokens t, highest_tokensAll ts, heightAll]
    omega

end

/-! ## Symbols on the right -/

mutual

/-- Every node but the root stands on the right of one production, and is a leaf or has a production. -/
theorem sum_length_rhs (t : Tree) :
    (t.productions.map (·.rhs.length)).sum + 1 = t.productions.length + t.leaves.length := by
  match t with
  | .node l [] => rfl
  | .node l (c :: cs) =>
    have hchildren := sum_length_rhs_all (c :: cs)
    have hroot : (Production.ofBody l (bodyOf (c :: cs))).rhs.length = (c :: cs).length := by
      rw [Production.ofBody, rhs_bodyOf, List.length_map]
    have hlength : (node l (c :: cs)).productions.length = (productionsAll (c :: cs)).length + 1 := by
      rw [productions, List.length_cons]
    rw [hlength, productions, leaves, List.map_cons, List.sum_cons, hroot]
    omega

theorem sum_length_rhs_all (ts : List Tree) :
    ((productionsAll ts).map (·.rhs.length)).sum + ts.length =
      (productionsAll ts).length + (leavesAll ts).length := by
  match ts with
  | [] => rfl
  | t :: ts =>
    have hfirst := sum_length_rhs t
    have hlater := sum_length_rhs_all ts
    rw [productionsAll, leavesAll, List.map_append, List.sum_append, List.length_append,
      List.length_append, List.length_cons]
    omega

end

/-! ## Trees that are read -/

/-- The words among the tokens that denote a tree.  Brackets without a label around it add none, and do
not change where its own words stand. -/
theorem Denotes.wordsFrom_eq {tokens : List Token} {t : Tree} (h : t.Denotes tokens)
    (wanted : Token.Position) : Token.wordsFrom .item wanted tokens = t.wordsAt wanted := by
  obtain ⟨hchildren, rfl | rfl⟩ := h
  · have hwords := wordsFrom_tokens t wanted []
    rw [List.append_nil] at hwords
    exact hwords.trans (List.append_nil _)
  · have hwords := wordsFrom_tokens t wanted [.closing]
    obtain ⟨l, cs⟩ := t
    have hne : cs ≠ [] := hchildren
    rw [tokens_node hne, List.cons_append, Token.wordsFrom_opening] at hwords
    rw [tokens_node hne, List.cons_append, Token.wordsFrom_opening, Token.wordsFrom_opening,
      hwords, Token.wordsFrom_closing]
    exact List.append_nil _

/-- The greatest number of labelled brackets that are open at once in the tokens that denote a tree.
Brackets without a label around it do not count. -/
theorem Denotes.highest_eq {tokens : List Token} {t : Tree} (h : t.Denotes tokens) :
    Token.highest .item [] tokens = t.height := by
  obtain ⟨hchildren, rfl | rfl⟩ := h
  · have hhighest := highest_tokens t [] []
    rw [List.append_nil] at hhighest
    simpa [Token.highest] using hhighest
  · have hhighest := highest_tokens t [false] [.closing]
    obtain ⟨l, cs⟩ := t
    have hne : cs ≠ [] := hchildren
    rw [tokens_node hne] at hhighest ⊢
    simpa [Token.highest, Token.nextPosition, Token.advance] using hhighest

/-- What the tokens of a text say of the tree that it denotes: the words of the tree are the words that do
not stand directly after an opening bracket, and its depth is the greatest number of labelled
brackets that are open at once.  Its productions can be collected, and their left-hand sides are the
words directly after opening brackets.  The symbols on the right of the productions are one fewer than the
productions and the words together. -/
theorem tokens_describe {s : String} {t : Tree} (h : Tree.read s = .ok t) :
    t.yield = Token.itemWords (Token.ofText s) ∧
      IsGreatest {n | ∃ before, before <+: Token.ofText s ∧ Token.labelledOpen before = n} t.depth ∧
      ∃ ps, t.toCandidate.productions = .ok ps ∧
        ps.map (·.lhs) = Token.headWords (Token.ofText s) ∧
        (ps.map (·.rhs.length)).sum + 1 = ps.length + t.yield.length := by
  obtain ⟨tokens, hsplits, hdenotes⟩ := (read_eq_ok_iff s t).1 h
  obtain rfl := (Token.splits_iff s tokens).1 hsplits
  have hlabels : ∀ l ∈ t.labels, l ≠ "" := fun l hl => (isLabel_of_read h l hl).1
  obtain ⟨ps, hps, -⟩ := Candidate.exists_productions (not_isMalformed hlabels)
  obtain rfl := eq_productions hps
  refine ⟨?_, ?_, _, hps, ?_, ?_⟩
  · exact t.yield_eq_leaves.trans (hdenotes.wordsFrom_eq .item).symm
  · rw [depth_eq_height, ← hdenotes.highest_eq]
    exact Token.isGreatest_highest .item [] _
  · exact (hdenotes.wordsFrom_eq .head).symm
  · rw [yield_eq_leaves]
    exact t.sum_length_rhs

/-- A text with brackets without a label around it, in which a label is also a word. -/
def wrappedText : String :=
  "( (S (NP dogs)(VP (V saw) S)) )"

/-- The words, the depth and the labels of its tree are seen from its tokens. -/
theorem tokens_describe_wrappedText :
    ∃ t, Tree.read wrappedText = .ok t ∧ t.yield = ["dogs", "saw", "S"] ∧
      IsGreatest {n | ∃ before, before <+: Token.ofText wrappedText ∧
        Token.labelledOpen before = n} t.depth ∧
      ∃ ps, t.toCandidate.productions = .ok ps ∧ ps.map (·.lhs) = ["S", "NP", "VP", "V"] := by
  have hread : Tree.read wrappedText =
      .ok (.node "S" [.node "NP" [.node "dogs" []],
        .node "VP" [.node "V" [.node "saw" []], .node "S" []]]) := by rfl
  obtain ⟨hyield, hdepth, ps, hps, hheads, -⟩ := tokens_describe hread
  have hitems : Token.itemWords (Token.ofText wrappedText) = ["dogs", "saw", "S"] := by decide +kernel
  have hlabels : Token.headWords (Token.ofText wrappedText) = ["S", "NP", "VP", "V"] := by
    decide +kernel
  exact ⟨_, hread, hyield.trans hitems, hdepth, ps, hps, hheads.trans hlabels⟩

end Tree
end TreebankGrammar
