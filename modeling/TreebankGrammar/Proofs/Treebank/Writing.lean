import TreebankGrammar.Proofs.Directory
import TreebankGrammar.Proofs.Grammar.TreeLogs
import TreebankGrammar.Proofs.Text.Lines
import TreebankGrammar.Proofs.Tree.Printing
import TreebankGrammar.Proofs.Treebank.Reading

/-!
# Treebanks that are written

A text holds trees when each of them stands on a line of its own as it is printed, with blank lines and
comments between them.  Counting a file with such a text is counting the trees.

Main definitions:

- `Treebank.Holds`: a text holds a sequence of trees.
- `Treebank.wanted`: the trees that are counted with given limits.

Main results:

- Theorem `Treebank.Holds.heldLines_eq`: the lines of a text that are read are the texts of its trees.
- Theorem `Grammar.countTreebank_of_holds`: the trees are counted like a list of trees.
-/

namespace TreebankGrammar

/-! ## Lines with trees -/

namespace Tree

mutual

/-- The bracketed form of a tree is a single line if its labels have no blanks. -/
theorem isLine_bracketed (t : Tree) (ht : ∀ l ∈ t.labels, Token.IsLabel l) :
    Text.IsLine t.bracketed.toList := by
  match t with
  | .node l [] => exact (ht l (by simp [labels])).isWord.2.isLine
  | .node l (c :: ts) =>
    rw [labels, List.forall_mem_cons] at ht
    have hlabel := Text.isLine_toList_append (s := "(") (by decide) ht.1.isWord.2.isLine
    have hitems := Text.isLine_toList_append hlabel (isLine_bracketedItems (c :: ts) ht.2)
    exact Text.isLine_toList_append hitems (by decide)

theorem isLine_bracketedItems (ts : List Tree) (hts : ∀ l ∈ labelsAll ts, Token.IsLabel l) :
    Text.IsLine (bracketedItems ts).toList := by
  match ts with
  | [] => decide
  | t :: ts =>
    rw [labelsAll, List.forall_mem_append] at hts
    have hfirst := Text.isLine_toList_append (s := " ") (by decide) (isLine_bracketed t hts.1)
    exact Text.isLine_toList_append hfirst (isLine_bracketedItems ts hts.2)

end

/-- The text of a tree with children begins and ends with a bracket. -/
theorem exists_toList_text {t : Tree} (h : t.children ≠ []) :
    ∃ inner, t.text.toList = '(' :: (inner ++ [')']) := by
  obtain ⟨l, cs⟩ := t
  cases cs with
  | nil => exact absurd rfl h
  | cons c cs =>
    refine ⟨l.toList ++ (bracketedItems (c :: cs)).toList, ?_⟩
    rw [text_eq_bracketed, bracketed]
    simp

/-- The text of a tree with children has no blanks to be stripped. -/
theorem strip_text {t : Tree} (h : t.children ≠ []) : Text.strip t.text = t.text := by
  obtain ⟨inner, htext⟩ := exists_toList_text h
  have hopening : Text.isBlank '(' = false := by decide
  have hclosing : Text.isBlank ')' = false := by decide
  have htrim : Text.trim t.text.toList = t.text.toList := by
    apply Text.trim_eq_self
    · simpa [htext] using hopening
    · rw [htext, ← List.cons_append, List.getLast?_concat]
      simpa using hclosing
  rw [Text.strip, htrim, String.ofList_toList]

/-- The text of a tree with children is not skipped. -/
theorem isSkipped_text {t : Tree} (h : t.children ≠ []) : Treebank.isSkipped t.text = false := by
  obtain ⟨inner, htext⟩ := exists_toList_text h
  have hne : t.text.isEmpty = false := by
    rw [Bool.eq_false_iff, ne_eq, String.isEmpty_iff]
    intro hempty
    rw [hempty] at htext
    cases htext
  rw [Treebank.isSkipped, hne, htext]
  rfl

end Tree

namespace Treebank

/-! ## Texts that hold trees -/

/-- A line without a tree: its first character that is not blank, if there is one, starts a comment.
-/
structure IsRemark (line : List Char) : Prop where
  isLine : Text.IsLine line
  starts : ∀ c ∈ (line.dropWhile Text.isBlank).head?, c = commentMark

theorem isRemark_iff {line : List Char} :
    IsRemark line ↔
      Text.IsLine line ∧
        (line.dropWhile Text.isBlank).head?.all (fun c => c == commentMark) = true := by
  simp only [Option.all_eq_true, beq_iff_eq]
  exact ⟨fun h => ⟨h.isLine, h.starts⟩, fun h => ⟨h.1, h.2⟩⟩

instance (line : List Char) : Decidable (IsRemark line) :=
  decidable_of_iff' _ isRemark_iff

/-- A text holds a sequence of trees: each stands on a line of its own as it is printed, in order, and
all other lines are blank or comments.  The lines have line ends of any kind. -/
inductive Holds : List Char → List Tree → Prop
  | nil : Holds [] []
  | remark {line lineEnd rest : List Char} {ts : List Tree} (hline : IsRemark line)
      (hend : Text.EndsLine lineEnd rest) (h : Holds rest ts) :
      Holds (line ++ (lineEnd ++ rest)) ts
  | tree {t : Tree} {lineEnd rest : List Char} {ts : List Tree}
      (hend : Text.EndsLine lineEnd rest) (h : Holds rest ts) :
      Holds (t.text.toList ++ (lineEnd ++ rest)) (t :: ts)

/-- The lines of a text that are read. -/
def heldLines (cs : List Char) : List String :=
  treeLines ((Text.splitLines cs).map String.ofList)

theorem treeLines_append (lines later : List String) :
    treeLines (lines ++ later) = treeLines lines ++ treeLines later := by
  rw [treeLines, List.map_append, List.filter_append]
  rfl

/-- Empty lines are not read. -/
theorem treeLines_filled (lines : List (List Char)) :
    treeLines ((lines.filter fun line => !line.isEmpty).map String.ofList) =
      treeLines (lines.map String.ofList) := by
  induction lines with
  | nil => rfl
  | cons line lines ih =>
    cases line with
    | nil => exact ih
    | cons c cs =>
      simp only [List.filter_cons, List.isEmpty_cons, Bool.not_false, if_true, List.map_cons,
        treeLines_cons, ih]

/-- A line with its end is read apart from what follows. -/
theorem heldLines_append {line : List Char} (h : Text.IsLine line) {lineEnd rest : List Char}
    (hend : Text.EndsLine lineEnd rest) :
    heldLines (line ++ (lineEnd ++ rest)) = treeLines [String.ofList line] ++ heldLines rest := by
  rw [heldLines, ← treeLines_filled, ← Text.filledLines, Text.filledLines_append h hend,
    List.map_append, treeLines_append, treeLines_filled, Text.filledLines, treeLines_filled]
  rfl

/-- A remark is not read. -/
theorem IsRemark.treeLines_eq_nil {line : List Char} (h : IsRemark line) :
    treeLines [String.ofList line] = [] := by
  have hhead : ∀ c ∈ (Text.trim line).head?, c = commentMark := by
    rw [Text.head?_trim]
    exact h.starts
  have hskipped : isSkipped (Text.strip (String.ofList line)) = true := by
    rw [isSkipped, Text.strip, String.toList_ofList, String.toList_ofList]
    cases htrim : Text.trim line with
    | nil => rfl
    | cons c rest =>
      rw [htrim] at hhead
      rw [hhead c rfl]
      simp
  rw [treeLines_cons, if_pos hskipped]
  rfl

/-- A line with a tree is read as it was printed. -/
theorem treeLines_text {t : Tree} (h : t.children ≠ []) : treeLines [t.text] = [t.text] := by
  rw [treeLines_cons, t.strip_text h, t.isSkipped_text h]
  rfl

/-- The lines of a text that are read are the texts of the trees that it holds. -/
theorem Holds.heldLines_eq {cs : List Char} {ts : List Tree} (h : Holds cs ts)
    (hts : ∀ t ∈ ts, t.children ≠ [] ∧ ∀ l ∈ t.labels, Token.IsLabel l) :
    heldLines cs = ts.map Tree.text := by
  induction h with
  | nil => rfl
  | remark hline hend _ ih =>
    rw [heldLines_append hline.isLine hend, hline.treeLines_eq_nil, List.nil_append, ih hts]
  | @tree t lineEnd rest ts hend _ ih =>
    obtain ⟨⟨hchildren, hlabels⟩, hrest⟩ := List.forall_mem_cons.1 hts
    have hline : Text.IsLine t.text.toList := by
      rw [t.text_eq_bracketed]
      exact t.isLine_bracketed hlabels
    rw [heldLines_append hline hend, String.ofList_toList, treeLines_text hchildren, ih hrest,
      List.singleton_append, List.map_cons]

/-! ## Wanted trees -/

/-- The trees that are counted when a length and a number of trees are given: the first ones, all if the
number is negative, and of these the ones with no more words than the length, all if the length is not
positive. -/
def wanted (length n : Int) (ts : List Tree) : List Tree :=
  let first := if n < 0 then ts else ts.take n.toNat
  if length ≤ 0 then first else first.filter fun t => (t.leaves.length : Int) ≤ length

theorem firstTrees_ofInts (length n : Int) (ts : List Tree) :
    firstTrees (Limits.ofInts length n).maxTrees ts = if n < 0 then ts else ts.take n.toNat := by
  unfold Limits.ofInts
  dsimp only
  by_cases hn : n < 0
  · rw [if_pos hn, if_neg (Int.not_le.2 hn)]
    rfl
  · rw [if_neg hn, if_pos (Int.not_lt.1 hn)]
    rfl

theorem shortTrees_ofInts (length n : Int) (ts : List Tree) :
    shortTrees (Limits.ofInts length n).maxWords ts =
      if length ≤ 0 then ts else ts.filter fun t => (t.leaves.length : Int) ≤ length := by
  unfold Limits.ofInts shortTrees
  dsimp only
  by_cases hlength : length ≤ 0
  · rw [if_pos hlength, if_neg (Int.not_lt.2 hlength)]
    simp [exceeds]
  · rw [if_neg hlength, if_pos (Int.not_le.1 hlength)]
    refine List.filter_congr fun t _ => ?_
    rw [exceeds, t.yield_eq_leaves, ← decide_not, decide_eq_decide]
    omega

/-- The limits given by two numbers select the trees that are wanted with these numbers. -/
theorem select_ofInts (length n : Int) (ts : List Tree) :
    (Limits.ofInts length n).select ts = wanted length n ts := by
  rw [Limits.select, firstTrees_ofInts, shortTrees_ofInts, wanted]

/-- The wanted trees are among the given ones. -/
theorem mem_of_mem_wanted {length n : Int} {ts : List Tree} {t : Tree}
    (h : t ∈ wanted length n ts) : t ∈ ts := by
  have hfirst : ∀ u ∈ (if n < 0 then ts else ts.take n.toNat), u ∈ ts := by
    intro u hu
    split at hu
    · exact hu
    · exact List.mem_of_mem_take hu
  rw [wanted] at h
  split at h
  · exact hfirst t h
  · exact hfirst t (List.mem_of_mem_filter h)

end Treebank

/-! ## Counting -/

namespace Grammar

/-- Trees without empty labels are counted by an open grammar. -/
theorem countTrees_result {g : Grammar} (hg : g.normalised = false) {ts : List Tree}
    (hts : ∀ t ∈ ts, ∀ l ∈ t.labels, l ≠ "") :
    (g.countTrees (ts.map Tree.toCandidate)).result = .ok ts.length := by
  have hcountable : ∀ source ∈ (ts.map Tree.toCandidate).map TreeSource.built,
      source.productions? ≠ none := by
    intro source hsource
    obtain ⟨c, hc, rfl⟩ := List.mem_map.1 hsource
    obtain ⟨t, ht, rfl⟩ := List.mem_map.1 hc
    obtain ⟨ps, hps, -⟩ := t.exists_productions (P := fun _ => True) (by simp) (hts t ht)
    rw [TreeSource.productions?_eq_some_iff.2 ⟨_, rfl, hps⟩]
    exact Option.some_ne_none ps
  rw [countTrees, countStream, countFrom_result hg hcountable]
  simp

/-- A file that holds trees is counted like the list of those trees that are wanted: counting succeeds,
makes the same grammar and returns the number of these trees. -/
theorem countTreebank_of_holds {g : Grammar} (hg : g.normalised = false) {ts : List Tree}
    (hts : ∀ t ∈ ts, t.children ≠ [] ∧ ∀ l ∈ t.labels, Token.IsLabel l) {text : String}
    (htext : Treebank.Holds text.toList ts) {d : Directory} {file : String}
    (hfile : d.read file = .ok text.toUTF8) (length n : Int) :
    (g.countTrees ((Treebank.wanted length n ts).map Tree.toCandidate)).result =
        .ok (Treebank.wanted length n ts).length ∧
      (g.countTreebank d file (.ofInts length n)).result =
        .ok (Treebank.wanted length n ts).length ∧
      (g.countTreebank d file (.ofInts length n)).grammar =
        (g.countTrees ((Treebank.wanted length n ts).map Tree.toCandidate)).grammar := by
  have hlines : corpusLines d file = .ok { lines := Text.lines text } := by
    rw [corpusLines, Directory.readLines_of_readText (Directory.readText_of_read hfile)]
  have htrees : List.Forall₂ (fun line t => Tree.read line = .ok t)
      (Treebank.treeLines (Text.lines text)) ts := by
    have hheld := htext.heldLines_eq hts
    rw [Treebank.heldLines, ← Text.lines] at hheld
    rw [hheld, List.forall₂_map_left_iff, List.forall₂_same]
    exact fun t ht => Tree.read_text (hts t ht).1 (hts t ht).2
  obtain ⟨hfailure, hread⟩ := Treebank.read_of_treeLines (.ofInts length n) htrees
  obtain ⟨hgrammar, hresult⟩ := countTreebank_of_read hg hlines
    (corpusFailure?_eq_none_iff.2 ⟨hfailure, fun h => absurd h Bool.false_ne_true⟩)
  have hlabels : ∀ t ∈ Treebank.wanted length n ts, ∀ l ∈ t.labels, l ≠ "" := fun t ht l hl =>
    ((hts t (Treebank.mem_of_mem_wanted ht)).2 l hl).1
  have hcounted := countTrees_result hg hlabels
  rw [hread, Treebank.select_ofInts] at hgrammar hresult
  exact ⟨hcounted, hresult.trans hcounted, hgrammar⟩

/-- A tree with one word. -/
def shortTree : Tree :=
  .node "S" [.node "A" [.node "a" []]]

/-- A tree with two words. -/
def longTree : Tree :=
  .node "S" [.node "A" [.node "a" []], .node "#" [.node "b" []]]

/-- A treebank with three trees, in which all kinds of line ends occur. -/
def threeTrees : String :=
  "# trees\r\n(S (A a))\r\n\r \t\n  # S\r(S (A a) (# b))\n(S (A a))"

/-- Of the first two trees the one with a single word is counted. -/
theorem countTreebank_threeTrees :
    let d : Directory := { files := Table.empty.insert "bank" threeTrees.toUTF8 }
    (empty.countTreebank d "bank" (.ofInts 1 2)).result = .ok 1 ∧
      (empty.countTreebank d "bank" (.ofInts 1 2)).grammar =
        (empty.countTrees [shortTree.toCandidate]).grammar ∧
      (empty.countTreebank d "bank" (.ofInts 1 2)).grammar.symbolCounts.entries =
        [("S", 1), ("A", 1)] ∧
      (empty.countTreebank d "bank" (.ofInts 1 2)).grammar.tallies =
        [(.phrasal "S" ["A"], ⟨1, .zero⟩), (.ofBody "A" (.ofWord "a"), ⟨1, .zero⟩)] := by
  intro d
  have hlabels : ∀ t ∈ [shortTree, longTree, shortTree],
      t.children ≠ [] ∧ ∀ l ∈ t.labels, Token.IsLabel l := by
    have hlabel : ∀ l ∈ ["S", "A", "a", "#", "b"], Token.IsLabel l := by decide
    simp only [List.forall_mem_cons, shortTree, longTree, Tree.labels, Tree.labelsAll] at hlabel ⊢
    simp [hlabel]
  have hshort : shortTree.text = "(S (A a))" := by simp [shortTree, Tree.text, Tree.writeOpen]
  have hlong : longTree.text = "(S (A a) (# b))" := by simp [longTree, Tree.text, Tree.writeOpen]
  have hcut : threeTrees.toList =
      "# trees".toList ++ (['\r', '\n'] ++ (shortTree.text.toList ++ (['\r', '\n'] ++
        ([] ++ (['\r'] ++ ([' ', '\t'] ++ (['\n'] ++ ("  # S".toList ++ (['\r'] ++
          (longTree.text.toList ++ (['\n'] ++ (shortTree.text.toList ++ ([] ++ []))))))))))))) := by
    rw [hshort, hlong]
    decide +kernel
  have htext : Treebank.Holds threeTrees.toList [shortTree, longTree, shortTree] := by
    have hcomment : Treebank.IsRemark "# trees".toList := by decide
    have hempty : Treebank.IsRemark [] := by decide
    have hblank : Treebank.IsRemark [' ', '\t'] := by decide
    have hindented : Treebank.IsRemark "  # S".toList := by decide
    rw [hcut]
    refine .remark hcomment (.both _) (.tree (.both _) (.remark hempty (.carriage _) ?_))
    refine .remark hblank (.feed _) (.remark hindented (.carriage _) ?_)
    exact .tree (.feed _) (.tree .nothing .nil)
  have hwanted : Treebank.wanted 1 2 [shortTree, longTree, shortTree] = [shortTree] := by
    rfl
  have hfile : d.read "bank" = .ok threeTrees.toUTF8 := rfl
  obtain ⟨-, hresult, hgrammar⟩ :=
    countTreebank_of_holds (g := empty) rfl hlabels htext hfile 1 2
  rw [hwanted] at hresult hgrammar
  refine ⟨hresult, hgrammar, ?_, ?_⟩
  · rw [hgrammar]
    decide +kernel
  · rw [hgrammar]
    decide +kernel

end Grammar
end TreebankGrammar
