import TreebankGrammar.Proofs.Tree.Tokens
import TreebankGrammar.Tree.Reader

/-!
# Which texts denote trees

A text denotes a tree exactly when its tokens are those of the bracketed form of the tree, or the
same with one more pair of brackets around them.  While a text is read, the open brackets with the
children that they hold so far stand for the tokens that have been read.

Main definitions:

- `Tree.IsWrittenAs`: a tree is written by a text.
- `Reader.State.consumed`: the tokens that a state of the reader stands for.

Main results:

- Theorem `Reader.State.step_spec`: what one token does to the tokens that a state stands for.
- Theorem `Reader.run_tokens`: the tokens of a tree add the tree to the innermost open bracket.
- Theorem `Tree.read_iff_written`: a text is read as a tree exactly when it writes the tree.
-/

namespace TreebankGrammar

/-- A sequence of tokens that denotes a tree: those of its bracketed form, with or without brackets
around them.  A tree without children is no more than a word and cannot stand alone. -/
def Tree.Denotes (tokens : List Token) (t : Tree) : Prop :=
  t.children ≠ [] ∧ (tokens = t.tokens ∨ tokens = .opening :: (t.tokens ++ [.closing]))

/-- A tree is written by a text that falls apart into tokens that denote the tree. -/
def Tree.IsWrittenAs (t : Tree) (cs : List Char) : Prop :=
  ∃ tokens, Token.Splits cs tokens ∧ t.Denotes tokens

namespace Reader

/-! ## What a state stands for -/

/-- The tokens of an open bracket with its children so far. -/
def Frame.tokens (frame : Frame) : List Token :=
  .opening :: (frame.label.toList.map Token.word ++ Tree.tokensAll frame.children.reverse)

/-- The tokens of open brackets, which are listed from the innermost one on. -/
def openTokens : List Frame → List Token
  | [] => []
  | frame :: outer => openTokens outer ++ frame.tokens

/-- The tokens that have been read when a state is reached. -/
def State.consumed : State → List Token
  | .opened outer => openTokens outer ++ [.opening]
  | .within frame outer => openTokens (frame :: outer)

/-- A bracket without a label holds a tree with children first. -/
def Frame.Regular (frame : Frame) : Prop :=
  frame.label = none → ∀ t ∈ frame.children.getLast?, t.children ≠ []

/-- The states that reading goes through: all open brackets are regular, and one without a label is
not read on before it holds a tree. -/
def State.Regular : State → Prop
  | .opened outer => ∀ frame ∈ outer, frame.Regular
  | .within frame outer =>
    (∀ frame' ∈ frame :: outer, frame'.Regular) ∧ (frame.label = none → frame.children ≠ [])

theorem Frame.tokens_push (frame : Frame) (t : Tree) :
    (frame.push t).tokens = frame.tokens ++ t.tokens := by
  simp [Frame.tokens, Frame.push, Tree.tokensAll_append, Tree.tokensAll]

/-- A bracket stays regular when it takes a child, a tree with children if it is the first. -/
theorem Frame.Regular.push {frame : Frame} (h : frame.Regular) {t : Tree}
    (ht : frame.label = none → frame.children = [] → t.children ≠ []) :
    (frame.push t).Regular := by
  intro hlabel u hu
  cases hchildren : frame.children with
  | nil =>
    have heq : t = u := by simpa [Frame.push, hchildren] using hu
    rw [← heq]
    exact ht hlabel hchildren
  | cons c cs =>
    apply h hlabel u
    simpa [Frame.push, hchildren, List.getLast?_cons_cons] using hu

/-! ## Closing a bracket -/

/-- A bracket that can be closed has a label and children, and its tree is the node with these; or
it has no label, stands around all else, and its tree is the one that it holds. -/
theorem Frame.close_eq_ok {frame : Frame} {outermost : Bool} {t : Tree}
    (h : frame.close outermost = .ok t) :
    (∃ l, frame.label = some l ∧ frame.children ≠ [] ∧ t = .node l frame.children.reverse) ∨
      (frame.label = none ∧ frame.children = [t] ∧ outermost = true) := by
  rcases frame with ⟨label, children⟩
  cases label with
  | none =>
    right
    cases children with
    | nil => simp [Frame.close] at h
    | cons c cs =>
      cases cs with
      | nil =>
        cases outermost with
        | true => simpa [Frame.close] using h
        | false => simp [Frame.close] at h
      | cons d ds => simp [Frame.close] at h
  | some l =>
    left
    cases children with
    | nil => simp [Frame.close] at h
    | cons c cs =>
      have heq : Tree.node l (c :: cs).reverse = t := Except.ok.inj h
      exact ⟨l, rfl, by simp, heq.symm⟩

/-- A bracket with a label and children can be closed. -/
theorem Frame.close_some (l : String) {children : List Tree} (h : children ≠ []) (outermost : Bool) :
    Frame.close ⟨some l, children⟩ outermost = .ok (.node l children.reverse) := by
  cases children with
  | nil => exact absurd rfl h
  | cons c cs => rfl

/-- A closed bracket with a label has the tokens of its tree. -/
theorem Frame.tokens_concat_closing {frame : Frame} {l : String} (hlabel : frame.label = some l)
    (hne : frame.children ≠ []) :
    frame.tokens ++ [.closing] = (Tree.node l frame.children.reverse).tokens := by
  rw [Tree.tokens_node (by simpa using hne)]
  simp [Frame.tokens, hlabel]

/-! ## What is read -/

/-- What reading has come to after some tokens: a regular state that stands for them, or a tree that
they denote. -/
def Progress.Matches (consumed : List Token) : Progress → Prop
  | .reading next => next.Regular ∧ next.consumed = consumed
  | .complete t => t.Denotes consumed

/-- A node that is closed becomes a child of the bracket around it, or the whole tree. -/
theorem Progress.matches_ofClosed {t : Tree} (ht : t.children ≠ []) {outer : List Frame}
    (houter : ∀ frame ∈ outer, frame.Regular) :
    (Progress.ofClosed t outer).Matches (openTokens outer ++ t.tokens) := by
  cases outer with
  | nil => exact ⟨ht, Or.inl rfl⟩
  | cons frame outer =>
    rcases List.forall_mem_cons.1 houter with ⟨hframe, houter⟩
    refine ⟨⟨List.forall_mem_cons.2 ⟨hframe.push fun _ _ => ht, houter⟩, by simp [Frame.push]⟩, ?_⟩
    simp [State.consumed, openTokens, Frame.tokens_push]

/-- A token that can be read is added to what the state stands for. -/
theorem State.step_spec {state : State} (h : state.Regular) {token : Token} {progress : Progress}
    (hstep : state.step token = .ok progress) :
    progress.Matches (state.consumed ++ [token]) := by
  cases state with
  | opened outer =>
    cases token with
    | opening =>
      rcases Except.ok.inj hstep with rfl
      refine ⟨List.forall_mem_cons.2 ⟨by simp [Frame.Regular], h⟩, ?_⟩
      simp [State.consumed, openTokens, Frame.tokens, Tree.tokensAll]
    | closing => cases hstep
    | word l =>
      rcases Except.ok.inj hstep with rfl
      refine ⟨⟨List.forall_mem_cons.2 ⟨by simp [Frame.Regular], h⟩, by simp⟩, ?_⟩
      simp [State.consumed, openTokens, Frame.tokens, Tree.tokensAll]
  | within frame outer =>
    rcases h with ⟨hregular, hchild⟩
    rcases List.forall_mem_cons.1 hregular with ⟨hframe, houter⟩
    cases token with
    | opening =>
      rcases Except.ok.inj hstep with rfl
      exact ⟨hregular, rfl⟩
    | word w =>
      rcases Except.ok.inj hstep with rfl
      refine ⟨⟨List.forall_mem_cons.2 ⟨hframe.push ?_, houter⟩, by simp [Frame.push]⟩, ?_⟩
      · exact fun hlabel hnil => absurd hnil (hchild hlabel)
      · simp [State.consumed, openTokens, Frame.tokens_push, Tree.tokens]
    | closing =>
      rw [State.step] at hstep
      split at hstep
      · rename_i t hclose
        rcases Except.ok.inj hstep with rfl
        rcases Frame.close_eq_ok hclose with ⟨l, hlabel, hne, rfl⟩ | ⟨hlabel, hchildren, hempty⟩
        · have htokens : (State.within frame outer).consumed ++ [.closing] =
              openTokens outer ++ (Tree.node l frame.children.reverse).tokens := by
            rw [← Frame.tokens_concat_closing hlabel hne]
            simp [State.consumed, openTokens]
          rw [htokens]
          exact Progress.matches_ofClosed (by simpa using hne) houter
        · rcases List.isEmpty_iff.1 hempty with rfl
          have ht : t.children ≠ [] := hframe hlabel t (by simp [hchildren])
          refine ⟨ht, Or.inr ?_⟩
          simp [State.consumed, openTokens, Frame.tokens, hlabel, hchildren, Tree.tokensAll]
      · cases hstep

/-- When reading ends with a tree, the tokens that were read denote it. -/
theorem denotes_of_run {state : State} (h : state.Regular) {rest : List Token} {t : Tree}
    (hrun : run state rest = .ok t) : t.Denotes (state.consumed ++ rest) := by
  induction rest generalizing state with
  | nil => cases hrun
  | cons token rest ih =>
    rw [run] at hrun
    split at hrun
    · cases hrun
    · rename_i next hstep
      rcases State.step_spec h hstep with ⟨hnext, hconsumed⟩
      have hdenotes := ih hnext hrun
      rw [hconsumed] at hdenotes
      simpa using hdenotes
    · rename_i u hstep
      have hdenotes := State.step_spec h hstep
      split at hrun
      · rename_i hempty
        rcases Except.ok.inj hrun with rfl
        rw [List.isEmpty_iff.1 hempty]
        exact hdenotes
      · cases hrun

/-! ## Reading a tree -/

mutual

/-- The tokens of a tree add the tree to the innermost open bracket. -/
theorem run_tokens (t : Tree) (frame : Frame) (outer : List Frame) (rest : List Token) :
    run (.within frame outer) (t.tokens ++ rest) = run (.within (frame.push t) outer) rest := by
  match t with
  | .node l [] => rfl
  | .node l (c :: cs) =>
    have hchildren := run_tokensAll (c :: cs) ⟨some l, []⟩ (frame :: outer) (.closing :: rest)
    have hne : (c :: cs).reverse ++ [] ≠ [] := by simp
    have hclose := Frame.close_some l hne false
    calc run (.within frame outer) ((Tree.node l (c :: cs)).tokens ++ rest)
        = run (.within ⟨some l, []⟩ (frame :: outer))
            (Tree.tokensAll (c :: cs) ++ .closing :: rest) := by
          simp [Tree.tokens, run, State.step]
      _ = run (.within ⟨some l, (c :: cs).reverse ++ []⟩ (frame :: outer)) (.closing :: rest) :=
          hchildren
      _ = run (.within (frame.push (.node l (c :: cs))) outer) rest := by
          rw [run, State.step, List.isEmpty_cons, hclose]
          simp [Progress.ofClosed]

/-- The tokens of a sequence of trees add the trees to the innermost open bracket. -/
theorem run_tokensAll (ts : List Tree) (frame : Frame) (outer : List Frame) (rest : List Token) :
    run (.within frame outer) (Tree.tokensAll ts ++ rest) =
      run (.within { frame with children := ts.reverse ++ frame.children } outer) rest := by
  match ts with
  | [] => rfl
  | t :: ts =>
    rw [Tree.tokensAll, List.append_assoc, run_tokens t, run_tokensAll ts]
    simp [Frame.push]

end

/-- A tree with children is read in full from its tokens. -/
theorem run_opened_of_ne_nil {t : Tree} (h : t.children ≠ []) :
    ∃ rest, t.tokens = .opening :: rest ∧ run (.opened []) rest = .ok t := by
  rcases t with ⟨l, cs⟩
  refine ⟨_, Tree.tokens_node h, ?_⟩
  have hread := run_tokensAll cs ⟨some l, []⟩ [] [.closing]
  have hne : cs.reverse ++ [] ≠ [] := by simpa using h
  calc run (.opened []) (.word l :: (Tree.tokensAll cs ++ [.closing]))
      = run (.within ⟨some l, []⟩ []) (Tree.tokensAll cs ++ [.closing]) := rfl
    _ = run (.within ⟨some l, cs.reverse ++ []⟩ []) [.closing] := hread
    _ = .ok (.node l cs) := by
        rw [run, State.step, Frame.close_some l hne]
        simp [Progress.ofClosed]

/-- So it is when one more pair of brackets stands around it. -/
theorem run_opened_wrapped {t : Tree} (h : t.children ≠ []) :
    run (.opened []) (t.tokens ++ [.closing]) = .ok t := by
  have hread := run_tokens t ⟨none, []⟩ [] [.closing]
  rcases t with ⟨l, cs⟩
  have hne : cs ≠ [] := h
  rw [Tree.tokens_node hne] at hread ⊢
  calc run (.opened []) (.opening :: .word l :: (Tree.tokensAll cs ++ [.closing]) ++ [.closing])
      = run (.within ⟨none, []⟩ [])
          (.opening :: .word l :: (Tree.tokensAll cs ++ [.closing]) ++ [.closing]) := rfl
    _ = run (.within ⟨none, [.node l cs]⟩ []) [.closing] := hread
    _ = .ok (.node l cs) := rfl

/-- A sequence of tokens is read as the tree that it denotes. -/
theorem ofTokens_eq_ok_iff (text : String) (tokens : List Token) (t : Tree) :
    ofTokens text tokens = .ok t ↔ t.Denotes tokens := by
  constructor
  · intro h
    cases tokens with
    | nil => cases h
    | cons token rest =>
      cases token with
      | opening =>
        have hregular : (State.opened []).Regular := by simp [State.Regular]
        exact denotes_of_run hregular h
      | closing => cases h
      | word w => cases h
  · rintro ⟨hne, rfl | rfl⟩
    · rcases run_opened_of_ne_nil hne with ⟨rest, htokens, hrun⟩
      rw [htokens]
      exact hrun
    · exact run_opened_wrapped hne

end Reader

namespace Tree

/-- The tree that a text denotes is written by the text. -/
theorem read_eq_ok_iff (s : String) (t : Tree) : Tree.read s = .ok t ↔ t.IsWrittenAs s.toList := by
  rw [Tree.read, Reader.ofTokens_eq_ok_iff]
  constructor
  · exact fun h => ⟨_, (Token.splits_iff s _).2 rfl, h⟩
  · rintro ⟨tokens, hsplits, h⟩
    rwa [(Token.splits_iff s tokens).1 hsplits] at h

/-- A text falls apart into one sequence of tokens.  It is read as a tree exactly when it writes the
tree, it writes no other tree, and reading a text that writes no tree fails with an error. -/
theorem read_iff_written (s : String) :
    (∃! tokens, Token.Splits s.toList tokens) ∧
      (∀ t, Tree.read s = .ok t ↔ t.IsWrittenAs s.toList) ∧
      (∀ t u : Tree, t.IsWrittenAs s.toList → u.IsWrittenAs s.toList → t = u) ∧
      ((∀ t : Tree, ¬t.IsWrittenAs s.toList) → ∃ e : ReadError, Tree.read s = .error e) := by
  refine ⟨?_, read_eq_ok_iff s, ?_, ?_⟩
  · exact ⟨_, (Token.splits_iff s _).2 rfl, fun tokens h => (Token.splits_iff s tokens).1 h⟩
  · intro t u ht hu
    have hread := (read_eq_ok_iff s t).2 ht
    rw [(read_eq_ok_iff s u).2 hu] at hread
    exact (Except.ok.inj hread).symm
  · intro hnone
    cases hread : Tree.read s with
    | error e => exact ⟨e, rfl⟩
    | ok t => exact absurd ((read_eq_ok_iff s t).1 hread) (hnone t)

end Tree
end TreebankGrammar
