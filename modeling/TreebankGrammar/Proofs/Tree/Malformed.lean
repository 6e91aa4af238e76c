import Mathlib.Data.List.Forall2
import TreebankGrammar.Tree.Candidate

/-!
# Malformed candidates

The productions of a candidate are collected in one pass that checks each node with children before its
production is taken.  The root is checked as a node with children only, every other part of the
candidate as a child.  So a node that stands alone may have an empty label, but neither an empty
label nor anything else in the place of a node may stand anywhere in a candidate with children.

Main definitions:

- `Candidate.parts`: the nodes of a candidate, and what stands in the place of nodes.
- `Candidate.inner`: the nodes with children, in preorder.
- `Candidate.IsMalformed`: a candidate whose productions cannot be collected.
- `Candidate.IsShowable`: what is no node in it can be shown in a message.
- `Candidate.IsRewrittenBy`: a node with children has a production.

Main results:

- Theorem `Candidate.collect_eq_ok_iff`: what is collected from pending candidates.
- Theorem `Candidate.exists_productions_eq_error_iff`: the productions of malformed candidates, and of no
  others, cannot be collected.
- Theorem `Candidate.exists_productions_eq_malformed`: the error names a defect, unless what is no node
  cannot be shown.
- Theorem `Candidate.exists_productions`: all others have one production for each node with children.
-/

namespace TreebankGrammar
namespace Candidate

/-! ## Parts of candidates -/

/-- The children of a node; what is no node has none. -/
def children : Candidate → List Candidate
  | .node _ cs => cs
  | _ => []

mutual

/-- The nodes of a candidate and what stands in the place of nodes, each before those below it, children
from left to right. -/
def parts : Candidate → List Candidate
  | .text s => [.text s]
  | .other type shown => [.other type shown]
  | .node l cs => .node l cs :: partsAll cs

/-- The parts of a sequence of candidates. -/
def partsAll : List Candidate → List Candidate
  | [] => []
  | c :: cs => c.parts ++ partsAll cs

end

/-- The nodes with children of a candidate, in preorder. -/
def inner (c : Candidate) : List Candidate :=
  c.parts.filter fun d => !d.children.isEmpty

/-- What is no node. -/
def IsNoTree : Candidate → Prop
  | .node .. => False
  | _ => True

/-- What is no node, or a node with an empty label. -/
def IsFaulty : Candidate → Prop
  | .node l _ => l = ""
  | _ => True

/-- What is no node, or a candidate with children in which something else stands in the place of a node or
a node has an empty label. -/
def IsMalformed (c : Candidate) : Prop :=
  c.IsNoTree ∨ c.children ≠ [] ∧ ∃ d ∈ c.parts, d.IsFaulty

/-- What is no node, in the place of the candidate or inside, can be shown in a message. -/
def IsShowable (c : Candidate) : Prop :=
  ∀ d ∈ c.parts, d.IsNoTree → ∃ s, d.shown = .ok s

/-- The production of a node: its label is rewritten as the labels of its children, as a word if it has one
child, which has no children. -/
structure IsRewrittenBy (c : Candidate) (p : Production) : Prop where
  lhs_eq : p.lhs = c.label
  rhs_eq : p.rhs = c.children.map label
  lexical_iff : p.lexical = true ↔ ∃ w, c.children = [.node w []]

/-- A candidate is one of its parts. -/
theorem mem_parts_self (c : Candidate) : c ∈ c.parts := by
  cases c with
  | text s => exact List.mem_cons_self
  | other type shown => exact List.mem_cons_self
  | node l cs => exact List.mem_cons_self

theorem partsAll_eq_flatMap (cs : List Candidate) : partsAll cs = cs.flatMap parts := by
  induction cs with
  | nil => rfl
  | cons c cs ih => rw [partsAll, ih, List.flatMap_cons]

theorem mem_partsAll_of_mem {c : Candidate} {cs : List Candidate} (h : c ∈ cs) : c ∈ partsAll cs := by
  rw [partsAll_eq_flatMap]
  exact List.mem_flatMap.2 ⟨c, h, c.mem_parts_self⟩

mutual

/-- The children of a part are parts. -/
theorem mem_parts_of_mem_children (c : Candidate) {d e : Candidate} (hd : d ∈ c.parts)
    (he : e ∈ d.children) : e ∈ c.parts := by
  match c with
  | .text s =>
    obtain rfl := List.mem_singleton.1 hd
    cases he
  | .other type shown =>
    obtain rfl := List.mem_singleton.1 hd
    cases he
  | .node l cs =>
    rcases List.mem_cons.1 hd with rfl | hd
    · exact List.mem_cons_of_mem _ (mem_partsAll_of_mem he)
    · exact List.mem_cons_of_mem _ (mem_partsAll_of_mem_children cs hd he)

theorem mem_partsAll_of_mem_children (cs : List Candidate) {d e : Candidate} (hd : d ∈ partsAll cs)
    (he : e ∈ d.children) : e ∈ partsAll cs := by
  match cs with
  | [] => cases hd
  | c :: cs =>
    rcases List.mem_append.1 hd with hd | hd
    · exact List.mem_append_left _ (mem_parts_of_mem_children c hd he)
    · exact List.mem_append_right _ (mem_partsAll_of_mem_children cs hd he)

end

/-- The nodes with children are the parts that have children. -/
theorem mem_inner_iff {c d : Candidate} : d ∈ c.inner ↔ d ∈ c.parts ∧ d.children ≠ [] := by
  rw [inner, List.mem_filter]
  simp

theorem inner_leaf (l : String) : (node l []).inner = [] :=
  rfl

/-- A node with children comes before the nodes with children below it. -/
theorem inner_node (l : String) (c : Candidate) (cs : List Candidate) :
    (node l (c :: cs)).inner = .node l (c :: cs) :: (c :: cs).flatMap inner := by
  rw [inner, parts, partsAll_eq_flatMap, List.filter_cons_of_pos rfl, List.filter_flatMap]
  rfl

/-! ## Malformed candidates -/

theorem not_isMalformed_leaf (l : String) : ¬(node l []).IsMalformed := by
  simp [IsMalformed, IsNoTree, children]

theorem isMalformed_of_isNoTree {c : Candidate} (h : c.IsNoTree) : c.IsMalformed :=
  .inl h

/-- A candidate has a faulty part if it is faulty itself or malformed. -/
theorem exists_isFaulty_iff (c : Candidate) :
    (∃ d ∈ c.parts, d.IsFaulty) ↔ c.IsFaulty ∨ c.IsMalformed := by
  match c with
  | .text s => simp [parts, IsFaulty]
  | .other type shown => simp [parts, IsFaulty]
  | .node l [] => simp [parts, partsAll, not_isMalformed_leaf]
  | .node l (c :: cs) =>
    have hself : (node l (c :: cs)).IsFaulty → ∃ d ∈ (node l (c :: cs)).parts, d.IsFaulty :=
      fun h => ⟨_, by simp [parts], h⟩
    have hmalformed : (node l (c :: cs)).IsMalformed ↔
        ∃ d ∈ (node l (c :: cs)).parts, d.IsFaulty := by
      simp [IsMalformed, IsNoTree, children]
    rw [hmalformed, or_iff_right_of_imp hself]

/-- A node with children is malformed if its label is empty or a child is faulty or malformed. -/
theorem isMalformed_node_iff (l : String) (c : Candidate) (cs : List Candidate) :
    (node l (c :: cs)).IsMalformed ↔ l = "" ∨ ∃ d ∈ c :: cs, d.IsFaulty ∨ d.IsMalformed := by
  have hparts : (node l (c :: cs)).IsMalformed ↔
      l = "" ∨ ∃ e ∈ partsAll (c :: cs), e.IsFaulty := by
    simp [IsMalformed, IsNoTree, children, parts, IsFaulty]
  rw [hparts, partsAll_eq_flatMap]
  simp only [← exists_isFaulty_iff, List.mem_flatMap]
  constructor
  · rintro (hl | ⟨e, ⟨d, hd, he⟩, hfaulty⟩)
    · exact .inl hl
    · exact .inr ⟨d, hd, e, he, hfaulty⟩
  · rintro (hl | ⟨d, hd, e, he, hfaulty⟩)
    · exact .inl hl
    · exact .inr ⟨e, ⟨d, hd, he⟩, hfaulty⟩

/-! ## Checks -/

theorem checkChild_eq_ok_iff (l : String) (c : Candidate) :
    checkChild l c = .ok () ↔ ¬c.IsFaulty := by
  cases c with
  | text s => simp [checkChild, IsFaulty]
  | other type shown => simp [checkChild, IsFaulty]
  | node l' cs =>
    rw [checkChild, IsFaulty]
    by_cases hl' : l' = ""
    · simp [hl']
    · simp [hl']

theorem forM_checkChild_eq_ok_iff (l : String) (cs : List Candidate) :
    cs.forM (checkChild l) = .ok () ↔ ∀ c ∈ cs, ¬c.IsFaulty := by
  induction cs with
  | nil => exact iff_of_true rfl (by simp)
  | cons c cs ih =>
    rw [List.forall_mem_cons, ← ih, ← checkChild_eq_ok_iff l c]
    change (checkChild l c >>= fun _ => cs.forM (checkChild l)) = .ok () ↔ _
    cases checkChild l c with
    | error e => simp [bind, Except.bind]
    | ok value => simp [bind, Except.bind]

/-- A node with children passes its check if its label is not empty and no child is faulty. -/
theorem checkNode_eq_ok_iff (l : String) (cs : List Candidate) :
    checkNode l cs = .ok () ↔ l ≠ "" ∧ ∀ c ∈ cs, ¬c.IsFaulty := by
  rw [checkNode, ← forM_checkChild_eq_ok_iff l]
  by_cases hl : l = ""
  · simp [hl]
  · simp [hl]

/-- A node that does not pass its check is malformed; of one that passes the children decide. -/
theorem isMalformed_iff_of_checkNode {l : String} {c : Candidate} {cs : List Candidate}
    (h : checkNode l (c :: cs) = .ok ()) :
    (node l (c :: cs)).IsMalformed ↔ ∃ d ∈ c :: cs, d.IsMalformed := by
  obtain ⟨hl, hsound⟩ := (checkNode_eq_ok_iff l (c :: cs)).1 h
  rw [isMalformed_node_iff, or_iff_right hl]
  refine exists_congr fun d => and_congr_right fun hd => ?_
  exact or_iff_right (hsound d hd)

theorem isMalformed_of_checkNode {l : String} {c : Candidate} {cs : List Candidate}
    {e : CollectError} (h : checkNode l (c :: cs) = .error e) : (node l (c :: cs)).IsMalformed := by
  have hnot : ¬(l ≠ "" ∧ ∀ d ∈ c :: cs, ¬d.IsFaulty) := by
    rw [← checkNode_eq_ok_iff, h]
    simp
  rw [isMalformed_node_iff]
  by_contra hsound
  rw [not_or] at hsound
  exact hnot ⟨hsound.1, fun d hd hfaulty => hsound.2 ⟨d, hd, .inl hfaulty⟩⟩

/-! ## Collecting productions -/

/-- The production of a node with children, as it is collected. -/
def production (c : Candidate) : Production :=
  .ofBody c.label (bodyOf c.children)

/-- The productions of pending candidates are collected if none of them is malformed, and they are those
of the nodes with children in order. -/
theorem collect_eq_ok_iff (collected : List Production) (pending : List Candidate)
    (ps : List Production) :
    collect collected pending = .ok ps ↔
      (∀ c ∈ pending, ¬c.IsMalformed) ∧
        ps = collected.reverse ++ (pending.flatMap inner).map production := by
  fun_induction collect collected pending with
  | case1 collected => simp [eq_comm]
  | case2 collected s pending => simp [isMalformed_of_isNoTree (c := text s) trivial]
  | case3 collected type shown pending =>
    simp [isMalformed_of_isNoTree (c := other type shown) trivial]
  | case4 collected l pending ih =>
    rw [ih, List.forall_mem_cons, List.flatMap_cons, inner_leaf, List.nil_append]
    simp [not_isMalformed_leaf]
  | case5 collected l c cs pending e hcheck =>
    have hmalformed := isMalformed_of_checkNode hcheck
    simp [hmalformed]
  | case6 collected l c cs pending hcheck ih =>
    -- The children stand before the other pending candidates, as their productions do.
    have hchildren : ¬(node l (c :: cs)).IsMalformed ↔ ∀ d ∈ c :: cs, ¬d.IsMalformed := by
      rw [isMalformed_iff_of_checkNode hcheck]
      simp only [not_exists, not_and]
    have hpending : (node l (c :: cs) :: pending).flatMap inner =
        node l (c :: cs) :: (c :: cs ++ pending).flatMap inner := by
      rw [List.flatMap_cons, inner_node, List.flatMap_append, List.cons_append]
    rw [ih, List.forall_mem_append, List.forall_mem_cons (l := pending), hchildren, hpending,
      List.reverse_cons, List.append_assoc]
    rfl

theorem productions_eq_ok_iff (c : Candidate) (ps : List Production) :
    c.productions = .ok ps ↔ ¬c.IsMalformed ∧ ps = c.inner.map production := by
  rw [productions, collect_eq_ok_iff]
  simp

/-- What is collected has symbols on the right. -/
theorem rhs_ne_nil {c : Candidate} {ps : List Production} (h : c.productions = .ok ps) :
    ∀ p ∈ ps, p.rhs ≠ [] := by
  obtain ⟨-, rfl⟩ := (c.productions_eq_ok_iff ps).1 h
  intro p hp
  obtain ⟨d, hd, rfl⟩ := List.mem_map.1 hp
  exact fun hnil => (mem_inner_iff.1 hd).2 (List.map_eq_nil_iff.1 hnil)

/-- The productions of malformed candidates, and of no others, cannot be collected. -/
theorem exists_productions_eq_error_iff (c : Candidate) :
    (∃ e, c.productions = .error e) ↔ c.IsMalformed := by
  have hok := c.productions_eq_ok_iff
  cases hps : c.productions with
  | error e =>
    refine iff_of_true ⟨e, rfl⟩ ?_
    by_contra hnot
    have h := (hok _).2 ⟨hnot, rfl⟩
    rw [hps] at h
    cases h
  | ok ps =>
    refine iff_of_false ?_ ((hok ps).1 hps).1
    rintro ⟨e, he⟩
    cases he

/-! ## The error -/

theorem exists_refused_eq {c : Candidate} (h : ∃ s, c.shown = .ok s) (cause : String → Malformed) :
    ∃ s, c.refused cause = .malformed (cause s) := by
  obtain ⟨s, hs⟩ := h
  exact ⟨s, by rw [refused, hs]⟩

/-- What stands below a child of a node stands below the node. -/
theorem IsShowable.of_mem {l : String} {cs : List Candidate} {c : Candidate}
    (h : (node l cs).IsShowable) (hc : c ∈ cs) : c.IsShowable := by
  intro d hd
  refine h d (List.mem_cons_of_mem _ ?_)
  rw [partsAll_eq_flatMap]
  exact List.mem_flatMap.2 ⟨c, hc, hd⟩

/-- A child that does not pass its check is malformed, if it can be shown in the message. -/
theorem exists_of_checkChild_eq_error {l : String} {c : Candidate} {e : CollectError}
    (hshow : c.IsShowable) (h : checkChild l c = .error e) : ∃ cause, e = .malformed cause := by
  cases c with
  | text s =>
    obtain ⟨s, hs⟩ := exists_refused_eq (hshow _ (mem_parts_self _) trivial) (.childNotTree l)
    exact ⟨_, (Except.error.inj h).symm.trans hs⟩
  | other type shown =>
    obtain ⟨s, hs⟩ := exists_refused_eq (hshow _ (mem_parts_self _) trivial) (.childNotTree l)
    exact ⟨_, (Except.error.inj h).symm.trans hs⟩
  | node l' cs =>
    rw [checkChild] at h
    split at h
    · exact ⟨_, (Except.error.inj h).symm⟩
    · cases h

theorem exists_of_forM_checkChild_eq_error {l : String} {cs : List Candidate} {e : CollectError}
    (hshow : ∀ c ∈ cs, c.IsShowable) (h : cs.forM (checkChild l) = .error e) :
    ∃ cause, e = .malformed cause := by
  induction cs with
  | nil => cases h
  | cons c cs ih =>
    obtain ⟨hc, hcs⟩ := List.forall_mem_cons.1 hshow
    change (checkChild l c >>= fun _ => cs.forM (checkChild l)) = .error e at h
    cases hcheck : checkChild l c with
    | error e' =>
      rw [hcheck] at h
      obtain rfl : e' = e := Except.error.inj h
      exact exists_of_checkChild_eq_error hc hcheck
    | ok =>
      rw [hcheck] at h
      exact ih hcs h

/-- The error for pending candidates names a defect, if what is no node among them can be shown in the
message. -/
theorem exists_of_collect_eq_error (collected : List Production) (pending : List Candidate)
    {e : CollectError} (hshow : ∀ c ∈ pending, c.IsShowable)
    (h : collect collected pending = .error e) : ∃ cause, e = .malformed cause := by
  fun_induction collect collected pending with
  | case1 collected => cases h
  | case2 collected s pending =>
    obtain ⟨hc, -⟩ := List.forall_mem_cons.1 hshow
    obtain ⟨s, hs⟩ := exists_refused_eq (hc _ (mem_parts_self _) trivial) .notTree
    exact ⟨_, (Except.error.inj h).symm.trans hs⟩
  | case3 collected type shown pending =>
    obtain ⟨hc, -⟩ := List.forall_mem_cons.1 hshow
    obtain ⟨s, hs⟩ := exists_refused_eq (hc _ (mem_parts_self _) trivial) .notTree
    exact ⟨_, (Except.error.inj h).symm.trans hs⟩
  | case4 collected l pending ih => exact ih (List.forall_mem_cons.1 hshow).2 h
  | case5 collected l c cs pending e' hcheck =>
    obtain ⟨hc, -⟩ := List.forall_mem_cons.1 hshow
    obtain rfl : e' = e := Except.error.inj h
    rw [checkNode] at hcheck
    split at hcheck
    · exact ⟨_, (Except.error.inj hcheck).symm⟩
    · exact exists_of_forM_checkChild_eq_error (fun d hd => hc.of_mem hd) hcheck
  | case6 collected l c cs pending hcheck ih =>
    obtain ⟨hc, hpending⟩ := List.forall_mem_cons.1 hshow
    exact ih (List.forall_mem_append.2 ⟨fun d hd => hc.of_mem hd, hpending⟩) h

/-- The error for a malformed candidate names a defect, if what is no node in it can be shown in the
message. -/
theorem exists_productions_eq_malformed {c : Candidate} (h : c.IsMalformed) (hshow : c.IsShowable) :
    ∃ cause, c.productions = .error (.malformed cause) := by
  obtain ⟨e, he⟩ := (exists_productions_eq_error_iff c).2 h
  obtain ⟨cause, rfl⟩ := exists_of_collect_eq_error [] [c] (by simpa using hshow) he
  exact ⟨cause, he⟩

/-! ## The productions of nodes -/

/-- What is collected at a node with children is its production. -/
theorem isRewrittenBy_production {c : Candidate} (h : c.children ≠ []) :
    c.IsRewrittenBy c.production where
  lhs_eq := rfl
  rhs_eq := rfl
  lexical_iff := by
    change (decide (c.children.length = 1) && c.children.all isTerminal) = true ↔
      ∃ w, c.children = [.node w []]
    match hchildren : c.children with
    | [] => exact absurd hchildren h
    | [.text s] => simp [isTerminal]
    | [.other type shown] => simp [isTerminal]
    | [.node w []] => simp [isTerminal]
    | [.node w (d :: ds)] => simp [isTerminal]
    | d :: e :: ds => simp

/-- A candidate that is not malformed has one production for each node with children, in preorder. -/
theorem exists_productions {c : Candidate} (h : ¬c.IsMalformed) :
    ∃ ps, c.productions = .ok ps ∧ List.Forall₂ IsRewrittenBy c.inner ps := by
  refine ⟨_, (c.productions_eq_ok_iff _).2 ⟨h, rfl⟩, ?_⟩
  rw [List.forall₂_map_right_iff, List.forall₂_same]
  exact fun d hd => isRewrittenBy_production (mem_inner_iff.1 hd).2

end Candidate
end TreebankGrammar
