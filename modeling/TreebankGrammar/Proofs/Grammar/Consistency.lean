import TreebankGrammar.Grammar.Counting
import TreebankGrammar.Proofs.Table
import TreebankGrammar.Proofs.Tree.Malformed

/-!
# Consistent grammars

In a consistent grammar the two tables of counts agree: they have the same nonterminals in the
same order, and the count of each nonterminal is the sum of the counts of its rules.  Counting
and merging keep a grammar consistent.

Main results:

- Theorem `Consistent.add`: counting a production keeps a grammar consistent.
- Theorem `Consistent.countTree`: so does counting a tree.
- Theorem `Consistent.merge`: so does adding the counts of a consistent grammar.
- Theorem `checkCounts_eq_ok_iff`: which counts pass their check.
- Theorem `merge_eq_ok_iff`: when merging succeeds, and what it does then.
- Theorem `Consistent.checkCounts_eq_ok`: the counts of a consistent grammar do.
-/

namespace TreebankGrammar

/-- The rules of a nonterminal with the given count: there is one, each has symbols on the right
and has been seen, their counts add up, and the weights are zero until they are estimated. -/
structure Row.Consistent (normalised : Bool) (total : Int) (row : Row) : Prop where
  keys_ne_nil : row.keys ≠ []
  total_eq : row.total = total
  rhs_ne_nil : ∀ body tally, row.get? body = some tally → body.rhs ≠ []
  one_le_count : ∀ body tally, row.get? body = some tally → 1 ≤ tally.count
  weight_eq_zero : normalised = false →
    ∀ body tally, row.get? body = some tally → tally.weight = .zero
  quotient?_eq : normalised = true →
    ∀ body tally, row.get? body = some tally →
      Binary64.quotient? tally.count total = some tally.weight

/-- The invariant of grammars that are counted, merged and estimated. -/
structure Grammar.Consistent (g : Grammar) : Prop where
  keys_eq : g.symbolCounts.keys = g.rows.keys
  row : ∀ X row, g.rows.get? X = some row → row.Consistent g.normalised (g.symbolCount X)

/-! ## Rows -/

/-- How often the rules of a row were seen after one of them is seen more often. -/
theorem Row.total_add (body : Body) (count : Int) (row : Option Row) :
    (Row.add body count row).total = (row.getD .empty).total + count := by
  have hsum := (row.getD .empty).sum_upsert Tally.count body (Tally.add count)
  have hcount : (Tally.add count ((row.getD .empty).get? body)).count -
      (((row.getD .empty).get? body).map Tally.count).getD 0 = count := by
    cases (row.getD .empty).get? body with
    | none => simp [Tally.add]
    | some tally =>
      simp only [Tally.add, Option.map_some, Option.getD_some]
      omega
  rw [hcount] at hsum
  exact hsum

/-- A row without tallies has seen nothing. -/
theorem Row.total_empty : Row.total .empty = 0 :=
  rfl

/-- What stands in a row after one of its rules is seen more often. -/
theorem Row.get?_add {body body' : Body} {count : Int} {row : Option Row} {tally : Tally}
    (h : (Row.add body count row).get? body' = some tally) :
    (body' = body ∧ tally = Tally.add count ((row.getD .empty).get? body)) ∨
      (row.getD .empty).get? body' = some tally := by
  rw [Row.add, Table.get?_upsert] at h
  split at h
  · rename_i heq
    rw [Option.some.injEq] at h
    exact Or.inl ⟨heq, h.symm⟩
  · exact Or.inr h

/-- A row stays consistent when one of its rules is seen more often, or a first one is seen. -/
theorem Row.Consistent.add {total count : Int} {row : Option Row} {body : Body}
    (hsome : ∀ r, row = some r → r.Consistent false total) (hnone : row = none → total = 0)
    (hrhs : body.rhs ≠ []) (hcount : 1 ≤ count) :
    (Row.add body count row).Consistent false (total + count) := by
  -- The tallies that were there, also when there was no row.
  have hold : ∀ body' tally, (row.getD .empty).get? body' = some tally →
      body'.rhs ≠ [] ∧ 1 ≤ tally.count ∧ tally.weight = .zero := by
    intro body' tally hget
    cases row with
    | none => cases hget
    | some r =>
      have hr := hsome r rfl
      exact ⟨hr.rhs_ne_nil body' tally hget, hr.one_le_count body' tally hget,
        hr.weight_eq_zero rfl body' tally hget⟩
  have hnew : ∀ body' tally, (Row.add body count row).get? body' = some tally →
      body'.rhs ≠ [] ∧ 1 ≤ tally.count ∧ tally.weight = .zero := by
    intro body' tally hget
    rcases Row.get?_add hget with ⟨rfl, rfl⟩ | hget
    · cases hbody : (row.getD .empty).get? body' with
      | none => exact ⟨hrhs, hcount, rfl⟩
      | some old =>
        rcases hold body' old hbody with ⟨-, hone, hzero⟩
        refine ⟨hrhs, ?_, hzero⟩
        change 1 ≤ old.count + count
        omega
    · exact hold body' tally hget
  constructor
  · intro hnil
    have hmem : body ∈ (Row.add body count row).keys := by
      rw [Table.mem_keys_iff, Row.add, Table.get?_upsert, if_pos rfl]
      exact ⟨_, rfl⟩
    rw [hnil] at hmem
    cases hmem
  · rw [Row.total_add]
    cases row with
    | none => rw [hnone rfl, Option.getD_none, Row.total_empty]
    | some r => rw [Option.getD_some, (hsome r rfl).total_eq]
  · exact fun body' tally hget => (hnew body' tally hget).1
  · exact fun body' tally hget => (hnew body' tally hget).2.1
  · exact fun _ body' tally hget => (hnew body' tally hget).2.2
  · intro h
    cases h

namespace Grammar

/-! ## The check -/

/-- The counts pass their check if the count of each nonterminal in either table is the sum of the
counts of its rules. -/
theorem checkCounts_eq_ok_iff {g : Grammar} :
    g.checkCounts = .ok () ↔
      ∀ X, X ∈ g.symbolCounts.keys ∨ X ∈ g.rows.keys → g.symbolCount X = g.rowTotal X := by
  have hnone : g.checkCounts = .ok () ↔ g.inconsistency? = none := by
    unfold checkCounts
    cases g.inconsistency? with
    | none => simp
    | some e => simp
  rw [hnone, inconsistency?, List.findSome?_eq_none_iff]
  simp only [List.mem_append, ite_eq_left_iff, reduceCtorEq, imp_false, not_not]

/-- Counts that do not pass their check: the error names a nonterminal whose count is not the sum of
the counts of its rules. -/
theorem exists_of_checkCounts_eq_error {g : Grammar} {e : Error} (h : g.checkCounts = .error e) :
    ∃ X, (X ∈ g.symbolCounts.keys ∨ X ∈ g.rows.keys) ∧ g.symbolCount X ≠ g.rowTotal X ∧
      e = (Inconsistency.sumMismatch X (g.symbolCount X) (g.rowTotal X)).error := by
  unfold checkCounts at h
  cases hsome : g.inconsistency? with
  | none =>
    rw [hsome] at h
    cases h
  | some i =>
    rw [hsome] at h
    obtain ⟨X, hX, hi⟩ := List.exists_of_findSome?_eq_some hsome
    split at hi
    · cases hi
    · rename_i hne
      refine ⟨X, List.mem_append.1 hX, hne, ?_⟩
      rw [← Except.error.inj h, Option.some.inj hi]

/-! ## Counting productions -/

/-- The counts of nonterminals after a production has been counted. -/
theorem symbolCount_add (g : Grammar) (p : Production) (count : Int) (X : String) :
    (g.add p count).symbolCount X =
      if X = p.lhs then g.symbolCount X + count else g.symbolCount X := by
  unfold symbolCount Table.getD add
  rw [Table.get?_upsert]
  split
  · rename_i heq
    rw [heq, Option.getD_some]
  · rfl

/-- The grammar without counts is consistent. -/
theorem consistent_empty : empty.Consistent where
  keys_eq := rfl
  row _ _ h := by cases h

/-- A tree is counted by an open grammar if its productions can be collected. -/
theorem countTree_eq_ok_iff {g g' : Grammar} {c : Candidate} {n : Nat} :
    g.countTree c = .ok (g', n) ↔
      g.normalised = false ∧ ∃ ps, c.productions = .ok ps ∧ g' = g.addAll ps ∧ n = ps.length := by
  unfold countTree
  cases hg : g.normalised with
  | true => simp
  | false =>
    cases hps : c.productions with
    | error e => simp
    | ok ps => simp [eq_comm]

/-! ## When merging succeeds -/

/-- Whether the counts of an open grammar are added to another open grammar depends on their check. -/
theorem merge_of_open {g other : Grammar} (hg : g.normalised = false)
    (hother : other.normalised = false) :
    g.merge other =
      match other.checkCounts with
      | .error e => .error e
      | .ok () => .ok (g.addCounts other) := by
  rw [merge, hg, hother]
  rfl

/-- Merging succeeds exactly if both grammars are open and the counts of the other one pass their
check, and then it adds all of them. -/
theorem merge_eq_ok_iff {g other merged : Grammar} :
    g.merge other = .ok merged ↔ g.normalised = false ∧ other.normalised = false ∧
      other.checkCounts = .ok () ∧ g.addCounts other = merged := by
  unfold merge
  cases hg : g.normalised with
  | true => simp
  | false =>
    cases hother : other.normalised with
    | true => simp
    | false =>
      cases hcheck : other.checkCounts with
      | error e => simp
      | ok => simp

/-! ## The counts of a consistent grammar -/

namespace Consistent

variable {g other : Grammar}

/-- A nonterminal without rules has not been counted. -/
theorem symbolCount_eq_zero (h : g.Consistent) {X : String} (hX : g.rows.get? X = none) :
    g.symbolCount X = 0 := by
  have hkey : X ∉ g.symbolCounts.keys := by
    rw [h.keys_eq, Table.mem_keys_iff]
    rintro ⟨row, hrow⟩
    rw [hX] at hrow
    cases hrow
  rw [symbolCount, Table.getD, Table.get?_eq_none hkey]
  rfl

/-- The count of each nonterminal is the sum of the counts of its rules. -/
theorem symbolCount_eq_rowTotal (h : g.Consistent) (X : String) :
    g.symbolCount X = g.rowTotal X := by
  unfold rowTotal Table.getD
  cases hX : g.rows.get? X with
  | none => exact h.symbolCount_eq_zero hX
  | some row => exact (h.row X row hX).total_eq.symm

/-- The counts of a consistent grammar pass their check. -/
theorem checkCounts_eq_ok (h : g.Consistent) : g.checkCounts = .ok () :=
  checkCounts_eq_ok_iff.2 fun X _ => h.symbolCount_eq_rowTotal X

/-- Counting a production keeps a grammar consistent. -/
theorem add (h : g.Consistent) (hg : g.normalised = false) {p : Production} {count : Int}
    (hrhs : p.rhs ≠ []) (hcount : 1 ≤ count) : (g.add p count).Consistent where
  keys_eq := by
    rw [Grammar.add, Table.keys_upsert, Table.keys_upsert, h.keys_eq]
  row X row hX := by
    rw [normalised_add, symbolCount_add, hg]
    rw [Grammar.add, Table.get?_upsert] at hX
    split at hX
    · rename_i heq
      rw [Option.some.injEq] at hX
      rw [if_pos heq, ← hX, heq]
      refine Row.Consistent.add ?_ ?_ hrhs hcount
      · intro r hr
        rw [← hg]
        exact h.row p.lhs r hr
      · exact h.symbolCount_eq_zero
    · rename_i hne
      rw [if_neg hne, ← hg]
      exact h.row X row hX

/-- Counting productions keeps a grammar consistent. -/
theorem foldl_add (h : g.Consistent) (hg : g.normalised = false) {pairs : List (Production × Int)}
    (hpairs : ∀ pair ∈ pairs, pair.1.rhs ≠ [] ∧ 1 ≤ pair.2) :
    (pairs.foldl (fun g pair => g.add pair.1 pair.2) g).Consistent := by
  induction pairs generalizing g with
  | nil => exact h
  | cons pair rest ih =>
    rcases hpairs pair (by simp) with ⟨hrhs, hcount⟩
    refine ih (h.add hg hrhs hcount) hg ?_
    exact fun pair' hpair' => hpairs pair' (by simp [hpair'])

/-! ## Counting trees -/

/-- Counting a tree keeps a grammar consistent. -/
theorem countTree (h : g.Consistent) {c : Candidate} {g' : Grammar} {n : Nat}
    (hrun : g.countTree c = .ok (g', n)) : g'.Consistent := by
  obtain ⟨hg, ps, hps, rfl, -⟩ := countTree_eq_ok_iff.1 hrun
  have hpairs : ∀ pair ∈ ps.map fun p => (p, (1 : Int)), pair.1.rhs ≠ [] ∧ 1 ≤ pair.2 := by
    intro pair hpair
    rcases List.mem_map.1 hpair with ⟨p, hp, rfl⟩
    exact ⟨Candidate.rhs_ne_nil hps p hp, Int.le_refl 1⟩
  have hfold := h.foldl_add hg hpairs
  rw [List.foldl_map] at hfold
  exact hfold

/-! ## Merging -/

/-- The tallies of a consistent grammar. -/
theorem of_mem_tallies (h : g.Consistent) {p : Production} {tally : Tally}
    (hmem : (p, tally) ∈ g.tallies) :
    ∃ row, g.rows.get? p.lhs = some row ∧ row.get? p.toBody = some tally ∧
      row.Consistent g.normalised (g.symbolCount p.lhs) := by
  rcases List.mem_flatMap.1 hmem with ⟨⟨X, row⟩, hrow, hmem⟩
  rcases List.mem_map.1 hmem with ⟨⟨body, tally'⟩, hbody, heq⟩
  rcases Prod.mk.inj heq with ⟨rfl, rfl⟩
  have hX : g.rows.get? X = some row := (g.rows.get?_eq_some_iff X row).2 hrow
  exact ⟨row, hX, (row.get?_eq_some_iff body tally').2 hbody, h.row X row hX⟩

/-- Adding the counts of a consistent grammar keeps a grammar consistent, also when they are its
own. -/
theorem merge (h : g.Consistent) (hother : other.Consistent) {g' : Grammar}
    (hrun : g.merge other = .ok g') : g'.Consistent := by
  obtain ⟨hg, -, -, rfl⟩ := merge_eq_ok_iff.1 hrun
  have hpairs : ∀ pair ∈ other.tallies.map fun pt => (pt.1, pt.2.count),
      pair.1.rhs ≠ [] ∧ 1 ≤ pair.2 := by
    intro pair hpair
    rcases List.mem_map.1 hpair with ⟨⟨p, tally⟩, hmem, rfl⟩
    rcases hother.of_mem_tallies hmem with ⟨row, -, hbody, hrow⟩
    exact ⟨hrow.rhs_ne_nil p.toBody tally hbody, hrow.one_le_count p.toBody tally hbody⟩
  have hfold := h.foldl_add hg hpairs
  rw [List.foldl_map] at hfold
  exact hfold

end Consistent
end Grammar
end TreebankGrammar
