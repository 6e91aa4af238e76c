import Mathlib.Algebra.Order.BigOperators.Group.List
import Mathlib.Algebra.Order.Group.Int
import TreebankGrammar.Grammar.Estimation
import TreebankGrammar.Proofs.Grammar.Tallies
import TreebankGrammar.Proofs.Number.Overflow

/-!
# Estimated weights

Estimation succeeds on a grammar whose counts add up, whose rows belong to nonterminals that were seen,
and whose quotients are numbers.  A consistent grammar is of this kind: the count of each rule is at least
one and at most the count of its nonterminal, so that every quotient is at most one.  The estimated
grammar has the quotients, correctly rounded, as its weights and is consistent again.

Main definitions:

- `Grammar.Estimable`: what estimation asks of the counts of a grammar.

Main results:

- Theorem `Row.Consistent.sum_quotients`: the exact quotients of a nonterminal add up to one.
- Theorem `Estimable.estimate_eq`: what estimation makes of a grammar if it succeeds.
- Theorem `Consistent.estimable`: the weights of a consistent grammar can be estimated.
- Theorem `Consistent.withQuotients_eq_self`: weights that have been estimated do not change again.
- Theorem `Consistent.estimate`: estimation keeps a grammar consistent.
-/

namespace TreebankGrammar

namespace Row

/-! ## Quotients -/

/-- The row whose weights are the quotients of the counts by a total, where these are numbers. -/
def withQuotients (total : Int) (row : Row) : Row :=
  row.map fun _ tally =>
    { tally with weight := (Binary64.quotient? tally.count total).getD tally.weight }

theorem total_withQuotients (total : Int) (row : Row) :
    (row.withQuotients total).total = row.total := by
  unfold Row.total withQuotients
  rw [Table.values_map]
  simp [Table.values, Function.comp_def]

/-- The exact quotients of tallies add up to the quotient of the sum of their counts. -/
theorem sum_map_count_div (tallies : List Tally) (total : Int) :
    (tallies.map fun tally => (tally.count : ℚ) / total).sum =
      ((tallies.map Tally.count).sum : Int) / (total : ℚ) := by
  induction tallies with
  | nil => simp
  | cons tally rest ih =>
    rw [List.map_cons, List.sum_cons, ih, List.map_cons, List.sum_cons, Int.cast_add, add_div]

namespace Consistent

variable {normalised : Bool} {total : Int} {row : Row}

/-- A rule was seen no more often than its nonterminal. -/
theorem count_le (h : row.Consistent normalised total) {body : Body} {tally : Tally}
    (hbody : row.get? body = some tally) : tally.count ≤ total := by
  have hnonneg : ∀ n ∈ row.values.map Tally.count, 0 ≤ n := by
    intro n hn
    rcases List.mem_map.1 hn with ⟨tally', hmem, rfl⟩
    rcases List.mem_map.1 hmem with ⟨⟨body', tally''⟩, hentry, rfl⟩
    have hone := h.one_le_count body' tally'' ((row.get?_eq_some_iff body' tally'').2 hentry)
    exact Int.le_trans Int.one_nonneg hone
  have hmem : tally.count ∈ row.values.map Tally.count := by
    refine List.mem_map.2 ⟨tally, ?_, rfl⟩
    exact List.mem_map.2 ⟨(body, tally), (row.get?_eq_some_iff body tally).1 hbody, rfl⟩
  rw [← h.total_eq]
  exact List.single_le_sum hnonneg tally.count hmem

/-- A nonterminal with rules was seen. -/
theorem total_pos (h : row.Consistent normalised total) : 0 < total := by
  rcases List.exists_mem_of_ne_nil _ h.keys_ne_nil with ⟨body, hbody⟩
  rcases (row.mem_keys_iff body).1 hbody with ⟨tally, htally⟩
  have hone := h.one_le_count body tally htally
  have hle := h.count_le htally
  omega

/-- The exact quotients of the rules of a nonterminal add up to one. -/
theorem sum_quotients (h : row.Consistent normalised total) :
    (row.values.map fun tally => (tally.count : ℚ) / total).sum = 1 := by
  have htotal : (total : ℚ) ≠ 0 := Int.cast_ne_zero.2 h.total_pos.ne'
  have hsum : (row.values.map Tally.count).sum = total := h.total_eq
  rw [sum_map_count_div, hsum, div_self htotal]

/-- The quotient of each rule is a number. -/
theorem exists_quotient? (h : row.Consistent normalised total) {body : Body} {tally : Tally}
    (hbody : row.get? body = some tally) :
    ∃ weight, Binary64.quotient? tally.count total = some weight := by
  have hone := h.one_le_count body tally hbody
  have hle := h.count_le hbody
  exact Binary64.exists_quotient? h.total_pos (by omega)

/-- A row with its quotients as weights is the row of a normalised grammar. -/
theorem withQuotients (h : row.Consistent normalised total) :
    (row.withQuotients total).Consistent true total where
  keys_ne_nil := by
    rw [Row.withQuotients, Table.keys_map]
    exact h.keys_ne_nil
  total_eq := by rw [total_withQuotients, h.total_eq]
  rhs_ne_nil body tally hbody := by
    rw [Row.withQuotients, Table.get?_map, Option.map_eq_some_iff] at hbody
    rcases hbody with ⟨old, hold, -⟩
    exact h.rhs_ne_nil body old hold
  one_le_count body tally hbody := by
    rw [Row.withQuotients, Table.get?_map, Option.map_eq_some_iff] at hbody
    rcases hbody with ⟨old, hold, rfl⟩
    exact h.one_le_count body old hold
  weight_eq_zero htrue := by cases htrue
  quotient?_eq _ body tally hbody := by
    rw [Row.withQuotients, Table.get?_map, Option.map_eq_some_iff] at hbody
    rcases hbody with ⟨old, hold, rfl⟩
    rcases h.exists_quotient? hold with ⟨weight, hweight⟩
    change Binary64.quotient? old.count total =
      some ((Binary64.quotient? old.count total).getD old.weight)
    rw [hweight, Option.getD_some]

/-- A row whose weights have been estimated has its quotients as weights. -/
theorem withQuotients_eq_self (h : row.Consistent true total) : row.withQuotients total = row := by
  refine Table.map_eq_self ?_
  rintro ⟨body, tally⟩ hentry
  have hquotient := h.quotient?_eq rfl body tally ((row.get?_eq_some_iff body tally).2 hentry)
  rw [hquotient]
  rfl

end Consistent
end Row

namespace Grammar

/-! ## Estimation -/

/-- The grammar whose weights are the quotients of the counts, which takes no more counts. -/
def withQuotients (g : Grammar) : Grammar :=
  { g with rows := g.rows.map fun X row => row.withQuotients (g.symbolCount X), normalised := true }

/-- The row of a nonterminal when the weights are the quotients. -/
theorem row_withQuotients (g : Grammar) (X : String) :
    g.withQuotients.row X = (g.row X).withQuotients (g.symbolCount X) := by
  unfold row withQuotients Table.getD
  rw [Table.get?_map]
  cases g.rows.get? X with
  | none => rfl
  | some row => rfl

/-- The tallies of a grammar with its quotients as weights. -/
theorem tally?_withQuotients (g : Grammar) (p : Production) :
    g.withQuotients.tally? p = (g.tally? p).map fun tally =>
      { tally with
        weight := (Binary64.quotient? tally.count (g.symbolCount p.lhs)).getD tally.weight } := by
  rw [tally?, row_withQuotients, Row.withQuotients, Table.get?_map, tally?]

/-- Estimation of a tally whose quotient is a number: the weight becomes the quotient. -/
theorem estimateTally_eq {total : Int} {tally : Tally} {weight : Weight} (body : Body)
    (h : Binary64.quotient? tally.count total = some weight) :
    estimateTally total none body tally = (none, { tally with weight }) := by
  rw [estimateTally.eq_def, h]

/-- What estimation asks of the counts of a grammar, whatever has been written to it: the count of each
nonterminal is the sum of the counts of its rules, nonterminals with a row have been seen, and no
quotient is too large. -/
structure Estimable (g : Grammar) : Prop where
  symbolCount_eq : ∀ X, X ∈ g.symbolCounts.keys ∨ X ∈ g.rows.keys → g.symbolCount X = g.rowTotal X
  symbolCount_pos : ∀ X ∈ g.rows.keys, 0 < g.symbolCount X
  quotient_lt : ∀ p tally, g.tally? p = some tally →
    |(tally.count : ℚ) / g.symbolCount p.lhs| < Binary64.overflowThreshold

namespace Estimable

variable {g : Grammar}

/-- The quotient of each rule is a number. -/
theorem exists_quotient? (h : g.Estimable) {X : String} {row : Row} {body : Body} {tally : Tally}
    (hX : g.rows.get? X = some row) (hbody : row.get? body = some tally) :
    ∃ weight, Binary64.quotient? tally.count (g.symbolCount X) = some weight := by
  have htally : g.tally? (.ofBody X body) = some tally := by
    rw [tally?, Grammar.row, Table.getD, Production.lhs_ofBody, hX, Option.getD_some]
    exact hbody
  have hpos := h.symbolCount_pos X ((g.rows.mem_keys_iff X).2 ⟨row, hX⟩)
  have hlt := h.quotient_lt _ tally htally
  rw [Production.lhs_ofBody] at hlt
  exact (Binary64.exists_quotient?_iff hpos).2 hlt

/-- Estimation of a row: the weights become the quotients. -/
theorem estimateRow_eq (h : g.Estimable) {X : String} {row : Row} (hX : g.rows.get? X = some row) :
    g.estimateRow none X row = (none, row.withQuotients (g.symbolCount X)) := by
  have hpos : ¬g.symbolCount X ≤ 0 :=
    not_le.2 (h.symbolCount_pos X ((g.rows.mem_keys_iff X).2 ⟨row, hX⟩))
  have htally : ∀ entry ∈ row.entries,
      estimateTally (g.symbolCount X) none entry.1 entry.2 =
        (none, { entry.2 with
          weight :=
            (Binary64.quotient? entry.2.count (g.symbolCount X)).getD entry.2.weight }) := by
    rintro ⟨body, tally⟩ hentry
    rcases h.exists_quotient? hX ((row.get?_eq_some_iff body tally).2 hentry) with ⟨weight, hweight⟩
    rw [estimateTally_eq body hweight, hweight, Option.getD_some]
  have hgoes : ∀ entry ∈ row.entries,
      (estimateTally (g.symbolCount X) none entry.1 entry.2).1 = none := by
    intro entry hentry
    rw [htally entry hentry]
  have hvalues : (row.map fun body tally => (estimateTally (g.symbolCount X) none body tally).2) =
      row.withQuotients (g.symbolCount X) := by
    apply Table.map_congr
    intro entry hentry
    rw [htally entry hentry]
  rw [estimateRow]
  simp only [if_neg hpos]
  rw [Table.mapAccum_eq_map hgoes, hvalues]

/-- What estimation makes of a grammar if it succeeds: the weights become the quotients. -/
theorem estimate_eq (h : g.Estimable) :
    g.estimate =
      { grammar := g.withQuotients
        notices := [.estimated g.size g.rows.size]
        result := .ok () } := by
  have hrows : ∀ entry ∈ g.rows.entries, g.estimateRow none entry.1 entry.2 =
      (none, entry.2.withQuotients (g.symbolCount entry.1)) := by
    rintro ⟨X, row⟩ hentry
    exact h.estimateRow_eq ((g.rows.get?_eq_some_iff X row).2 hentry)
  have hgoes : ∀ entry ∈ g.rows.entries, (g.estimateRow none entry.1 entry.2).1 = none := by
    intro entry hentry
    rw [hrows entry hentry]
  have hvalues :
      (g.rows.map fun X row => (g.estimateRow none X row).2) = g.withQuotients.rows := by
    unfold Grammar.withQuotients
    dsimp only
    apply Table.map_congr
    intro entry hentry
    rw [hrows entry hentry]
  have hsize : g.withQuotients.rows.size = g.rows.size := by
    simp [withQuotients, Table.size, Table.map]
  unfold Grammar.estimate
  rw [checkCounts_eq_ok_iff.2 h.symbolCount_eq]
  dsimp only
  rw [Table.mapAccum_eq_map hgoes, hvalues]
  simp only [hsize]
  rfl

end Estimable

namespace Consistent

variable {g : Grammar}

/-- The weights of a consistent grammar can be estimated. -/
theorem estimable (h : g.Consistent) : g.Estimable where
  symbolCount_eq X _ := h.symbolCount_eq_rowTotal X
  symbolCount_pos X hX := by
    rcases (g.rows.mem_keys_iff X).1 hX with ⟨row, hrow⟩
    exact (h.row X row hrow).total_pos
  quotient_lt p tally htally := by
    rcases h.of_mem_tallies (mem_tallies_iff.2 htally) with ⟨row, -, hbody, hrow⟩
    exact (Binary64.exists_quotient?_iff hrow.total_pos).1 (hrow.exists_quotient? hbody)

/-- What estimation makes of a consistent grammar: the weights become the quotients. -/
theorem estimate_eq (h : g.Consistent) :
    g.estimate =
      { grammar := g.withQuotients
        notices := [.estimated g.size g.rows.size]
        result := .ok () } :=
  h.estimable.estimate_eq

/-- Estimation succeeds on a consistent grammar. -/
theorem estimate_result (h : g.Consistent) : g.estimate.result = .ok () := by
  rw [h.estimate_eq]

/-- A consistent grammar stays so with its quotients as weights. -/
theorem withQuotients (h : g.Consistent) : g.withQuotients.Consistent where
  keys_eq := by
    rw [Grammar.withQuotients, Table.keys_map]
    exact h.keys_eq
  row X row hX := by
    rw [Grammar.withQuotients, Table.get?_map, Option.map_eq_some_iff] at hX
    rcases hX with ⟨old, hold, rfl⟩
    exact (h.row X old hold).withQuotients

/-- A grammar whose weights have been estimated has its quotients as weights. -/
theorem withQuotients_eq_self (h : g.Consistent) (hg : g.normalised = true) :
    g.withQuotients = g := by
  have hrows : (g.rows.map fun X row => row.withQuotients (g.symbolCount X)) = g.rows := by
    refine Table.map_eq_self ?_
    rintro ⟨X, row⟩ hentry
    have hrow := h.row X row ((g.rows.get?_eq_some_iff X row).2 hentry)
    rw [hg] at hrow
    exact hrow.withQuotients_eq_self
  rw [Grammar.withQuotients, hrows, ← hg]

/-- Estimation keeps a grammar consistent. -/
theorem estimate (h : g.Consistent) : g.estimate.grammar.Consistent := by
  rw [h.estimate_eq]
  exact h.withQuotients

end Consistent
end Grammar
end TreebankGrammar
