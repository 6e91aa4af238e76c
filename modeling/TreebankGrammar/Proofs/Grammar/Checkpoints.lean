import TreebankGrammar.Proofs.Grammar.Estimation
import TreebankGrammar.Proofs.Grammar.Representation

/-!
# Checkpoints of estimation

Estimation goes through the rows in order and comes to each nonterminal and after it to the rules in
its row.  It passes these checkpoints one after the other up to the first that is not passed.  Tables that
stand for a grammar still do so afterwards, also when estimation has stopped on the way.

Main definitions:

- `Grammar.ruleCounts`: the counts of all rules, which estimation keeps.
- `Tables.Follows`: passing checkpoints does to objects what estimation does to tallies.

Main results:

- Theorem `Grammar.ruleCounts_mapAccum`: estimation changes no count of a rule.
- Theorem `Tables.Follows.mapAccum`: estimation of entries consists of the estimations of each of them.
- Theorem `Tables.Represents.estimate`: estimation of tables that stand for a grammar.
-/

namespace TreebankGrammar

/-! ## The counts of all rules -/

namespace Grammar

/-- The counts of all rules in the order of the tables. -/
def ruleCounts (g : Grammar) : Table String (Table Body Int) :=
  g.rows.map fun _ row => row.map fun _ tally => tally.count

/-- Estimation of a row changes no count. -/
theorem map_count_estimateRow (g : Grammar) (stopped : Option Error) (X : String) (row : Row) :
    (g.estimateRow stopped X row).2.map (fun _ tally => tally.count) =
      row.map fun _ tally => tally.count := by
  have htally : ∀ stopped body tally,
      (estimateTally (g.symbolCount X) stopped body tally).2.count = tally.count := by
    intro stopped body tally
    cases stopped with
    | some e => rfl
    | none =>
      cases hquotient : Binary64.quotient? tally.count (g.symbolCount X) with
      | none => rw [estimateTally.eq_def, hquotient]
      | some weight => rw [estimateTally_eq body hquotient]
  unfold estimateRow
  split
  · rfl
  · dsimp only
    split
    · rfl
    · exact Table.map_mapAccum htally none row

/-- Nor does estimation of all rows. -/
theorem ruleCounts_mapAccum (g : Grammar) :
    { g with rows := (g.rows.mapAccum g.estimateRow none).2 }.ruleCounts = g.ruleCounts :=
  Table.map_mapAccum g.map_count_estimateRow none g.rows

/-- Estimation of a row keeps its productions. -/
theorem keys_estimateRow (g : Grammar) (stopped : Option Error) (X : String) (row : Row) :
    (g.estimateRow stopped X row).2.keys = row.keys := by
  have h := congrArg Table.keys (g.map_count_estimateRow stopped X row)
  rwa [Table.keys_map, Table.keys_map] at h

/-- The row of a nonterminal and its counts. -/
theorem map_count_row (g : Grammar) (X : String) :
    ((g.row X).map fun _ tally => tally.count) = g.ruleCounts.getD X .empty := by
  rw [ruleCounts, Table.getD, Table.get?_map, row, Table.getD]
  cases g.rows.get? X with
  | none => rfl
  | some row => rfl

section SameCounts

variable {g g' : Grammar} (h : g'.ruleCounts = g.ruleCounts)

include h

theorem keys_rows_of_ruleCounts : g'.rows.keys = g.rows.keys := by
  have hkeys := congrArg Table.keys h
  rwa [ruleCounts, ruleCounts, Table.keys_map, Table.keys_map] at hkeys

theorem keys_row_of_ruleCounts (X : String) : (g'.row X).keys = (g.row X).keys := by
  have hrow := congrArg Table.keys ((g'.map_count_row X).trans (h ▸ (g.map_count_row X).symm))
  rwa [Table.keys_map, Table.keys_map] at hrow

theorem count_tally?_of_ruleCounts (p : Production) :
    (g'.tally? p).map Tally.count = (g.tally? p).map Tally.count := by
  have hrow := congrArg (Table.get? · p.toBody)
    ((g'.map_count_row p.lhs).trans (h ▸ (g.map_count_row p.lhs).symm))
  rwa [Table.get?_map, Table.get?_map] at hrow

end SameCounts
end Grammar

namespace Tables

/-! ## Passing checkpoints -/

section Weigh

variable {symbolCount : String → Int} {weights weights' : Nat → Weight} {cp : Checkpoint}
  {cps : List Checkpoint} {X : String} {holding : Holding} {weight : Weight} {e : Grammar.Error}

theorem pass_nonterminal_of_not_pos (h : symbolCount X ≤ 0) :
    pass symbolCount weights (.nonterminal X) =
      .error (Inconsistency.notPositive X (symbolCount X)).error := by
  rw [pass, if_pos h]

theorem pass_nonterminal_of_pos (h : ¬symbolCount X ≤ 0) :
    pass symbolCount weights (.nonterminal X) = .ok weights := by
  rw [pass, if_neg h]

theorem pass_rule_of_none (h : Binary64.quotient? holding.count (symbolCount X) = none) :
    pass symbolCount weights (.rule X holding) = .error .overflow := by
  rw [pass, h, setQuotient]

theorem pass_rule_of_some (h : Binary64.quotient? holding.count (symbolCount X) = some weight) :
    pass symbolCount weights (.rule X holding) =
      .ok (Function.update weights holding.object weight) := by
  rw [pass, h, setQuotient]

theorem weigh_of_error (h : pass symbolCount weights cp = .error e) :
    weigh symbolCount weights (cp :: cps) = (weights, some e) := by
  rw [weigh, h]

theorem weigh_of_ok (h : pass symbolCount weights cp = .ok weights') :
    weigh symbolCount weights (cp :: cps) = weigh symbolCount weights' cps := by
  rw [weigh, h]

/-- What comes after checkpoints that are passed. -/
theorem weigh_append (h : weigh symbolCount weights cps = (weights', none))
    (cps' : List Checkpoint) :
    weigh symbolCount weights (cps ++ cps') = weigh symbolCount weights' cps' := by
  induction cps generalizing weights with
  | nil =>
    obtain ⟨rfl, -⟩ := Prod.mk.inj h
    rfl
  | cons cp cps ih =>
    cases hpass : pass symbolCount weights cp with
    | ok next =>
      rw [weigh_of_ok hpass] at h
      rw [List.cons_append, weigh_of_ok hpass]
      exact ih h
    | error e =>
      rw [weigh_of_error hpass] at h
      cases h

/-- Checkpoints behind one that is not passed do not matter. -/
theorem weigh_append_of_stopped (h : weigh symbolCount weights cps = (weights', some e))
    (cps' : List Checkpoint) : weigh symbolCount weights (cps ++ cps') = (weights', some e) := by
  induction cps generalizing weights with
  | nil => cases h
  | cons cp cps ih =>
    cases hpass : pass symbolCount weights cp with
    | ok next =>
      rw [weigh_of_ok hpass] at h
      rw [List.cons_append, weigh_of_ok hpass]
      exact ih h
    | error e =>
      rw [weigh_of_error hpass] at h
      rw [List.cons_append, weigh_of_error hpass]
      exact h

end Weigh

/-! ## Objects and tallies -/

/-- Estimation goes over checkpoints as it goes over tallies: when the objects have the weights of the old
tallies, it stops or not at the same error, leaves the objects with the weights of the new ones,
and changes the weights of no other objects. -/
def Follows (object : Production → Nat) (symbolCount : String → Int) (cps : List Checkpoint)
    (old new : List (Production × Tally)) (stopped : Option Grammar.Error) : Prop :=
  ∀ weights : Nat → Weight, (∀ entry ∈ old, weights (object entry.1) = entry.2.weight) →
    ∃ weights', weigh symbolCount weights cps = (weights', stopped) ∧
      (∀ entry ∈ new, weights' (object entry.1) = entry.2.weight) ∧
      ∀ cell, cell ∉ old.map (object ·.1) → weights' cell = weights cell

namespace Follows

variable {object : Production → Nat} {symbolCount : String → Int} {cps cps' : List Checkpoint}
  {old new old' new' : List (Production × Tally)} {e : Grammar.Error} {stopped : Option Grammar.Error}

theorem nil : Follows object symbolCount [] [] [] none :=
  fun weights _ => ⟨weights, rfl, by simp, fun _ _ => rfl⟩

/-- An object that is apart from those of some tallies keeps its weight when only theirs change. -/
theorem weight_eq_of_apart {weights weights' : Nat → Weight} {entry : Production × Tally}
    (hframe : ∀ cell, cell ∉ old.map (object ·.1) → weights' cell = weights cell)
    (hapart : ∀ other ∈ old, object other.1 ≠ object entry.1) :
    weights' (object entry.1) = weights (object entry.1) := by
  refine hframe _ fun hmem => ?_
  obtain ⟨other, hother, heq⟩ := List.mem_map.1 hmem
  exact hapart other hother heq

/-- Estimation that has not stopped goes on. -/
theorem append (h : Follows object symbolCount cps old new none)
    (h' : Follows object symbolCount cps' old' new' stopped)
    (hfst : new.map Prod.fst = old.map Prod.fst)
    (hdisjoint : ∀ entry ∈ old, ∀ entry' ∈ old', object entry.1 ≠ object entry'.1) :
    Follows object symbolCount (cps ++ cps') (old ++ old') (new ++ new') stopped := by
  intro weights hweights
  obtain ⟨hold, hold'⟩ := List.forall_mem_append.1 hweights
  obtain ⟨weights₁, hweigh, hnew, hframe⟩ := h weights hold
  have hnext : ∀ entry ∈ old', weights₁ (object entry.1) = entry.2.weight := by
    intro entry hentry
    rw [weight_eq_of_apart hframe fun other hother => hdisjoint other hother entry hentry]
    exact hold' entry hentry
  obtain ⟨weights₂, hweigh', hnew', hframe'⟩ := h' weights₁ hnext
  refine ⟨weights₂, (weigh_append hweigh cps').trans hweigh', ?_, fun cell hcell => ?_⟩
  · refine List.forall_mem_append.2 ⟨fun entry hentry => ?_, hnew'⟩
    -- The object is that of an old tally.
    have hmem : entry.1 ∈ old.map Prod.fst := hfst ▸ List.mem_map_of_mem hentry
    obtain ⟨first, hfirst, heq⟩ := List.mem_map.1 hmem
    rw [weight_eq_of_apart hframe' fun other hother =>
      heq ▸ (hdisjoint first hfirst other hother).symm]
    exact hnew entry hentry
  · rw [List.map_append, List.mem_append, not_or] at hcell
    rw [hframe' cell hcell.2, hframe cell hcell.1]

/-- Estimation that has stopped changes nothing more. -/
theorem append_of_stopped (h : Follows object symbolCount cps old new (some e))
    (cps' : List Checkpoint)
    (hdisjoint : ∀ entry ∈ old, ∀ entry' ∈ old', object entry.1 ≠ object entry'.1) :
    Follows object symbolCount (cps ++ cps') (old ++ old') (new ++ old') (some e) := by
  intro weights hweights
  obtain ⟨hold, hold'⟩ := List.forall_mem_append.1 hweights
  obtain ⟨weights₁, hweigh, hnew, hframe⟩ := h weights hold
  refine ⟨weights₁, weigh_append_of_stopped hweigh cps', ?_, fun cell hcell => ?_⟩
  · refine List.forall_mem_append.2 ⟨hnew, fun entry hentry => ?_⟩
    rw [weight_eq_of_apart hframe fun other hother => hdisjoint other hother entry hentry]
    exact hold' entry hentry
  · rw [List.map_append, List.mem_append, not_or] at hcell
    exact hframe cell hcell.1

/-- Estimation of entries consists of the estimations of each of them. -/
theorem mapAccum {κ ν : Type} {f : Option Grammar.Error → κ → ν → Option Grammar.Error × ν}
    (cps : κ → ν → List Checkpoint) (listed : κ → ν → List (Production × Tally))
    (hstopped : ∀ e key value, f (some e) key value = (some e, value))
    (hfst : ∀ key value, (listed key (f none key value).2).map Prod.fst =
      (listed key value).map Prod.fst)
    (hstep : ∀ key value, ((listed key value).map (object ·.1)).Nodup →
      Follows object symbolCount (cps key value) (listed key value)
        (listed key (f none key value).2) (f none key value).1)
    (entries : List (κ × ν))
    (hnodup : ((entries.flatMap fun entry => listed entry.1 entry.2).map (object ·.1)).Nodup) :
    Follows object symbolCount (entries.flatMap fun entry => cps entry.1 entry.2)
      (entries.flatMap fun entry => listed entry.1 entry.2)
      ((Entries.mapAccum f none entries).2.flatMap fun entry => listed entry.1 entry.2)
      (Entries.mapAccum f none entries).1 := by
  induction entries with
  | nil => exact nil
  | cons entry entries ih =>
    obtain ⟨key, value⟩ := entry
    rw [List.flatMap_cons, List.map_append, List.nodup_append] at hnodup
    obtain ⟨hnodup₁, hnodup₂, hdisjoint⟩ := hnodup
    have hapart : ∀ entry ∈ listed key value,
        ∀ entry' ∈ entries.flatMap fun entry => listed entry.1 entry.2,
          object entry.1 ≠ object entry'.1 :=
      fun entry hentry entry' hentry' =>
        hdisjoint _ (List.mem_map_of_mem hentry) _ (List.mem_map_of_mem hentry')
    have hfirst := hstep key value hnodup₁
    have hkeys := hfst key value
    rw [Entries.mapAccum]
    generalize f none key value = result at hfirst hkeys
    obtain ⟨state, value'⟩ := result
    cases state with
    | none => exact hfirst.append (ih hnodup₂) hkeys hapart
    | some e =>
      have hrest : Entries.mapAccum f (some e) entries = (some e, entries) :=
        Entries.mapAccum_eq_self fun entry _ => hstopped e entry.1 entry.2
      simp only [hrest]
      exact hfirst.append_of_stopped _ hapart

/-- Estimation of one tally. -/
theorem tally (object : Production → Nat) (symbolCount : String → Int) (X : String) (body : Body)
    (old : Tally) :
    Follows object symbolCount [.rule X ⟨old.count, object (.ofBody X body)⟩] [(.ofBody X body, old)]
      [(.ofBody X body, (Grammar.estimateTally (symbolCount X) none body old).2)]
      (Grammar.estimateTally (symbolCount X) none body old).1 := by
  cases hquotient : Binary64.quotient? old.count (symbolCount X) with
  | none =>
    have hestimate : Grammar.estimateTally (symbolCount X) none body old = (some .overflow, old) := by
      rw [Grammar.estimateTally.eq_def, hquotient]
    rw [hestimate]
    intro weights hweights
    exact ⟨weights, weigh_of_error (pass_rule_of_none hquotient), hweights, fun _ _ => rfl⟩
  | some weight =>
    rw [Grammar.estimateTally_eq body hquotient]
    intro weights hweights
    refine ⟨Function.update weights (object (.ofBody X body)) weight,
      weigh_of_ok (pass_rule_of_some hquotient), ?_, fun cell hcell => ?_⟩
    · rw [List.forall_mem_singleton]
      exact Function.update_self ..
    · exact Function.update_of_ne (by simpa using hcell) ..

/-- The tallies of a row. -/
def rowTallies (X : String) (row : Row) : List (Production × Tally) :=
  row.entries.map fun entry => (.ofBody X entry.1, entry.2)

/-- The checkpoints of a row: first its nonterminal, then its rules. -/
def rowCheckpoints (object : Production → Nat) (X : String) (row : Row) : List Checkpoint :=
  .nonterminal X :: row.entries.map fun entry =>
    .rule X ⟨entry.2.count, object (.ofBody X entry.1)⟩

theorem map_fst_rowTallies (X : String) (row : Row) :
    (rowTallies X row).map Prod.fst = row.keys.map (.ofBody X) := by
  rw [rowTallies, Table.keys, List.map_map, List.map_map]
  rfl

/-- Estimation of one row. -/
theorem row (object : Production → Nat) (g : Grammar) (X : String) (row : Row)
    (hnodup : ((rowTallies X row).map (object ·.1)).Nodup) :
    Follows object g.symbolCount (rowCheckpoints object X row) (rowTallies X row)
      (rowTallies X (g.estimateRow none X row).2) (g.estimateRow none X row).1 := by
  by_cases hX : g.symbolCount X ≤ 0
  · have hestimate : g.estimateRow none X row =
        (some (Inconsistency.notPositive X (g.symbolCount X)).error, row) := if_pos hX
    rw [hestimate]
    intro weights hweights
    exact ⟨weights, weigh_of_error (pass_nonterminal_of_not_pos hX), hweights, fun _ _ => rfl⟩
  · have hestimate : g.estimateRow none X row =
        row.mapAccum (Grammar.estimateTally (g.symbolCount X)) none := if_neg hX
    have hrow := mapAccum (f := Grammar.estimateTally (g.symbolCount X))
      (fun body old => [.rule X ⟨old.count, object (.ofBody X body)⟩])
      (fun body old => [(Production.ofBody X body, old)]) (fun _ _ _ => rfl)
      (fun body old => by rw [List.map_singleton, List.map_singleton])
      (fun body old _ => tally object g.symbolCount X body old) row.entries
    simp only [← List.map_eq_flatMap] at hrow
    rw [hestimate]
    intro weights hweights
    rw [rowCheckpoints, weigh_of_ok (pass_nonterminal_of_pos hX)]
    exact hrow hnodup weights hweights

/-- Estimation of all rows. -/
theorem rows (object : Production → Nat) (g : Grammar)
    (hnodup : (g.tallies.map (object ·.1)).Nodup) :
    Follows object g.symbolCount
      (g.rows.entries.flatMap fun entry => rowCheckpoints object entry.1 entry.2) g.tallies
      { g with rows := (g.rows.mapAccum g.estimateRow none).2 }.tallies
      (g.rows.mapAccum g.estimateRow none).1 := by
  have hfst : ∀ X row, (rowTallies X (g.estimateRow none X row).2).map Prod.fst =
      (rowTallies X row).map Prod.fst := by
    intro X row
    rw [map_fst_rowTallies, g.keys_estimateRow none X row, map_fst_rowTallies]
  exact mapAccum (f := g.estimateRow) (rowCheckpoints object) rowTallies (fun _ _ _ => rfl) hfst
    (Follows.row object g) g.rows.entries hnodup

end Follows

namespace Represents

variable {t : Tables} {g : Grammar} {object : Production → Nat}

/-- The checkpoints of tables that stand for a grammar. -/
theorem checkpoints_eq (ht : t.Represents g object) :
    t.checkpoints =
      g.rows.entries.flatMap fun entry => Follows.rowCheckpoints object entry.1 entry.2 := by
  have hkeys : t.checkpoints =
      t.rows.keys.flatMap fun X => .nonterminal X :: (t.row X).values.map (.rule X) := by
    rw [checkpoints, Table.keys, List.flatMap_map]
    refine List.flatMap_congr fun entry hentry => ?_
    rw [row_of_mem_entries hentry]
  rw [hkeys, ht.keys_rows, Table.keys, List.flatMap_map]
  refine List.flatMap_congr fun entry hentry => ?_
  rw [Follows.rowCheckpoints, Table.values, ht.entries_row_eq, Grammar.row_of_mem_entries hentry,
    List.map_map, List.map_map]
  rfl

/-- Each production is an object of its own. -/
theorem nodup_objects (ht : t.Represents g object) : (g.tallies.map (object ·.1)).Nodup := by
  have hmap : g.tallies.map (object ·.1) = (g.tallies.map Prod.fst).map object := by
    rw [List.map_map]
    rfl
  rw [hmap]
  refine g.nodup_map_fst_tallies.map_on fun p hp q hq heq => ?_
  obtain ⟨⟨_, tally⟩, hmem, rfl⟩ := List.mem_map.1 hp
  obtain ⟨⟨_, tally'⟩, hmem', rfl⟩ := List.mem_map.1 hq
  exact ht.object_inj _ _ tally tally' (Grammar.mem_tallies_iff.1 hmem)
    (Grammar.mem_tallies_iff.1 hmem') heq

/-- Tables that stand for a grammar stand for one with the same counts if their objects have its
weights. -/
theorem of_ruleCounts (ht : t.Represents g object) {rows : Table String Row}
    (hcounts : { g with rows := rows }.ruleCounts = g.ruleCounts) {weights : Nat → Weight}
    (hweights : ∀ entry ∈ { g with rows := rows }.tallies,
      weights (object entry.1) = entry.2.weight) {flag flag' : Bool} (hflag : flag = flag') :
    Represents { t with weights := weights, normalised := flag }
      { g with rows := rows, normalised := flag' } object := by
  have hcount := Grammar.count_tally?_of_ruleCounts hcounts
  have hseen : ∀ p tally, { g with rows := rows }.tally? p = some tally →
      ∃ old, g.tally? p = some old := by
    intro p tally h
    have hp := hcount p
    rw [h] at hp
    obtain ⟨old, hold, -⟩ := Option.map_eq_some_iff.1 hp.symm
    exact ⟨old, hold⟩
  constructor
  · exact ht.symbolCounts
  · exact hflag
  · exact ht.keys_rows.trans (Grammar.keys_rows_of_ruleCounts hcounts).symm
  · intro X
    have hkeys := congrArg (List.map (Production.ofBody X)) (Grammar.keys_row_of_ruleCounts hcounts X)
    exact (ht.keys_row X).trans hkeys.symm
  · intro p
    have hheld := congrArg (Option.map fun count => (⟨count, object p⟩ : Holding)) (hcount p)
    rw [Option.map_map, Option.map_map] at hheld
    exact (ht.held p).trans hheld.symm
  · exact fun p tally h => hweights (p, tally) (Grammar.mem_tallies_iff.2 h)
  · intro p q tally tally' hp hq heq
    obtain ⟨old, hold⟩ := hseen p tally hp
    obtain ⟨old', hold'⟩ := hseen q tally' hq
    exact ht.object_inj p q old old' hold hold' heq

/-- Estimating the weights of tables that stand for a grammar. -/
theorem estimate (ht : t.Represents g object) :
    t.estimate.result = g.estimate.result ∧
      t.estimate.tables.Represents g.estimate.grammar object := by
  have hsymbol : t.symbolCount = g.symbolCount := funext ht.symbolCount_eq
  have hold : ∀ entry ∈ g.tallies, t.weights (object entry.1) = entry.2.weight :=
    fun entry hentry => ht.weight _ _ (Grammar.mem_tallies_iff.1 hentry)
  obtain ⟨weights, hweigh, hnew, -⟩ := Follows.rows object g ht.nodup_objects t.weights hold
  have hcounts := g.ruleCounts_mapAccum
  unfold Tables.estimate Grammar.estimate
  rw [ht.checkCounts_eq, ht.checkpoints_eq, hsymbol, hweigh]
  generalize g.rows.mapAccum g.estimateRow none = result at hnew hcounts
  obtain ⟨stopped, rows⟩ := result
  cases g.checkCounts with
  | error e => exact ⟨rfl, ht⟩
  | ok =>
    cases stopped with
    | none => exact ⟨rfl, ht.of_ruleCounts hcounts hnew rfl⟩
    | some e => exact ⟨rfl, ht.of_ruleCounts hcounts hnew ht.normalised⟩

end Represents
end Tables
end TreebankGrammar
