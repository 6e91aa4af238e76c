import Mathlib.Algebra.BigOperators.Group.List.Basic
import Mathlib.Algebra.Ring.Int.Defs
import TreebankGrammar.Proofs.Grammar.Consistency
import TreebankGrammar.Proofs.Grammar.Symbols

/-!
# Look-ups in the tables of a grammar

What a grammar counts is seen by looking up nonterminals and productions.  Counting productions with
multiplicities adds, at each look-up, the multiplicities of what is looked up, in whatever order
they come.

Main results:

- Theorem `Grammar.mem_tallies_iff`: the tallies that are listed are those that are found.
- Theorem `Grammar.tally?_addPairs`: the tally of a production after productions were counted.
- Theorem `Grammar.symbolCounts_addPairs`: the count of a nonterminal after productions were counted.
-/

namespace TreebankGrammar

/-- A production is determined by its left-hand side and its body. -/
theorem Production.eq_iff {p q : Production} : p = q ↔ p.lhs = q.lhs ∧ p.toBody = q.toBody := by
  cases p
  cases q
  simp only [mk.injEq]
  exact and_comm

namespace Grammar

/-! ## One production -/

/-- The tallies that are listed are those that are found. -/
theorem mem_tallies_iff {g : Grammar} {p : Production} {tally : Tally} :
    (p, tally) ∈ g.tallies ↔ g.tally? p = some tally := by
  rw [tally?, row, Table.getD]
  constructor
  · intro h
    obtain ⟨⟨X, row⟩, hrow, hmem⟩ := List.mem_flatMap.1 h
    obtain ⟨⟨body, tally'⟩, hbody, heq⟩ := List.mem_map.1 hmem
    obtain ⟨rfl, rfl⟩ := Prod.mk.inj heq
    have hX : g.rows.get? X = some row := (g.rows.get?_eq_some_iff X row).2 hrow
    rw [Production.lhs_ofBody, hX]
    exact (row.get?_eq_some_iff body tally').2 hbody
  · intro h
    cases hX : g.rows.get? p.lhs with
    | none =>
      rw [hX] at h
      cases h
    | some row =>
      rw [hX, Option.getD_some, Table.get?_eq_some_iff] at h
      exact List.mem_flatMap.2 ⟨(p.lhs, row), (g.rows.get?_eq_some_iff _ _).1 hX,
        List.mem_map.2 ⟨(p.toBody, tally), h, rfl⟩⟩

/-- The rules of a grammar are its productions with their weights. -/
theorem mem_rules_iff {g : Grammar} {r : Rule} :
    r ∈ g.rules ↔ ∃ tally, g.tally? r.toProduction = some tally ∧ r.weight = tally.weight := by
  constructor
  · intro h
    obtain ⟨⟨p, tally⟩, hmem, rfl⟩ := List.mem_map.1 h
    exact ⟨tally, mem_tallies_iff.1 hmem, rfl⟩
  · rintro ⟨tally, hget, hweight⟩
    refine List.mem_map.2 ⟨(r.toProduction, tally), mem_tallies_iff.2 hget, ?_⟩
    cases r
    cases hweight
    rfl

/-- Counting a production changes its own tally only. -/
theorem tally?_add (g : Grammar) (p q : Production) (count : Int) :
    (g.add p count).tally? q =
      if q = p then some (Tally.add count (g.tally? p)) else g.tally? q := by
  unfold tally? row Table.getD add
  rw [Table.get?_upsert]
  by_cases hlhs : q.lhs = p.lhs
  · rw [if_pos hlhs, hlhs, Option.getD_some, Row.add, Table.get?_upsert]
    simp only [Production.eq_iff, hlhs, true_and]
  · rw [if_neg hlhs, if_neg fun heq => hlhs (congrArg Production.lhs heq)]

/-- Counting a production changes the count of its own nonterminal only. -/
theorem symbolCounts_add (g : Grammar) (p : Production) (count : Int) (X : String) :
    (g.add p count).symbolCounts.get? X =
      if X = p.lhs then some (g.symbolCount X + count) else g.symbolCounts.get? X := by
  rw [add, Table.get?_upsert]
  split
  · rename_i heq
    rw [heq]
    rfl
  · rfl

/-- Counting a production gives its nonterminal a row. -/
theorem mem_keys_add (g : Grammar) (p : Production) (count : Int) (X : String) :
    X ∈ (g.add p count).rows.keys ↔ X = p.lhs ∨ X ∈ g.rows.keys := by
  rw [add, Table.keys_upsert]
  split
  · rename_i hmem
    constructor
    · exact Or.inr
    · rintro (rfl | h)
      · exact hmem
      · exact h
  · rw [List.mem_append, List.mem_singleton, or_comm]

/-! ## Many productions -/

/-- Counts productions with multiplicities, in order. -/
def addPairs (g : Grammar) (pairs : List (Production × Int)) : Grammar :=
  pairs.foldl (fun g pair => g.add pair.1 pair.2) g

/-- How often the productions with a property stand in a list with multiplicities. -/
def multiplicity (P : Production → Prop) [DecidablePred P] (pairs : List (Production × Int)) : Int :=
  ((pairs.filter fun pair => P pair.1).map Prod.snd).sum

theorem multiplicity_cons (P : Production → Prop) [DecidablePred P] (pair : Production × Int)
    (pairs : List (Production × Int)) :
    multiplicity P (pair :: pairs) =
      (if P pair.1 then pair.2 else 0) + multiplicity P pairs := by
  by_cases h : P pair.1
  · simp [multiplicity, h]
  · simp [multiplicity, h]

/-- Productions that do not stand in a list stand in it zero times. -/
theorem multiplicity_eq_zero {P : Production → Prop} [DecidablePred P]
    {pairs : List (Production × Int)} (h : ∀ pair ∈ pairs, ¬P pair.1) :
    multiplicity P pairs = 0 := by
  rw [multiplicity, List.filter_eq_nil_iff.2 (by simpa using h)]
  rfl

/-- Seeing a production twice is seeing it once with both counts. -/
theorem add_add_tally (m n : Int) (tally : Option Tally) :
    Tally.add n (some (Tally.add m tally)) = Tally.add (m + n) tally := by
  cases tally with
  | none => rfl
  | some tally => simp [Tally.add, Int.add_assoc]

/-- The tally of a production after productions were counted. -/
theorem tally?_addPairs (g : Grammar) (pairs : List (Production × Int)) (p : Production) :
    (g.addPairs pairs).tally? p =
      if p ∈ pairs.map Prod.fst then some (Tally.add (multiplicity (· = p) pairs) (g.tally? p))
      else g.tally? p := by
  induction pairs generalizing g with
  | nil => rfl
  | cons pair pairs ih =>
    have hstep : (g.addPairs (pair :: pairs)).tally? p =
        ((g.add pair.1 pair.2).addPairs pairs).tally? p := rfl
    rw [hstep, ih, tally?_add, multiplicity_cons, List.map_cons]
    by_cases hp : pair.1 = p
    · subst hp
      by_cases hmem : pair.1 ∈ pairs.map Prod.fst
      · simp [hmem, add_add_tally]
      · have hzero : multiplicity (· = pair.1) pairs = 0 :=
          multiplicity_eq_zero fun other hother heq => hmem (heq ▸ List.mem_map_of_mem hother)
        simp [hmem, hzero]
    · have hp' : p ≠ pair.1 := Ne.symm hp
      simp only [hp, hp', List.mem_cons, false_or, if_false, Int.zero_add]

/-- The count of a nonterminal after productions were counted. -/
theorem symbolCounts_addPairs (g : Grammar) (pairs : List (Production × Int)) (X : String) :
    (g.addPairs pairs).symbolCounts.get? X =
      if X ∈ pairs.map (·.1.lhs) then some (g.symbolCount X + multiplicity (·.lhs = X) pairs)
      else g.symbolCounts.get? X := by
  induction pairs generalizing g with
  | nil => rfl
  | cons pair pairs ih =>
    have hstep : (g.addPairs (pair :: pairs)).symbolCounts.get? X =
        ((g.add pair.1 pair.2).addPairs pairs).symbolCounts.get? X := rfl
    rw [hstep, ih, symbolCounts_add, symbolCount_add, multiplicity_cons, List.map_cons]
    by_cases hX : pair.1.lhs = X
    · subst hX
      by_cases hmem : pair.1.lhs ∈ pairs.map (·.1.lhs)
      · simp [hmem, Int.add_assoc]
      · have hzero : multiplicity (·.lhs = pair.1.lhs) pairs = 0 :=
          multiplicity_eq_zero fun other hother heq =>
            hmem (heq ▸ List.mem_map_of_mem (f := (·.1.lhs)) hother)
        simp [hmem, hzero]
    · have hX' : X ≠ pair.1.lhs := Ne.symm hX
      simp only [hX, hX', List.mem_cons, false_or, if_false, Int.zero_add]

/-- The nonterminals with a row after productions were counted. -/
theorem mem_keys_addPairs (g : Grammar) (pairs : List (Production × Int)) (X : String) :
    X ∈ (g.addPairs pairs).rows.keys ↔ X ∈ pairs.map (·.1.lhs) ∨ X ∈ g.rows.keys := by
  induction pairs generalizing g with
  | nil => simp [addPairs]
  | cons pair pairs ih =>
    have hstep : (g.addPairs (pair :: pairs)).rows =
        ((g.add pair.1 pair.2).addPairs pairs).rows := rfl
    rw [hstep, ih, mem_keys_add, List.map_cons, List.mem_cons]
    constructor
    · rintro (h | h | h)
      · exact Or.inl (Or.inr h)
      · exact Or.inl (Or.inl h)
      · exact Or.inr h
    · rintro ((h | h) | h)
      · exact Or.inr (Or.inl h)
      · exact Or.inl h
      · exact Or.inr (Or.inr h)

/-- Counting productions does not estimate weights. -/
theorem normalised_addPairs (g : Grammar) (pairs : List (Production × Int)) :
    (g.addPairs pairs).normalised = g.normalised := by
  induction pairs generalizing g with
  | nil => rfl
  | cons pair pairs ih => exact ih (g.add pair.1 pair.2)

/-! ## Counting and merging -/

/-- The productions of a grammar with their counts. -/
def counted (g : Grammar) : List (Production × Int) :=
  g.tallies.map fun entry => (entry.1, entry.2.count)

/-- Merging counts the productions of the other grammar with their counts. -/
theorem addCounts_eq (g other : Grammar) : g.addCounts other = g.addPairs other.counted := by
  rw [addPairs, counted, List.foldl_map]
  rfl

/-- Counting the productions of a tree counts each of them once. -/
theorem addAll_eq (g : Grammar) (ps : List Production) :
    g.addAll ps = g.addPairs (ps.map fun p => (p, 1)) := by
  rw [addPairs, List.foldl_map]
  rfl

/-- Productions that are counted once each have the multiplicities of their list. -/
theorem multiplicity_once (P : Production → Prop) [DecidablePred P] (ps : List Production) :
    multiplicity P (ps.map fun p => (p, 1)) = ps.countP (P ·) := by
  induction ps with
  | nil => rfl
  | cons p ps ih =>
    rw [List.map_cons, multiplicity_cons, ih, List.countP_cons]
    by_cases hp : P p
    · simp [hp, Int.add_comm]
    · simp [hp]

/-- The tally of a production after each production of a list was counted once. -/
theorem tally?_addAll (g : Grammar) (ps : List Production) (p : Production) :
    (g.addAll ps).tally? p =
      if p ∈ ps then some (Tally.add (ps.count p : Int) (g.tally? p)) else g.tally? p := by
  have hmap : (ps.map fun p => (p, (1 : Int))).map Prod.fst = ps := by
    rw [List.map_map]
    exact List.map_id ps
  rw [addAll_eq, tally?_addPairs, multiplicity_once, hmap, List.count_eq_countP]
  rfl

/-- The count of a nonterminal after each production of a list was counted once. -/
theorem symbolCounts_addAll (g : Grammar) (ps : List Production) (X : String) :
    (g.addAll ps).symbolCounts.get? X =
      if X ∈ ps.map (·.lhs) then some (g.symbolCount X + (ps.countP (·.lhs = X) : Int))
      else g.symbolCounts.get? X := by
  have hmap : (ps.map fun p => (p, (1 : Int))).map (·.1.lhs) = ps.map (·.lhs) := by simp
  rw [addAll_eq, symbolCounts_addPairs, multiplicity_once, hmap]

/-- A production stands among the productions of a grammar if it has a tally. -/
theorem mem_map_fst_counted {g : Grammar} {p : Production} :
    p ∈ g.counted.map Prod.fst ↔ ∃ tally, g.tally? p = some tally := by
  rw [counted, List.map_map]
  constructor
  · intro h
    obtain ⟨⟨q, tally⟩, hmem, rfl⟩ := List.mem_map.1 h
    exact ⟨tally, mem_tallies_iff.1 hmem⟩
  · rintro ⟨tally, h⟩
    exact List.mem_map.2 ⟨(p, tally), mem_tallies_iff.2 h, rfl⟩

/-- Each production stands once in the list of a grammar's tallies. -/
theorem nodup_map_fst_tallies (g : Grammar) : (g.tallies.map Prod.fst).Nodup := by
  have h := g.nodup_productions
  rwa [rules, List.map_map] at h

/-- A production that stands once in a list has the multiplicity that stands beside it. -/
theorem multiplicity_eq_of_mem {pairs : List (Production × Int)} {p : Production} {n : Int}
    (hnodup : (pairs.map Prod.fst).Nodup) (h : (p, n) ∈ pairs) : multiplicity (· = p) pairs = n := by
  induction pairs with
  | nil => cases h
  | cons pair pairs ih =>
    rw [List.map_cons, List.nodup_cons] at hnodup
    rw [multiplicity_cons]
    rcases List.mem_cons.1 h with rfl | h
    · have hzero : multiplicity (· = p) pairs = 0 :=
        multiplicity_eq_zero fun other hother heq =>
          hnodup.1 (List.mem_map.2 ⟨other, hother, heq⟩)
      simp [hzero]
    · have hne : pair.1 ≠ p := by
        rintro rfl
        exact hnodup.1 (List.mem_map.2 ⟨_, h, rfl⟩)
      rw [if_neg hne, Int.zero_add, ih hnodup.2 h]

/-- The multiplicity of a production in a grammar is its count. -/
theorem multiplicity_counted {g : Grammar} {p : Production} {tally : Tally}
    (h : g.tally? p = some tally) : multiplicity (· = p) g.counted = tally.count := by
  refine multiplicity_eq_of_mem ?_ (List.mem_map.2 ⟨_, mem_tallies_iff.2 h, rfl⟩)
  rw [counted, List.map_map]
  exact g.nodup_map_fst_tallies

theorem multiplicity_append (P : Production → Prop) [DecidablePred P]
    (xs ys : List (Production × Int)) :
    multiplicity P (xs ++ ys) = multiplicity P xs + multiplicity P ys := by
  rw [multiplicity, List.filter_append, List.map_append, List.sum_append]
  rfl

/-- The productions of a row with their counts. -/
def countedRow (X : String) (row : Row) : List (Production × Int) :=
  row.entries.map fun tallied => (Production.ofBody X tallied.1, tallied.2.count)

/-- The productions of a row all have its nonterminal on the left. -/
theorem lhs_of_mem_countedRow {X : String} {row : Row} {pair : Production × Int}
    (h : pair ∈ countedRow X row) : pair.1.lhs = X := by
  obtain ⟨tallied, -, rfl⟩ := List.mem_map.1 h
  rfl

/-- The multiplicity of a nonterminal in its row is the total of the row. -/
theorem lhs_multiplicity_countedRow (X : String) (row : Row) :
    multiplicity (·.lhs = X) (countedRow X row) = row.total := by
  have hall : ∀ pair ∈ countedRow X row, pair.1.lhs = X := fun _ => lhs_of_mem_countedRow
  rw [multiplicity, List.filter_eq_self.2 (by simpa using hall), countedRow, List.map_map, Row.total,
    Table.values, List.map_map]
  rfl

/-- The multiplicity of a nonterminal in rows of which each has its own nonterminal. -/
theorem lhs_multiplicity_flatMap (X : String) {entries : List (String × Row)}
    (hnodup : (entries.map Prod.fst).Nodup) :
    multiplicity (·.lhs = X) (entries.flatMap fun entry => countedRow entry.1 entry.2) =
      ((Entries.get? X entries).getD .empty).total := by
  induction entries with
  | nil => rfl
  | cons entry entries ih =>
    obtain ⟨Y, row⟩ := entry
    rw [List.map_cons, List.nodup_cons] at hnodup
    rw [List.flatMap_cons, multiplicity_append, ih hnodup.2, Entries.get?]
    by_cases hY : Y = X
    · subst hY
      rw [if_pos rfl, Entries.get?_eq_none hnodup.1, lhs_multiplicity_countedRow, Option.getD_none,
        Option.getD_some, Row.total_empty, Int.add_zero]
    · have hzero : multiplicity (·.lhs = X) (countedRow Y row) = 0 :=
        multiplicity_eq_zero fun pair hpair heq =>
          hY ((lhs_of_mem_countedRow hpair).symm.trans heq)
      rw [if_neg hY, hzero, Int.zero_add]

/-- The multiplicity of a nonterminal in a grammar is the total of its row. -/
theorem lhs_multiplicity_counted (g : Grammar) (X : String) :
    multiplicity (·.lhs = X) g.counted = g.rowTotal X := by
  have hcounted : g.counted = g.rows.entries.flatMap fun entry => countedRow entry.1 entry.2 := by
    simp [counted, countedRow, tallies, List.map_flatMap, Function.comp_def]
  rw [hcounted, lhs_multiplicity_flatMap X g.rows.nodup_keys, rowTotal, Table.getD, Table.get?]

end Grammar
end TreebankGrammar
