import TreebankGrammar.Grammar.Tables
import TreebankGrammar.Proofs.Grammar.Addition

/-!
# Counting into tables in memory

Whatever has been written to the tables, a production that is counted goes to the row of its own left-hand
side.  There it keeps its place and its object, or it comes behind the others as a new object.

Main definitions:

- `Tables.Gains`: what becomes of tables into which productions are counted.

Main results:

- Theorem `Tables.checkCounts_eq_ok_iff`: which counts pass their check.
- Theorem `Tables.Gains.add`: what one more production does.
- Theorem `Tables.gains_addPairs`: what many productions do.
- Theorem `Tables.Gains.checkCounts`: counts that pass their check still do.
-/

namespace TreebankGrammar
namespace Tables

open Grammar (multiplicity_append multiplicity_cons)

variable {t other merged : Tables} {pairs : List (Production × Int)}

/-! ## The check -/

/-- The counts pass their check if the count of each nonterminal in either table is the sum of the
counts in its row. -/
theorem checkCounts_eq_ok_iff :
    t.checkCounts = .ok () ↔
      ∀ X, X ∈ t.symbolCounts.keys ∨ X ∈ t.rows.keys → t.symbolCount X = t.rowTotal X := by
  have hnone : t.checkCounts = .ok () ↔ t.inconsistency? = none := by
    unfold checkCounts
    cases t.inconsistency? with
    | none => simp
    | some e => simp
  rw [hnone, inconsistency?, List.findSome?_eq_none_iff]
  simp only [List.mem_append, ite_eq_left_iff, reduceCtorEq, imp_false, not_not]

/-- The counts of a nonterminal that stands in neither table agree. -/
theorem symbolCount_eq_rowTotal_of_not_mem {X : String} (hcounts : X ∉ t.symbolCounts.keys)
    (hrows : X ∉ t.rows.keys) : t.symbolCount X = t.rowTotal X := by
  rw [symbolCount, rowTotal, row, Table.getD, Table.getD, Table.get?_eq_none hcounts,
    Table.get?_eq_none hrows]
  rfl

/-- The counts pass their check if the count of each nonterminal is the sum of the counts in its row. -/
theorem checkCounts_eq_ok_iff_forall :
    t.checkCounts = .ok () ↔ ∀ X, t.symbolCount X = t.rowTotal X := by
  rw [checkCounts_eq_ok_iff]
  constructor
  · intro h X
    by_cases hX : X ∈ t.symbolCounts.keys ∨ X ∈ t.rows.keys
    · exact h X hX
    · rw [not_or] at hX
      exact symbolCount_eq_rowTotal_of_not_mem hX.1 hX.2
  · exact fun h X _ => h X

/-- Counts that do not pass their check: the error names a nonterminal whose count is not the sum of
the counts in its row. -/
theorem exists_of_checkCounts_eq_error {e : Grammar.Error} (h : t.checkCounts = .error e) :
    ∃ X, (X ∈ t.symbolCounts.keys ∨ X ∈ t.rows.keys) ∧ t.symbolCount X ≠ t.rowTotal X ∧
      e = (Inconsistency.sumMismatch X (t.symbolCount X) (t.rowTotal X)).error := by
  unfold checkCounts at h
  cases hsome : t.inconsistency? with
  | none =>
    rw [hsome] at h
    cases h
  | some i =>
    rw [hsome] at h
    obtain ⟨X, hX, hi⟩ := List.exists_of_findSome?_eq_some hsome
    split at hi
    · cases hi
    · rename_i hne
      refine ⟨X, List.mem_append.1 hX, hne, ?_⟩
      rw [← Except.error.inj h, Option.some.inj hi]

/-! ## Objects -/

/-- The object of a rule that stands in a row. -/
theorem mem_objects {X : String} {p : Production} {holding : Holding}
    (h : (t.row X).get? p = some holding) : holding.object ∈ t.objects := by
  cases hX : t.rows.get? X with
  | none =>
    rw [row, Table.getD, hX] at h
    cases h
  | some row =>
    rw [Tables.row, Table.getD, hX, Option.getD_some, Table.get?_eq_some_iff] at h
    have hrow : row ∈ t.rows.values :=
      List.mem_map.2 ⟨(X, row), (t.rows.get?_eq_some_iff X row).1 hX, rfl⟩
    exact List.mem_flatMap.2 ⟨row, hrow, List.mem_map.2 ⟨holding, List.mem_map.2 ⟨_, h, rfl⟩, rfl⟩⟩

/-- A rule that is an object of the tables stands in a row. -/
theorem exists_of_mem_objects {object : Nat} (h : object ∈ t.objects) :
    ∃ X p holding, (t.row X).get? p = some holding ∧ holding.object = object := by
  obtain ⟨row, hrow, hmem⟩ := List.mem_flatMap.1 h
  obtain ⟨holding, hholding, rfl⟩ := List.mem_map.1 hmem
  obtain ⟨⟨X, row⟩, hentry, rfl⟩ := List.mem_map.1 hrow
  obtain ⟨⟨p, holding⟩, hheld, rfl⟩ := List.mem_map.1 hholding
  refine ⟨X, p, holding, ?_, rfl⟩
  rw [Tables.row, Table.getD, (t.rows.get?_eq_some_iff X row).2 hentry, Option.getD_some]
  exact (row.get?_eq_some_iff p holding).2 hheld

/-- An element of a list is at most their maximum. -/
theorem le_foldr_max {objects : List Nat} {object : Nat} (h : object ∈ objects) :
    object ≤ objects.foldr max 0 := by
  induction objects with
  | nil => cases h
  | cons first rest ih =>
    rw [List.foldr_cons]
    rcases List.mem_cons.1 h with rfl | h
    · exact Nat.le_max_left ..
    · exact (ih h).trans (Nat.le_max_right ..)

/-- A new object is none that the tables have. -/
theorem newObject_not_mem (t : Tables) : t.newObject ∉ t.objects := by
  intro h
  have hle := le_foldr_max h
  unfold newObject at hle
  omega

/-- A rule that stands in a row is no new object. -/
theorem ne_newObject {X : String} {p : Production} {holding : Holding}
    (h : (t.row X).get? p = some holding) : holding.object ≠ t.newObject :=
  fun heq => t.newObject_not_mem (heq ▸ mem_objects h)

/-! ## One production -/

/-- Counting a production changes its own row only. -/
theorem row_add (t : Tables) (p : Production) (count : Int) (X : String) :
    (t.add p count).row X =
      if X = p.lhs then (t.row X).upsert p (holdMore t.newObject count) else t.row X := by
  unfold row Table.getD add
  rw [Table.get?_upsert]
  split
  · rename_i heq
    rw [heq, Option.getD_some]
  · rfl

/-- What stands in the rows after a production was counted. -/
theorem get?_row_add (t : Tables) (p : Production) (count : Int) (X : String) (q : Production) :
    ((t.add p count).row X).get? q =
      if X = p.lhs ∧ q = p then some (holdMore t.newObject count ((t.row X).get? q))
      else (t.row X).get? q := by
  rw [row_add]
  by_cases hX : X = p.lhs
  · rw [if_pos hX, Table.get?_upsert]
    by_cases hq : q = p
    · rw [if_pos hq, if_pos ⟨hX, hq⟩, hq]
    · rw [if_neg hq, if_neg fun h => hq h.2]
  · rw [if_neg hX, if_neg fun h => hX h.1]

/-- The object of a rule after a production was counted: the one it had before, or a new one. -/
theorem object_of_get?_row_add {p q : Production} {count : Int} {X : String} {holding : Holding}
    (h : ((t.add p count).row X).get? q = some holding) :
    (∃ old, (t.row X).get? q = some old ∧ old.object = holding.object) ∨
      (X = p.lhs ∧ q = p ∧ holding.object = t.newObject) := by
  rw [get?_row_add] at h
  split at h
  · rename_i heq
    cases hold : (t.row X).get? q with
    | some old =>
      rw [hold] at h
      have hholding := Option.some.inj h
      exact .inl ⟨old, rfl, by rw [← hholding]; rfl⟩
    | none =>
      rw [hold] at h
      exact .inr ⟨heq.1, heq.2, (congrArg Holding.object (Option.some.inj h)).symm⟩
  · exact .inl ⟨holding, h, rfl⟩

/-- Counting a production changes the weight of no object but a new one. -/
theorem weights_add (t : Tables) (p : Production) (count : Int) (object : Nat) :
    (t.add p count).weights object = if object = t.newObject then .zero else t.weights object :=
  Function.update_apply ..

theorem count_holdMore (object : Nat) (count : Int) (old : Option Holding) :
    (holdMore object count old).count = (old.map Holding.count).getD 0 + count := by
  cases old with
  | none => simp [holdMore]
  | some old => rfl

/-- Counting a production changes its own count only. -/
theorem heldCount_add (t : Tables) (p : Production) (count : Int) (X : String) (q : Production) :
    (t.add p count).heldCount X q =
      t.heldCount X q + if X = p.lhs ∧ q = p then count else 0 := by
  unfold heldCount
  rw [get?_row_add]
  split
  · rw [Option.map_some, Option.getD_some, count_holdMore]
  · rw [Int.add_zero]

/-- Counting a production changes the count of its own nonterminal only. -/
theorem symbolCount_add (t : Tables) (p : Production) (count : Int) (X : String) :
    (t.add p count).symbolCount X = t.symbolCount X + if p.lhs = X then count else 0 := by
  unfold symbolCount Table.getD add
  rw [Table.get?_upsert]
  by_cases hX : X = p.lhs
  · rw [if_pos hX, if_pos hX.symm, hX, Option.getD_some]
  · rw [if_neg hX, if_neg (Ne.symm hX), Int.add_zero]

/-- Counting a production changes the sum of its own row only. -/
theorem rowTotal_add (t : Tables) (p : Production) (count : Int) (X : String) :
    (t.add p count).rowTotal X = t.rowTotal X + if p.lhs = X then count else 0 := by
  unfold rowTotal
  rw [row_add]
  by_cases hX : X = p.lhs
  · rw [if_pos hX, if_pos hX.symm, Table.sum_upsert, count_holdMore]
    omega
  · rw [if_neg hX, if_neg (Ne.symm hX), Int.add_zero]

/-! ## Many productions -/

/-- Counts productions with multiplicities, in order. -/
def addPairs (t : Tables) (pairs : List (Production × Int)) : Tables :=
  pairs.foldl (fun t pair => t.add pair.1 pair.2) t

/-- What becomes of tables into which productions are counted with multiplicities.  The count of each
nonterminal grows by the multiplicities of its productions, and the count of each rule in the row
of its left-hand side by its own.  What is there keeps its place, the rules their objects, and
these their weights.  What is new comes behind, in the order of the productions; new rules are
objects of their own with the weight zero. -/
structure Gains (t : Tables) (pairs : List (Production × Int)) (merged : Tables) : Prop where
  normalised : merged.normalised = t.normalised
  symbolCount : ∀ X, merged.symbolCount X = t.symbolCount X + Grammar.multiplicity (·.lhs = X) pairs
  rowTotal : ∀ X, merged.rowTotal X = t.rowTotal X + Grammar.multiplicity (·.lhs = X) pairs
  heldCount : ∀ X p, merged.heldCount X p =
    t.heldCount X p + if X = p.lhs then Grammar.multiplicity (· = p) pairs else 0
  keys_symbolCounts : merged.symbolCounts.keys =
    t.symbolCounts.keys ++ (pairs.map (·.1.lhs)).eraseDups.filter (· ∉ t.symbolCounts.keys)
  keys_rows : merged.rows.keys =
    t.rows.keys ++ (pairs.map (·.1.lhs)).eraseDups.filter (· ∉ t.rows.keys)
  keys_row : ∀ X, (merged.row X).keys =
    (t.row X).keys ++
      ((pairs.filter (·.1.lhs = X)).map Prod.fst).eraseDups.filter (· ∉ (t.row X).keys)
  object : ∀ X p holding, (t.row X).get? p = some holding →
    ∃ count, (merged.row X).get? p = some ⟨count, holding.object⟩
  weight : ∀ object ∈ t.objects, merged.weights object = t.weights object
  new : ∀ X p holding, (t.row X).get? p = none → (merged.row X).get? p = some holding →
    holding.object ∉ t.objects ∧ merged.weights holding.object = .zero ∧
      ∀ Y q other, (merged.row Y).get? q = some other → other.object = holding.object →
        Y = X ∧ q = p

/-- Keys that have come behind those of a table, and one more. -/
theorem append_filter_concat {κ ν ν' : Type} [DecidableEq κ] {a : Table κ ν} {b : Table κ ν'}
    {later : List κ} (h : b.keys = a.keys ++ later.eraseDups.filter (· ∉ a.keys)) (key : κ)
    (write : Option ν' → ν') :
    (b.upsert key write).keys =
      a.keys ++ (later ++ [key]).eraseDups.filter (· ∉ a.keys) := by
  rw [← Grammar.eraseDups_keys_append, ← List.append_assoc, Table.keys_upsert_eq_eraseDups]
  refine eraseDups_append_congr ?_ rfl
  rw [b.eraseDups_keys, h, Grammar.eraseDups_keys_append]

/-- The objects of the tables are still there. -/
theorem Gains.objects_subset (h : t.Gains pairs merged) {object : Nat} (hobject : object ∈ t.objects) :
    object ∈ merged.objects := by
  obtain ⟨X, p, holding, hget, rfl⟩ := exists_of_mem_objects hobject
  obtain ⟨count, hmerged⟩ := h.object X p holding hget
  simpa using mem_objects hmerged

/-- What one more production does. -/
theorem Gains.add (h : t.Gains pairs merged) (p : Production) (count : Int) :
    t.Gains (pairs ++ [(p, count)]) (merged.add p count) where
  normalised := h.normalised
  symbolCount X := by
    rw [symbolCount_add, h.symbolCount, multiplicity_append, multiplicity_cons]
    simp only [Grammar.multiplicity, List.filter_nil, List.map_nil, List.sum_nil]
    omega
  rowTotal X := by
    rw [rowTotal_add, h.rowTotal, multiplicity_append, multiplicity_cons]
    simp only [Grammar.multiplicity, List.filter_nil, List.map_nil, List.sum_nil]
    omega
  heldCount X q := by
    rw [heldCount_add, h.heldCount, multiplicity_append, multiplicity_cons]
    simp only [Grammar.multiplicity, List.filter_nil, List.map_nil, List.sum_nil]
    by_cases hq : p = q
    · subst hq
      simp only [and_true, if_true]
      split
      · omega
      · omega
    · have hq' : q ≠ p := Ne.symm hq
      have hlhs : ¬(X = p.lhs ∧ q = p) := fun heq => hq' heq.2
      simp only [hlhs, hq, if_false, Int.add_zero]
  keys_symbolCounts := by
    rw [List.map_append]
    exact append_filter_concat h.keys_symbolCounts _ _
  keys_rows := by
    rw [List.map_append]
    exact append_filter_concat h.keys_rows _ _
  keys_row X := by
    rw [row_add, List.filter_append, List.map_append]
    by_cases hX : X = p.lhs
    · rw [if_pos hX, List.filter_cons_of_pos (by simpa using hX.symm)]
      exact append_filter_concat (h.keys_row X) _ _
    · rw [if_neg hX, List.filter_cons_of_neg (by simpa using Ne.symm hX), h.keys_row]
      simp
  object X q holding hget := by
    obtain ⟨old, hmerged⟩ := h.object X q holding hget
    rw [get?_row_add, hmerged]
    split
    · exact ⟨old + count, rfl⟩
    · exact ⟨old, rfl⟩
  weight object hobject := by
    have hne : object ≠ merged.newObject := by
      rintro rfl
      exact merged.newObject_not_mem (h.objects_subset hobject)
    rw [weights_add, if_neg hne]
    exact h.weight object hobject
  new X q holding hnone hsome := by
    rcases object_of_get?_row_add hsome with ⟨old, hold, hobject⟩ | ⟨rfl, rfl, hobject⟩
    · -- The rule was new before.
      obtain ⟨hnot, hzero, honly⟩ := h.new X q old hnone hold
      have hne := ne_newObject hold
      rw [← hobject, weights_add, if_neg hne]
      refine ⟨hnot, hzero, fun Y r other hother heq => ?_⟩
      rcases object_of_get?_row_add hother with ⟨old', hold', hobject'⟩ | ⟨-, -, hobject'⟩
      · exact honly Y r old' hold' (hobject'.trans heq)
      · exact absurd (heq.symm.trans hobject') hne
    · -- It is new now.
      rw [hobject, weights_add, if_pos rfl]
      refine ⟨fun hmem => merged.newObject_not_mem (h.objects_subset hmem), rfl,
        fun Y r other hother heq => ?_⟩
      rcases object_of_get?_row_add hother with ⟨old', hold', hobject'⟩ | ⟨rfl, rfl, -⟩
      · exact absurd (hobject'.trans heq) (ne_newObject hold')
      · exact ⟨rfl, rfl⟩

/-- Counts that pass their check do so after productions were counted. -/
theorem Gains.checkCounts (h : t.Gains pairs merged) (hcheck : t.checkCounts = .ok ()) :
    merged.checkCounts = .ok () := by
  rw [checkCounts_eq_ok_iff_forall] at hcheck ⊢
  intro X
  rw [h.symbolCount, h.rowTotal, hcheck X]

end Tables
end TreebankGrammar
