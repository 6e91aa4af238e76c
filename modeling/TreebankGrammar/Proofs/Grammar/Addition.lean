import TreebankGrammar.Proofs.Grammar.Order

/-!
# Adding the counts of another grammar

Merging writes to the tables of a grammar what another grammar has counted.  Whatever the two grammars
are, also when their counts disagree or are not positive, each count grows by the one of the other
grammar, what is there keeps its place and its weight, and what is new comes behind it.

Main definitions:

- `Grammar.ruleCount`: how often a production was seen.
- `Grammar.ruled`: the nonterminals that have rules.
- `Grammar.Gains`: what becomes of a grammar that gains the counts of another one.

Main results:

- Theorem `Table.keys_foldl_upsert`: the keys of a table after many writes.
- Theorem `Grammar.checkCounts_eq_ok_iff_forall`: which counts pass their check.
- Theorem `Grammar.gains_addCounts`: what merging makes of a grammar.
- Theorem `Grammar.checkCounts_addCounts`: counts that pass their check do so after merging.
-/

namespace TreebankGrammar

/-! ## Many writes to a table -/

namespace Table

variable {κ ν ι : Type} [DecidableEq κ]

/-- No key stands twice. -/
theorem eraseDups_keys (t : Table κ ν) : t.keys.eraseDups = t.keys :=
  eraseDups_of_nodup t.nodup_keys

/-- A write puts a key that is new behind the others. -/
theorem keys_upsert_eq_eraseDups (t : Table κ ν) (key : κ) (write : Option ν → ν) :
    (t.upsert key write).keys = (t.keys ++ [key]).eraseDups := by
  rw [keys_upsert, eraseDups_concat, eraseDups_keys]

/-- Writes put the keys that are new behind the others, in the order of the first writes to them. -/
theorem keys_foldl_upsert (key : ι → κ) (write : ι → Option ν → ν) (t : Table κ ν)
    (items : List ι) :
    (items.foldl (fun t item => t.upsert (key item) (write item)) t).keys =
      (t.keys ++ items.map key).eraseDups := by
  induction items generalizing t with
  | nil => rw [List.foldl_nil, List.map_nil, List.append_nil, eraseDups_keys]
  | cons item items ih =>
    have hkeys : t.keys ++ (item :: items).map key = (t.keys ++ [key item]) ++ items.map key := by
      simp
    rw [List.foldl_cons, ih, hkeys]
    refine eraseDups_append_congr ?_ rfl
    rw [eraseDups_keys]
    exact t.keys_upsert_eq_eraseDups (key item) (write item)

end Table

namespace Grammar

/-! ## Counts -/

/-- How often a production was seen, zero if it was never seen. -/
def ruleCount (g : Grammar) (p : Production) : Int :=
  ((g.tally? p).map Tally.count).getD 0

/-- The nonterminals that have rules, in order. -/
def ruled (g : Grammar) : List String :=
  g.rows.keys.filter fun X => !(g.row X).keys.isEmpty

/-- The counts of a nonterminal that stands in neither table agree. -/
theorem symbolCount_eq_rowTotal_of_not_mem {g : Grammar} {X : String}
    (hcounts : X ∉ g.symbolCounts.keys) (hrows : X ∉ g.rows.keys) :
    g.symbolCount X = g.rowTotal X := by
  rw [symbolCount, rowTotal, Table.getD, Table.getD, Table.get?_eq_none hcounts,
    Table.get?_eq_none hrows]
  rfl

/-- The counts pass their check if the count of each nonterminal is the sum of the counts of its
rules. -/
theorem checkCounts_eq_ok_iff_forall {g : Grammar} :
    g.checkCounts = .ok () ↔ ∀ X, g.symbolCount X = g.rowTotal X := by
  rw [checkCounts_eq_ok_iff]
  constructor
  · intro h X
    by_cases hX : X ∈ g.symbolCounts.keys ∨ X ∈ g.rows.keys
    · exact h X hX
    · rw [not_or] at hX
      exact symbolCount_eq_rowTotal_of_not_mem hX.1 hX.2
  · exact fun h X _ => h X

/-- Counting a production changes the sum of the counts of its own nonterminal only. -/
theorem rowTotal_add (g : Grammar) (p : Production) (count : Int) (X : String) :
    (g.add p count).rowTotal X = if X = p.lhs then g.rowTotal X + count else g.rowTotal X := by
  unfold rowTotal Table.getD add
  rw [Table.get?_upsert]
  split
  · rename_i heq
    rw [heq, Option.getD_some, Row.total_add]
  · rfl

section Pairs

variable (g : Grammar) (pairs : List (Production × Int)) (X : String)

/-- How often a nonterminal was seen after productions were counted. -/
theorem symbolCount_addPairs :
    (g.addPairs pairs).symbolCount X = g.symbolCount X + multiplicity (·.lhs = X) pairs := by
  rw [symbolCount, Table.getD, symbolCounts_addPairs]
  split
  · rfl
  · rename_i hX
    have hzero : multiplicity (·.lhs = X) pairs = 0 :=
      multiplicity_eq_zero fun pair hpair heq =>
        hX (List.mem_map.2 ⟨pair, hpair, heq⟩)
    rw [hzero, Int.add_zero]
    rfl

/-- The sum of the counts of a nonterminal's rules after productions were counted. -/
theorem rowTotal_addPairs :
    (g.addPairs pairs).rowTotal X = g.rowTotal X + multiplicity (·.lhs = X) pairs := by
  induction pairs generalizing g with
  | nil => exact (Int.add_zero _).symm
  | cons pair pairs ih =>
    have hstep : (g.addPairs (pair :: pairs)).rowTotal X =
        ((g.add pair.1 pair.2).addPairs pairs).rowTotal X := rfl
    rw [hstep, ih, rowTotal_add, multiplicity_cons]
    by_cases hX : pair.1.lhs = X
    · rw [if_pos hX.symm, if_pos hX, Int.add_assoc]
    · rw [if_neg (Ne.symm hX), if_neg hX, Int.zero_add]

/-- The nonterminals that are counted come behind those that have been counted before. -/
theorem keys_symbolCounts_addPairs :
    (g.addPairs pairs).symbolCounts.keys =
      (g.symbolCounts.keys ++ pairs.map (·.1.lhs)).eraseDups := by
  have hfold : (g.addPairs pairs).symbolCounts =
      pairs.foldl (fun t pair => t.upsert pair.1.lhs fun old => old.getD 0 + pair.2)
        g.symbolCounts := by
    induction pairs generalizing g with
    | nil => rfl
    | cons pair pairs ih => exact ih (g.add pair.1 pair.2)
  rw [hfold, Table.keys_foldl_upsert]

/-- So do their rows. -/
theorem keys_rows_addPairs :
    (g.addPairs pairs).rows.keys = (g.rows.keys ++ pairs.map (·.1.lhs)).eraseDups := by
  have hfold : (g.addPairs pairs).rows =
      pairs.foldl (fun t pair => t.upsert pair.1.lhs (Row.add pair.1.toBody pair.2)) g.rows := by
    induction pairs generalizing g with
    | nil => rfl
    | cons pair pairs ih => exact ih (g.add pair.1 pair.2)
  rw [hfold, Table.keys_foldl_upsert]

/-- In the row of a nonterminal, the productions that are counted come behind those that have been
counted before. -/
theorem keys_row_addPairs :
    ((g.addPairs pairs).row X).keys =
      ((g.row X).keys ++ (pairs.filter (·.1.lhs = X)).map (·.1.toBody)).eraseDups := by
  have hfold : (g.addPairs pairs).row X =
      (pairs.filter (·.1.lhs = X)).foldl
        (fun row pair => row.upsert pair.1.toBody (Tally.add pair.2)) (g.row X) := by
    induction pairs generalizing g with
    | nil => rfl
    | cons pair pairs ih =>
      have hstep : (g.addPairs (pair :: pairs)).row X =
          ((g.add pair.1 pair.2).addPairs pairs).row X := rfl
      rw [hstep, ih, row_add]
      by_cases hX : pair.1.lhs = X
      · rw [List.filter_cons_of_pos (by simpa using hX), if_pos hX.symm, List.foldl_cons]
      · rw [List.filter_cons_of_neg (by simpa using hX), if_neg (Ne.symm hX)]
  rw [hfold, Table.keys_foldl_upsert]

end Pairs

/-! ## The productions of a grammar -/

/-- Rows without rules list nothing. -/
theorem flatMap_filter_keys (entries : List (String × Row)) :
    ((entries.filter fun entry => !entry.2.keys.isEmpty).flatMap fun entry =>
        entry.2.keys.map (Production.ofBody entry.1)) =
      entries.flatMap fun entry => entry.2.keys.map (Production.ofBody entry.1) := by
  induction entries with
  | nil => rfl
  | cons entry entries ih =>
    cases hkeys : entry.2.keys with
    | nil => rw [List.filter_cons_of_neg (by simp [hkeys]), ih, List.flatMap_cons, hkeys]; rfl
    | cons body bodies =>
      rw [List.filter_cons_of_pos (by simp [hkeys]), List.flatMap_cons, List.flatMap_cons, ih]

/-- The row of a nonterminal stands in its entry. -/
theorem row_of_mem_entries {g : Grammar} {entry : String × Row} (h : entry ∈ g.rows.entries) :
    g.row entry.1 = entry.2 := by
  rw [row, Table.getD, (g.rows.get?_eq_some_iff entry.1 entry.2).2 h, Option.getD_some]

/-- The nonterminals with rules are listed by their productions, in order. -/
theorem eraseDups_lhs_counted (g : Grammar) :
    (g.counted.map (·.1.lhs)).eraseDups = g.ruled := by
  have hmap : g.counted.map (·.1.lhs) = (g.counted.map Prod.fst).map (·.lhs) := by
    rw [List.map_map]
    rfl
  have hnodup : ((g.rows.entries.filter fun entry => !entry.2.keys.isEmpty).map Prod.fst).Nodup :=
    g.rows.nodup_keys.sublist (List.filter_sublist.map Prod.fst)
  have hruled : g.ruled =
      (g.rows.entries.filter fun entry => !entry.2.keys.isEmpty).map Prod.fst := by
    rw [ruled, Table.keys, List.filter_map]
    refine congrArg (List.map Prod.fst) (List.filter_congr fun entry hentry => ?_)
    rw [Function.comp_apply, row_of_mem_entries hentry]
  rw [hmap, map_fst_counted, ← flatMap_filter_keys, eraseDups_lhs_flatMap hnodup, hruled]
  intro entry hentry
  simpa using List.of_mem_filter hentry

/-- The productions of a nonterminal are those in its row. -/
theorem toBody_counted (g : Grammar) (X : String) :
    (g.counted.filter (·.1.lhs = X)).map (·.1.toBody) = (g.row X).keys := by
  have hfilter : (g.counted.filter (·.1.lhs = X)).map Prod.fst =
      (g.row X).keys.map (Production.ofBody X) := by
    have hrows := filter_lhs_flatMap X g.rows.nodup_keys
    rw [← map_fst_counted, List.filter_map] at hrows
    exact hrows
  calc (g.counted.filter (·.1.lhs = X)).map (·.1.toBody)
      = ((g.counted.filter (·.1.lhs = X)).map Prod.fst).map (·.toBody) := by
        rw [List.map_map]
        rfl
    _ = (g.row X).keys := by
        rw [hfilter, List.map_map]
        exact List.map_id _

/-- A nonterminal has rules if one of its productions is counted. -/
theorem mem_ruled_iff {g : Grammar} {X : String} :
    X ∈ g.ruled ↔ X ∈ g.counted.map (·.1.lhs) := by
  rw [← eraseDups_lhs_counted, List.mem_eraseDups]

/-- The rules of a nonterminal without rules have not been seen. -/
theorem rowTotal_eq_zero {g : Grammar} {X : String} (h : X ∉ g.ruled) : g.rowTotal X = 0 := by
  rw [← lhs_multiplicity_counted]
  refine multiplicity_eq_zero fun pair hpair heq => h ?_
  exact mem_ruled_iff.2 (List.mem_map.2 ⟨pair, hpair, heq⟩)

/-! ## Merging -/

variable {g other : Grammar}

/-- The tally of a production after merging. -/
theorem tally?_addCounts (g other : Grammar) (p : Production) :
    (g.addCounts other).tally? p =
      match other.tally? p with
      | some tally => some (Tally.add tally.count (g.tally? p))
      | none => g.tally? p := by
  rw [addCounts_eq, tally?_addPairs]
  cases htally : other.tally? p with
  | some tally =>
    rw [if_pos (mem_map_fst_counted.2 ⟨tally, htally⟩), multiplicity_counted htally]
  | none =>
    refine if_neg fun hmem => ?_
    obtain ⟨tally, hsome⟩ := mem_map_fst_counted.1 hmem
    rw [htally] at hsome
    cases hsome

/-- The count of a nonterminal after merging. -/
theorem get?_symbolCounts_addCounts (g other : Grammar) (X : String) :
    (g.addCounts other).symbolCounts.get? X =
      if X ∈ other.ruled then some (g.symbolCount X + other.rowTotal X)
      else g.symbolCounts.get? X := by
  rw [addCounts_eq, symbolCounts_addPairs, lhs_multiplicity_counted]
  simp only [mem_ruled_iff]

/-- Keys of a table come before those that are put behind them. -/
theorem eraseDups_keys_append {κ ν : Type} [DecidableEq κ] (t : Table κ ν) (later : List κ) :
    (t.keys ++ later).eraseDups = t.keys ++ later.eraseDups.filter fun key => key ∉ t.keys := by
  rw [eraseDups_append_eq_filter, Table.eraseDups_keys]

/-- What becomes of a grammar that gains the counts of another one.  The count of each nonterminal
grows by the counts of the rules that the other grammar has for it, and the count of each rule by the
other grammar's count of this rule.  The nonterminals and rules that are there keep their places, and
the rules their weights; those that are new come behind them in the order of the other grammar, with
the weight zero. -/
structure Gains (g other merged : Grammar) : Prop where
  normalised : merged.normalised = g.normalised
  symbolCount : ∀ X, merged.symbolCount X = g.symbolCount X + other.rowTotal X
  ruleCount : ∀ p, merged.ruleCount p = g.ruleCount p + other.ruleCount p
  symbolCounts : merged.symbolCounts.entries =
    (g.symbolCounts.entries.map fun entry => (entry.1, entry.2 + other.rowTotal entry.1)) ++
      (other.ruled.filter (· ∉ g.symbolCounts.keys)).map fun X => (X, other.rowTotal X)
  keys : merged.rows.keys = g.rows.keys ++ other.ruled.filter (· ∉ g.rows.keys)
  row : ∀ X, (merged.row X).entries =
    ((g.row X).entries.map fun entry =>
      (entry.1, ⟨entry.2.count + other.ruleCount (.ofBody X entry.1), entry.2.weight⟩)) ++
      ((other.row X).entries.filter (·.1 ∉ (g.row X).keys)).map fun entry =>
        (entry.1, ⟨entry.2.count, .zero⟩)

/-- Merging makes a grammar gain the counts of another one, whatever the counts of both are. -/
theorem gains_addCounts (g other : Grammar) : g.Gains other (g.addCounts other) where
  normalised := by rw [addCounts_eq, normalised_addPairs]
  symbolCount X := by rw [addCounts_eq, symbolCount_addPairs, lhs_multiplicity_counted]
  ruleCount p := by
    unfold ruleCount
    rw [tally?_addCounts]
    cases other.tally? p with
    | none => simp
    | some tally =>
      cases g.tally? p with
      | none => simp [Tally.add]
      | some old => simp [Tally.add]
  symbolCounts := by
    apply Table.entries_eq_of_get?
    · rw [addCounts_eq, keys_symbolCounts_addPairs, eraseDups_keys_append, eraseDups_lhs_counted]
      simp [Table.keys, Function.comp_def]
    · rw [List.forall_mem_append, List.forall_mem_map, List.forall_mem_map]
      constructor
      · intro entry hentry
        have hget := (g.symbolCounts.get?_eq_some_iff entry.1 entry.2).2 hentry
        rw [get?_symbolCounts_addCounts]
        split
        · rw [symbolCount, Table.getD, hget, Option.getD_some]
        · rename_i hruled
          rw [hget, rowTotal_eq_zero hruled, Int.add_zero]
      · intro X hX
        rw [List.mem_filter] at hX
        have hnone : g.symbolCounts.get? X = none := Table.get?_eq_none (by simpa using hX.2)
        rw [get?_symbolCounts_addCounts, if_pos hX.1, symbolCount, Table.getD, hnone,
          Option.getD_none, Int.zero_add]
  keys := by
    rw [addCounts_eq, keys_rows_addPairs, eraseDups_keys_append, eraseDups_lhs_counted]
  row X := by
    apply Table.entries_eq_of_get?
    · rw [addCounts_eq, keys_row_addPairs, eraseDups_keys_append, toBody_counted,
        Table.eraseDups_keys]
      simp [Table.keys, List.filter_map, Function.comp_def]
    · have htally : ∀ body, ((g.addCounts other).row X).get? body =
          match (other.row X).get? body with
          | some tally => some (Tally.add tally.count ((g.row X).get? body))
          | none => (g.row X).get? body :=
        fun body => tally?_addCounts g other (.ofBody X body)
      rw [List.forall_mem_append, List.forall_mem_map, List.forall_mem_map]
      constructor
      · intro entry hentry
        have hget := ((g.row X).get?_eq_some_iff entry.1 entry.2).2 hentry
        have hcount : other.ruleCount (.ofBody X entry.1) =
            (((other.row X).get? entry.1).map Tally.count).getD 0 := rfl
        rw [htally, hget, hcount]
        cases (other.row X).get? entry.1 with
        | none => simp
        | some tally => rfl
      · intro entry hentry
        rw [List.mem_filter] at hentry
        have hget := ((other.row X).get?_eq_some_iff entry.1 entry.2).2 hentry.1
        have hnone : (g.row X).get? entry.1 = none := Table.get?_eq_none (by simpa using hentry.2)
        rw [htally, hget, hnone]
        rfl

/-- Counts that pass their check still do so after merging. -/
theorem checkCounts_addCounts (h : g.checkCounts = .ok ()) (other : Grammar) :
    (g.addCounts other).checkCounts = .ok () := by
  rw [checkCounts_eq_ok_iff_forall] at h ⊢
  intro X
  rw [addCounts_eq, symbolCount_addPairs, rowTotal_addPairs, h X]

end Grammar
end TreebankGrammar
