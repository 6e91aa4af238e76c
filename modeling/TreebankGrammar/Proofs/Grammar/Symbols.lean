import Mathlib.Data.List.Nodup
import TreebankGrammar.Grammar.Queries
import TreebankGrammar.Proofs.Table

/-!
# Symbols and rules of a grammar

The sorted list of the symbols of a grammar holds the nonterminals and the symbols on right-hand
sides, and no production stands twice in the list of its rules.

Main results:

- Theorem `mem_sortedDistinct_iff`: sorting and removing repetitions keeps the elements.
- Theorem `Grammar.mem_symbols_iff`: the symbols are the nonterminals and the symbols on the right.
- Theorem `Grammar.mem_terminals_iff`: the terminals are the symbols that are no nonterminals.
- Theorem `Grammar.nodup_productions`: the rules have different productions.
- Theorem `Grammar.size_eq_length`: the number of rules is the length of the list of rules.
-/

namespace TreebankGrammar

/-- Sorting and removing repetitions keeps the elements. -/
theorem mem_sortedDistinct_iff (s : String) (symbols : List String) :
    s ∈ sortedDistinct symbols ↔ s ∈ symbols := by
  have hfold : ∀ sorted : List String,
      s ∈ sorted.foldr (fun t rest => if rest.head? = some t then rest else t :: rest) [] ↔
        s ∈ sorted := by
    intro sorted
    induction sorted with
    | nil => rfl
    | cons t rest ih =>
      rw [List.foldr_cons, List.mem_cons, ← ih]
      split
      · rename_i hhead
        constructor
        · exact Or.inr
        · rintro (rfl | hmem)
          · exact List.mem_of_mem_head? hhead
          · exact hmem
      · rw [List.mem_cons]
  rw [sortedDistinct, hfold, List.mem_mergeSort]

namespace Grammar

/-! ## Symbols -/

/-- The symbols are the nonterminals and the symbols on the right of rules. -/
theorem mem_symbols_iff (g : Grammar) (s : String) :
    s ∈ g.symbols ↔ s ∈ g.rows.keys ∨ ∃ r ∈ g.rules, s ∈ r.rhs := by
  rw [symbols, mem_sortedDistinct_iff, List.mem_append]
  simp [rhsSymbols, rules, Rule.ofProduction]

/-- The nonterminals are the symbols with a row of rules. -/
theorem mem_nonterminals_iff (g : Grammar) (s : String) : s ∈ g.nonterminals ↔ s ∈ g.rows.keys :=
  mem_sortedDistinct_iff s g.rows.keys

/-- The terminals are the symbols that are no nonterminals. -/
theorem mem_terminals_iff (g : Grammar) (s : String) :
    s ∈ g.terminals ↔ s ∈ g.symbols ∧ s ∉ g.nonterminals := by
  have hcontains : (!g.rows.contains s) = true ↔ s ∉ g.rows.keys := by
    rw [Table.contains, Table.mem_keys_iff, ← Option.isSome_iff_exists, Bool.not_eq_true',
      Bool.eq_false_iff]
  rw [terminals, List.mem_filter, hcontains, symbols, mem_nonterminals_iff, mem_sortedDistinct_iff,
    mem_sortedDistinct_iff, List.mem_append]
  constructor
  · rintro ⟨hrhs, hkeys⟩
    exact ⟨Or.inr hrhs, hkeys⟩
  · rintro ⟨hkeys' | hrhs, hkeys⟩
    · exact absurd hkeys' hkeys
    · exact ⟨hrhs, hkeys⟩

/-- Nonterminals are symbols. -/
theorem mem_symbols_of_mem_nonterminals {g : Grammar} {s : String} (h : s ∈ g.nonterminals) :
    s ∈ g.symbols :=
  (g.mem_symbols_iff s).2 (Or.inl ((g.mem_nonterminals_iff s).1 h))

/-- The left-hand side of a rule is a nonterminal. -/
theorem lhs_mem_nonterminals {g : Grammar} {r : Rule} (h : r ∈ g.rules) :
    r.lhs ∈ g.nonterminals := by
  rw [mem_nonterminals_iff]
  simp only [rules, tallies, List.mem_map, List.mem_flatMap] at h
  rcases h with ⟨_, ⟨⟨lhs, row⟩, hrow, ⟨body, tally⟩, -, rfl⟩, rfl⟩
  exact List.mem_map.2 ⟨(lhs, row), hrow, rfl⟩

/-- The left-hand side of a rule is a symbol. -/
theorem lhs_mem_symbols {g : Grammar} {r : Rule} (h : r ∈ g.rules) : r.lhs ∈ g.symbols :=
  mem_symbols_of_mem_nonterminals (lhs_mem_nonterminals h)

/-- What stands on the right of a rule is a symbol. -/
theorem rhs_mem_symbols {g : Grammar} {r : Rule} (h : r ∈ g.rules) {s : String} (hs : s ∈ r.rhs) :
    s ∈ g.symbols :=
  (g.mem_symbols_iff s).2 (Or.inr ⟨r, h, hs⟩)

/-! ## Rules -/

/-- The productions, row by row. -/
theorem map_toProduction_rules (g : Grammar) :
    g.rules.map Rule.toProduction =
      g.rows.entries.flatMap fun (lhs, row) => row.keys.map (Production.ofBody lhs) := by
  simp [rules, tallies, Table.keys, List.map_flatMap, Function.comp_def]

/-- No production stands twice among the rules. -/
theorem nodup_productions (g : Grammar) : (g.rules.map Rule.toProduction).Nodup := by
  rw [map_toProduction_rules, List.nodup_flatMap]
  constructor
  · rintro ⟨lhs, row⟩ -
    refine row.nodup_keys.map ?_
    intro body body' h
    exact congrArg Production.toBody h
  · have hkeys : g.rows.entries.Pairwise fun a b => a.1 ≠ b.1 :=
      List.pairwise_map.1 g.rows.nodup_keys
    refine hkeys.imp ?_
    rintro ⟨lhs, row⟩ ⟨lhs', row'⟩ hne p hp hp'
    rcases List.mem_map.1 hp with ⟨body, -, rfl⟩
    rcases List.mem_map.1 hp' with ⟨body', -, heq⟩
    exact hne (congrArg Production.lhs heq).symm

/-- The number of rules is the length of the list of rules. -/
theorem size_eq_length (g : Grammar) : g.size = g.rules.length := by
  rw [size, rules, tallies, List.length_map, Table.values]
  induction g.rows.entries with
  | nil => rfl
  | cons entry entries ih =>
    rw [List.map_cons, List.map_cons, List.foldr_cons, ih, List.flatMap_cons, List.length_append,
      List.length_map, Table.size]

end Grammar
end TreebankGrammar
