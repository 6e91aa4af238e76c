import TreebankGrammar.Proofs.Grammar.Merging

/-!
# The order of what a grammar has counted

The tables of a grammar list nonterminals and productions in the order in which they were first
counted.  Merging goes through the tables of the other grammar row by row, which is another order than
that of the list of productions behind it, but the first occurrences of the nonterminals
come in the same order, and within each row those of the productions.  So merging has the very
outcome of counting both lists one after the other.

Main definitions:

- `occurrences`: the distinct elements of a list in order, each with its number of occurrences.
- `Grammar.InOrder`: the tables of a grammar have the order of a list of productions.
- `Grammar.Lists`: the tables of a grammar list what stands in a list of productions.
- `Grammar.IsPass`: a grammar is what one pass over a list of productions makes.

Main results:

- Theorem `eraseDups_append_congr`: first occurrences in two lists give those in both together.
- Theorem `InOrder.merge`: merging puts two orders one after the other.
- Theorem `HasCounted.lists`: what a grammar lists after counting a list of productions.
- Theorem `HasCounted.eq_of_inOrder`: what has been counted, and in which order, determines a grammar.
- Theorem `IsPass.merge`: merging two passes is one pass over both lists.
-/

namespace TreebankGrammar

/-! ## First occurrences -/

section FirstOccurrences

variable {α : Type} [DecidableEq α]

/-- An element at the end is a first occurrence if it has not occurred before. -/
theorem eraseDups_concat (xs : List α) (x : α) :
    (xs ++ [x]).eraseDups = if x ∈ xs then xs.eraseDups else xs.eraseDups ++ [x] := by
  rw [List.eraseDups_append]
  by_cases hx : x ∈ xs
  · simp [List.removeAll, hx]
  · simp [List.removeAll, hx, List.eraseDups_cons]

/-- First occurrences of elements with a property. -/
theorem eraseDups_filter (P : α → Bool) (xs : List α) :
    (xs.filter P).eraseDups = xs.eraseDups.filter P := by
  induction xs using List.reverseRecOn with
  | nil => rfl
  | append_singleton xs x ih =>
    rw [List.filter_append, eraseDups_concat]
    cases hP : P x with
    | false =>
      rw [List.filter_singleton, hP, cond_false, List.append_nil, ih]
      split
      · rfl
      · simp [hP]
    | true =>
      rw [List.filter_singleton, hP, cond_true, eraseDups_concat, ih]
      by_cases hx : x ∈ xs
      · simp [hx, hP]
      · simp [hx, hP]

/-- In a list without repetition each occurrence is a first one. -/
theorem eraseDups_of_nodup {xs : List α} (h : xs.Nodup) : xs.eraseDups = xs := by
  induction xs using List.reverseRecOn with
  | nil => rfl
  | append_singleton xs x ih =>
    rw [List.nodup_append] at h
    have hx : x ∉ xs := fun hmem => h.2.2 x hmem x List.mem_cons_self rfl
    rw [eraseDups_concat, if_neg hx, ih h.1]

/-- A list of one and the same element has one first occurrence. -/
theorem eraseDups_of_forall_eq {xs : List α} {x : α} (hne : xs ≠ []) (h : ∀ y ∈ xs, y = x) :
    xs.eraseDups = [x] := by
  cases xs with
  | nil => exact absurd rfl hne
  | cons y ys =>
    have hnone : ys.filter (fun z => !z == y) = [] := by
      rw [List.filter_eq_nil_iff]
      intro z hz
      rw [h z (List.mem_cons_of_mem y hz), h y List.mem_cons_self]
      simp
    rw [List.eraseDups_cons, hnone, h y List.mem_cons_self]
    rfl

/-- The first occurrences in two lists are those in the first list, then those in the second one of
elements that do not occur in the first. -/
theorem eraseDups_append_eq_filter (xs ys : List α) :
    (xs ++ ys).eraseDups = xs.eraseDups ++ ys.eraseDups.filter fun y => y ∉ xs.eraseDups := by
  rw [List.eraseDups_append, List.removeAll, eraseDups_filter]
  congr 2
  funext y
  simp

/-- First occurrences in two lists determine those in both together. -/
theorem eraseDups_append_congr {xs xs' ys ys' : List α} (hxs : xs.eraseDups = xs'.eraseDups)
    (hys : ys.eraseDups = ys'.eraseDups) : (xs ++ ys).eraseDups = (xs' ++ ys').eraseDups := by
  rw [eraseDups_append_eq_filter, eraseDups_append_eq_filter, hxs, hys]

end FirstOccurrences

/-- The distinct elements of a list in the order of their first occurrence, each with its number of
occurrences. -/
def occurrences {α : Type} [DecidableEq α] (xs : List α) : List (α × Int) :=
  xs.eraseDups.map fun x => (x, (xs.count x : Int))

namespace Grammar

/-- The tables of a grammar have the order of a list of productions: nonterminals and the productions of
each nonterminal stand in the order of their first occurrence. -/
structure InOrder (g : Grammar) (log : List Production) : Prop where
  keys : g.rows.keys = (log.map (·.lhs)).eraseDups
  row : ∀ X, (g.row X).keys.map (Production.ofBody X) = (log.filter (·.lhs = X)).eraseDups

/-- The tables of a grammar list what stands in a list of productions, in the order of first
occurrence and with the numbers of occurrences: the nonterminals, the same nonterminals with their
rows, and in each row the productions. -/
structure Lists (g : Grammar) (log : List Production) : Prop where
  symbolCounts : g.symbolCounts.entries = occurrences (log.map (·.lhs))
  keys : g.rows.keys = g.symbolCounts.keys
  row : ∀ X, countedRow X (g.row X) = occurrences (log.filter (·.lhs = X))

/-! ## Counting in order -/

/-- The row of a nonterminal after a production was counted. -/
theorem row_add (g : Grammar) (p : Production) (count : Int) (X : String) :
    (g.add p count).row X =
      if X = p.lhs then (g.row X).upsert p.toBody (Tally.add count) else g.row X := by
  unfold row Table.getD add
  rw [Table.get?_upsert]
  split
  · rename_i heq
    rw [heq]
    rfl
  · rfl

theorem inOrder_empty : empty.InOrder [] where
  keys := rfl
  row _ := rfl

theorem ofBody_injective (X : String) : Function.Injective (Production.ofBody X) :=
  fun _ _ h => congrArg Production.toBody h

namespace InOrder

variable {g other : Grammar} {log log' : List Production}

/-- A production that is counted comes last. -/
theorem add (h : g.InOrder log) (p : Production) (count : Int) :
    (g.add p count).InOrder (log ++ [p]) where
  keys := by
    rw [Grammar.add, Table.keys_upsert, h.keys, List.map_append, List.map_singleton,
      eraseDups_concat]
    simp only [List.mem_eraseDups]
  row X := by
    rw [row_add, List.filter_append, List.filter_singleton]
    by_cases hX : X = p.lhs
    · subst hX
      have hmem : p.toBody ∈ (g.row p.lhs).keys ↔ p ∈ log.filter (·.lhs = p.lhs) := by
        rw [← List.mem_map_of_injective (ofBody_injective p.lhs), h.row, List.mem_eraseDups]
        rfl
      rw [if_pos rfl, Table.keys_upsert, decide_eq_true rfl, cond_true, eraseDups_concat]
      simp only [hmem]
      split
      · exact h.row p.lhs
      · rw [List.map_append, h.row]
        rfl
    · rw [if_neg hX, decide_eq_false (Ne.symm hX), cond_false, List.append_nil, h.row]

/-- Productions that are counted with multiplicities come last. -/
theorem addPairs (h : g.InOrder log) (pairs : List (Production × Int)) :
    (g.addPairs pairs).InOrder (log ++ pairs.map Prod.fst) := by
  induction pairs generalizing g log with
  | nil => simpa [Grammar.addPairs] using h
  | cons pair pairs ih =>
    have hrest := ih (h.add pair.1 pair.2)
    rwa [List.append_assoc] at hrest

theorem addAll (h : g.InOrder log) (ps : List Production) : (g.addAll ps).InOrder (log ++ ps) := by
  have hps := h.addPairs (ps.map fun p => (p, 1))
  rwa [← addAll_eq, List.map_map, List.map_id''] at hps
  exact fun _ => rfl

/-- The order of a list of productions that are counted may be replaced by that of another list
in which a grammar lists the same. -/
theorem append_congr {later later' : List Production} (h : g.InOrder (log ++ later))
    (hlater : other.InOrder later) (hlater' : other.InOrder later') :
    g.InOrder (log ++ later') where
  keys := by
    rw [h.keys, List.map_append, List.map_append]
    exact eraseDups_append_congr rfl (hlater.keys.symm.trans hlater'.keys)
  row X := by
    rw [h.row, List.filter_append, List.filter_append]
    exact eraseDups_append_congr rfl ((hlater.row X).symm.trans (hlater'.row X))

end InOrder

/-! ## Listing row by row -/

/-- The productions of a grammar come row by row. -/
theorem map_fst_counted (g : Grammar) :
    g.counted.map Prod.fst =
      g.rows.entries.flatMap fun entry => entry.2.keys.map (Production.ofBody entry.1) := by
  simp [counted, tallies, Table.keys, List.map_flatMap, Function.comp_def]

/-- Rows of different nonterminals that are not empty list the nonterminals in their order. -/
theorem eraseDups_lhs_flatMap {entries : List (String × Row)}
    (hnodup : (entries.map Prod.fst).Nodup) (hrows : ∀ entry ∈ entries, entry.2.keys ≠ []) :
    ((entries.flatMap fun entry => entry.2.keys.map (Production.ofBody entry.1)).map
      (·.lhs)).eraseDups = entries.map Prod.fst := by
  induction entries with
  | nil => rfl
  | cons entry entries ih =>
    rw [List.map_cons, List.nodup_cons] at hnodup
    have hfirst : ((entry.2.keys.map (Production.ofBody entry.1)).map (·.lhs)).eraseDups =
        [entry.1] := by
      refine eraseDups_of_forall_eq ?_ ?_
      · simpa using hrows entry List.mem_cons_self
      · intro X hX
        simp only [List.map_map, List.mem_map, Function.comp_apply, Production.lhs_ofBody] at hX
        rcases hX with ⟨_, -, rfl⟩
        rfl
    rw [List.flatMap_cons, List.map_append, eraseDups_append_eq_filter, hfirst,
      ih hnodup.2 fun entry' hmem => hrows entry' (List.mem_cons_of_mem entry hmem), List.map_cons,
      List.singleton_append, List.filter_eq_self.2]
    intro X hX
    have hne : X ≠ entry.1 := fun heq => hnodup.1 (heq ▸ hX)
    simpa using hne

/-- The productions of a nonterminal in rows of which each has its own nonterminal. -/
theorem filter_lhs_flatMap (X : String) {entries : List (String × Row)}
    (hnodup : (entries.map Prod.fst).Nodup) :
    (entries.flatMap fun entry => entry.2.keys.map (Production.ofBody entry.1)).filter
        (·.lhs = X) =
      ((Entries.get? X entries).getD .empty).keys.map (Production.ofBody X) := by
  induction entries with
  | nil => rfl
  | cons entry entries ih =>
    rcases entry with ⟨Y, row⟩
    rw [List.map_cons, List.nodup_cons] at hnodup
    rw [List.flatMap_cons, List.filter_append, ih hnodup.2, Entries.get?]
    by_cases hY : Y = X
    · subst hY
      rw [if_pos rfl, Entries.get?_eq_none hnodup.1, List.filter_eq_self.2]
      · simp
      · simp
    · rw [if_neg hY, List.filter_eq_nil_iff.2, List.nil_append]
      simpa using fun _ _ => hY

/-- A consistent grammar has the order in which it lists its productions. -/
theorem Consistent.inOrder_counted {g : Grammar} (h : g.Consistent) :
    g.InOrder (g.counted.map Prod.fst) where
  keys := by
    -- No row is empty, so that every nonterminal with a row is listed.
    rw [map_fst_counted, eraseDups_lhs_flatMap g.rows.nodup_keys]
    · rfl
    · intro entry hentry
      exact (h.row entry.1 entry.2 ((g.rows.get?_eq_some_iff _ _).2 hentry)).keys_ne_nil
  row X := by
    rw [map_fst_counted, filter_lhs_flatMap X g.rows.nodup_keys]
    refine (eraseDups_of_nodup ?_).symm
    exact (g.row X).nodup_keys.map (ofBody_injective X)

/-- Merging puts the order of the other grammar at the end, although it goes through its tables row by
row. -/
theorem InOrder.merge {g other : Grammar} {log log' : List Production} (h : g.InOrder log)
    (hother : other.InOrder log') (hconsistent : other.Consistent) :
    (g.addCounts other).InOrder (log ++ log') := by
  -- The other grammar lists the same for its log and for the productions row by row.
  have hcounted := hconsistent.inOrder_counted
  rw [addCounts_eq]
  exact (h.addPairs other.counted).append_congr hcounted hother

/-! ## Counts in order -/

namespace HasCounted

variable {g other : Grammar} {log : List Production}

/-- The tables of a grammar list what it has counted. -/
theorem lists (h : g.HasCounted log) (horder : g.InOrder log) : g.Lists log where
  symbolCounts := by
    have hget : ∀ X ∈ g.symbolCounts.keys,
        g.symbolCounts.get? X = some ((log.map (·.lhs)).count X : Int) := by
      intro X hX
      rw [h.consistent.keys_eq, h.keys] at hX
      rw [h.symbolCounts, if_pos hX, List.count, List.countP_map]
      rfl
    rw [Table.entries_eq_map hget, h.consistent.keys_eq, horder.keys, occurrences]
  keys := h.consistent.keys_eq.symm
  row X := by
    have hget : ∀ body ∈ (g.row X).keys, (g.row X).get? body =
        some ⟨((log.filter (·.lhs = X)).count (.ofBody X body) : Int), .zero⟩ := by
      intro body hbody
      have hmem : Production.ofBody X body ∈ log := by
        have hmap := List.mem_map_of_mem (f := Production.ofBody X) hbody
        rw [horder.row, List.mem_eraseDups] at hmap
        exact List.mem_of_mem_filter hmap
      have htally := h.tally (.ofBody X body)
      rw [if_pos hmem] at htally
      rw [List.count_filter (by simp)]
      exact htally
    rw [countedRow, Table.entries_eq_map hget, List.map_map, occurrences, ← horder.row,
      List.map_map]
    rfl

/-- What has been counted, and in which order, determines a grammar. -/
theorem eq_of_inOrder (h : g.HasCounted log) (horder : g.InOrder log)
    (h' : other.HasCounted log) (horder' : other.InOrder log) : g = other := by
  have hrow : ∀ X, g.row X = other.row X := by
    intro X
    refine Table.ext_get? ?_ fun body => ?_
    · exact List.map_injective_iff.2 (ofBody_injective X)
        ((horder.row X).trans (horder'.row X).symm)
    · exact (h.tally (.ofBody X body)).trans (h'.tally (.ofBody X body)).symm
  have hrows : g.rows = other.rows := by
    have hkeys := horder.keys.trans horder'.keys.symm
    refine Table.ext_get? hkeys fun X => ?_
    by_cases hX : X ∈ g.rows.keys
    · rcases (g.rows.mem_keys_iff X).1 hX with ⟨row, hget⟩
      rcases (other.rows.mem_keys_iff X).1 (hkeys ▸ hX) with ⟨row', hget'⟩
      have heq := hrow X
      rw [Grammar.row, Grammar.row, Table.getD, Table.getD, hget, hget'] at heq
      rw [hget, hget']
      exact congrArg some heq
    · rw [Table.get?_eq_none hX, Table.get?_eq_none (hkeys ▸ hX)]
  have hcounts : g.symbolCounts = other.symbolCounts := by
    refine Table.ext_get? ?_ fun X => ?_
    · rw [h.consistent.keys_eq, h'.consistent.keys_eq, hrows]
    · rw [h.symbolCounts, h'.symbolCounts]
  have hnormalised := h.not_normalised.trans h'.not_normalised.symm
  cases g
  cases other
  cases hcounts
  cases hrows
  cases hnormalised
  rfl

end HasCounted

/-! ## One pass -/

/-- A grammar is what one pass over a list of productions makes, each of which has symbols on the
right. -/
structure IsPass (g : Grammar) (log : List Production) : Prop where
  eq : g = empty.addAll log
  rhs_ne_nil : ∀ p ∈ log, p.rhs ≠ []

/-- The grammar without counts has passed over nothing. -/
theorem isPass_empty : empty.IsPass [] where
  eq := rfl
  rhs_ne_nil _ hp := by cases hp

namespace IsPass

variable {g other : Grammar} {log log' : List Production}

/-- What has been passed over has been counted. -/
theorem hasCounted (h : g.IsPass log) : g.HasCounted log := by
  rw [h.eq]
  exact hasCounted_empty.addAll h.rhs_ne_nil

/-- A pass makes tables in its order. -/
theorem inOrder (h : g.IsPass log) : g.InOrder log := by
  rw [h.eq]
  exact inOrder_empty.addAll log

/-- A pass may be continued. -/
theorem addAll (h : g.IsPass log) (hps : ∀ p ∈ log', p.rhs ≠ []) :
    (g.addAll log').IsPass (log ++ log') where
  eq := by rw [h.eq, Grammar.addAll, Grammar.addAll, Grammar.addAll, List.foldl_append]
  rhs_ne_nil := List.forall_mem_append.2 ⟨h.rhs_ne_nil, hps⟩

/-- Merging two passes makes the same grammar, in the same order, as one pass over both lists. -/
theorem merge (h : g.IsPass log) (hother : other.IsPass log') :
    ∃ merged, g.merge other = .ok merged ∧ merged.IsPass (log ++ log') := by
  rcases h.hasCounted.merge hother.hasCounted with ⟨merged, hmerge, hcounted⟩
  have hpass := isPass_empty.addAll (List.forall_mem_append.2 ⟨h.rhs_ne_nil, hother.rhs_ne_nil⟩)
  obtain ⟨-, -, -, hmerged⟩ := merge_eq_ok_iff.1 hmerge
  have horder := h.inOrder.merge hother.inOrder hother.hasCounted.consistent
  rw [hmerged] at horder
  exact ⟨merged, hmerge, hcounted.eq_of_inOrder horder hpass.hasCounted hpass.inOrder,
    hpass.rhs_ne_nil⟩

end IsPass
end Grammar
end TreebankGrammar
