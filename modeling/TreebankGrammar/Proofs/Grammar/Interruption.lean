import TreebankGrammar.Proofs.Grammar.Checkpoints

/-!
# Interrupted estimation

Direct writes can leave any counts in the tables of a grammar, and one rule object in several rows.
Once the sums agree, estimation passes the checkpoints in order.  It stops at the first nonterminal
that was not seen and at the first rule whose quotient is too large.  The rules before that have their
weights, an object in several rows the one of the last row that was passed, and all others keep theirs.

Main definitions:

- `Tables.StopsAt`: where estimation stops.
- `Tables.IsWeighedBy`: which weights have been set by passing checkpoints.
- `Tables.Estimable`: what estimation asks of the counts.

Main results:

- Theorem `Tables.nonterminal_mem_of_checkpoints_eq`: a nonterminal comes before the rules in its row.
- Theorem `Tables.exists_weigh_append`: what passing checkpoints does.
- Theorem `Tables.Estimable.estimate_eq`: estimation that succeeds.
- Theorem `Tables.exists_estimate_eq_stopped`: estimation that stops at a checkpoint.
- Theorem `Tables.estimates_or_stops`: what estimation makes of any tables.
- Theorem `Tables.estimate_longSum`: counts that do not agree and are not reported as such.
-/

namespace TreebankGrammar
namespace Tables

variable {t : Tables} {symbolCount : String → Int} {weights old new : Nat → Weight}
  {cps : List Checkpoint}

/-! ## Where estimation stops -/

/-- Estimation stops at a nonterminal that was not seen and at a rule whose quotient is too large. -/
def StopsAt (symbolCount : String → Int) : Checkpoint → Prop
  | .nonterminal X => symbolCount X ≤ 0
  | .rule X holding => Binary64.overflowThreshold ≤ |(holding.count : ℚ) / symbolCount X|

/-- The error that is raised where estimation stops. -/
def stopError (symbolCount : String → Int) : Checkpoint → Grammar.Error
  | .nonterminal X => (Inconsistency.notPositive X (symbolCount X)).error
  | .rule .. => .overflow

/-- The last checkpoint of a rule object: the nonterminal of the row and the count there. -/
def lastFiling? (object : Nat) : List Checkpoint → Option (String × Int)
  | [] => none
  | .nonterminal _ :: cps => lastFiling? object cps
  | .rule X holding :: cps =>
    (lastFiling? object cps).or (if holding.object = object then some (X, holding.count) else none)

/-- The rule objects at checkpoints have got their quotients, correctly rounded, as their weights, where
the last checkpoint of each object counts.  All other weights are as they were. -/
def IsWeighedBy (symbolCount : String → Int) (cps : List Checkpoint) (old new : Nat → Weight) : Prop :=
  ∀ object,
    match lastFiling? object cps with
    | some (X, count) => Binary64.IsNearest ((count : ℚ) / symbolCount X) (new object)
    | none => new object = old object

/-- The rule objects at checkpoints have the quotients that are computed. -/
def IsAssignedBy (symbolCount : String → Int) (cps : List Checkpoint) (old new : Nat → Weight) :
    Prop :=
  ∀ object,
    match lastFiling? object cps with
    | some (X, count) => Binary64.quotient? count (symbolCount X) = some (new object)
    | none => new object = old object

/-- The last checkpoint of an object is a checkpoint. -/
theorem exists_of_lastFiling?_eq_some {object : Nat} {X : String} {count : Int}
    (h : lastFiling? object cps = some (X, count)) :
    ∃ holding, .rule X holding ∈ cps ∧ holding.count = count := by
  induction cps with
  | nil => cases h
  | cons cp cps ih =>
    cases cp with
    | nonterminal Y =>
      obtain ⟨holding, hmem, hcount⟩ := ih h
      exact ⟨holding, List.mem_cons_of_mem _ hmem, hcount⟩
    | rule Y holding =>
      rw [lastFiling?, Option.or_eq_some_iff] at h
      rcases h with h | ⟨-, h⟩
      · obtain ⟨holding, hmem, hcount⟩ := ih h
        exact ⟨holding, List.mem_cons_of_mem _ hmem, hcount⟩
      · rw [Option.ite_none_right_eq_some, Option.some.injEq, Prod.mk.injEq] at h
        obtain ⟨-, rfl, rfl⟩ := h
        exact ⟨holding, List.mem_cons_self, rfl⟩

/-- Quotients that are computed are correctly rounded. -/
theorem IsAssignedBy.isWeighedBy (h : IsAssignedBy symbolCount cps old new)
    (hpos : ∀ X holding, .rule X holding ∈ cps → 0 < symbolCount X) :
    IsWeighedBy symbolCount cps old new := by
  intro object
  have hobject := h object
  cases hfiling : lastFiling? object cps with
  | none =>
    rw [hfiling] at hobject
    exact hobject
  | some filing =>
    obtain ⟨X, count⟩ := filing
    rw [hfiling] at hobject
    obtain ⟨holding, hmem, -⟩ := exists_of_lastFiling?_eq_some hfiling
    exact Binary64.isNearest_of_quotient? (hpos X holding hmem) hobject

/-- Quotients that have been assigned once do not change again. -/
theorem IsAssignedBy.again (h : IsAssignedBy symbolCount cps weights old)
    (h' : IsAssignedBy symbolCount cps old new) : new = old := by
  funext object
  have hold := h object
  have hnew := h' object
  cases hfiling : lastFiling? object cps with
  | none =>
    rw [hfiling] at hnew
    exact hnew
  | some filing =>
    rw [hfiling] at hold hnew
    exact Option.some.inj (hnew.symm.trans hold)

/-! ## Passing checkpoints -/

/-- What passing checkpoints does, if estimation stops at none of them. -/
theorem exists_weigh_append (hgoes : ∀ cp ∈ cps, ¬StopsAt symbolCount cp)
    (hpos : ∀ X holding, .rule X holding ∈ cps → 0 < symbolCount X) (weights : Nat → Weight)
    (later : List Checkpoint) :
    ∃ new, weigh symbolCount weights (cps ++ later) = weigh symbolCount new later ∧
      IsAssignedBy symbolCount cps weights new := by
  induction cps generalizing weights with
  | nil => exact ⟨weights, rfl, fun _ => rfl⟩
  | cons cp cps ih =>
    obtain ⟨hcp, hrest⟩ := List.forall_mem_cons.1 hgoes
    have hpos' : ∀ X holding, .rule X holding ∈ cps → 0 < symbolCount X :=
      fun X holding h => hpos X holding (List.mem_cons_of_mem cp h)
    cases cp with
    | nonterminal X =>
      obtain ⟨new, hweigh, hassigned⟩ := ih hrest hpos' weights
      refine ⟨new, ?_, hassigned⟩
      rw [List.cons_append, weigh_of_ok (pass_nonterminal_of_pos hcp), hweigh]
    | rule X holding =>
      have hX := hpos X holding List.mem_cons_self
      obtain ⟨weight, hquotient⟩ := (Binary64.exists_quotient?_iff hX).2 (not_le.1 hcp)
      obtain ⟨new, hweigh, hassigned⟩ :=
        ih hrest hpos' (Function.update weights holding.object weight)
      refine ⟨new, ?_, fun object => ?_⟩
      · rw [List.cons_append, weigh_of_ok (pass_rule_of_some hquotient), hweigh]
      · have hobject := hassigned object
        rw [lastFiling?]
        cases hfiling : lastFiling? object cps with
        | some filing =>
          rw [hfiling] at hobject
          exact hobject
        | none =>
          rw [hfiling] at hobject
          by_cases hown : holding.object = object
          · subst hown
            rw [if_pos rfl, Option.none_or]
            rw [Function.update_self] at hobject
            dsimp only
            rw [hobject, hquotient]
          · rw [if_neg hown, Option.none_or]
            rw [Function.update_of_ne (Ne.symm hown)] at hobject
            exact hobject

/-- Where estimation stops, nothing more is passed. -/
theorem weigh_of_stopsAt {cp : Checkpoint} (h : StopsAt symbolCount cp)
    (hpos : ∀ X holding, cp = .rule X holding → 0 < symbolCount X) (weights : Nat → Weight)
    (later : List Checkpoint) :
    weigh symbolCount weights (cp :: later) = (weights, some (stopError symbolCount cp)) := by
  cases cp with
  | nonterminal X => exact weigh_of_error (pass_nonterminal_of_not_pos h)
  | rule X holding =>
    exact weigh_of_error (pass_rule_of_none ((Binary64.quotient?_eq_none_iff (hpos X holding rfl)).2 h))

/-! ## The order of checkpoints -/

/-- A nonterminal comes before the rules in its row. -/
theorem nonterminal_mem_of_row {Y : String} {row : Table Production Holding}
    {before after : List Checkpoint} {X : String} {holding : Holding}
    (h : .nonterminal Y :: row.values.map (.rule Y) = before ++ .rule X holding :: after) :
    .nonterminal X ∈ before := by
  cases before with
  | nil => cases h
  | cons first before =>
    rw [List.cons_append, List.cons.injEq] at h
    obtain ⟨rfl, hvalues⟩ := h
    have hmem : Checkpoint.rule X holding ∈ row.values.map (.rule Y) := by
      rw [hvalues]
      exact List.mem_append_right _ List.mem_cons_self
    obtain ⟨_, -, heq⟩ := List.mem_map.1 hmem
    obtain ⟨rfl, -⟩ := Checkpoint.rule.inj heq
    exact List.mem_cons_self

/-- So it does among the checkpoints of all rows. -/
theorem nonterminal_mem_of_flatMap {rows : List (String × Table Production Holding)}
    {before after : List Checkpoint} {X : String} {holding : Holding}
    (h : (rows.flatMap fun entry => .nonterminal entry.1 :: entry.2.values.map (.rule entry.1)) =
      before ++ .rule X holding :: after) : .nonterminal X ∈ before := by
  induction rows generalizing before with
  | nil => simp at h
  | cons entry rows ih =>
    rw [List.flatMap_cons] at h
    rcases List.append_eq_append_iff.1 h with ⟨later, rfl, hlater⟩ | ⟨later, hrow, hlater⟩
    · exact List.mem_append_right _ (ih hlater)
    · cases later with
      | nil =>
        have hmem : Checkpoint.nonterminal X ∈ [] := ih hlater.symm
        cases hmem
      | cons cp later =>
        obtain ⟨rfl, -⟩ := List.cons.inj hlater
        exact nonterminal_mem_of_row hrow

/-- A nonterminal comes before the rules in its row. -/
theorem nonterminal_mem_of_checkpoints_eq {before after : List Checkpoint} {X : String}
    {holding : Holding} (h : t.checkpoints = before ++ .rule X holding :: after) :
    .nonterminal X ∈ before :=
  nonterminal_mem_of_flatMap h

/-- The nonterminals of rules that are passed were seen. -/
theorem symbolCount_pos_of_goes {before after : List Checkpoint}
    (hcut : t.checkpoints = before ++ after)
    (hgoes : ∀ cp ∈ before, ¬StopsAt t.symbolCount cp) {X : String} {holding : Holding}
    (h : .rule X holding ∈ before) : 0 < t.symbolCount X := by
  obtain ⟨first, last, rfl⟩ := List.append_of_mem h
  rw [List.append_assoc] at hcut
  have hmem := nonterminal_mem_of_checkpoints_eq hcut
  exact not_le.1 (hgoes _ (List.mem_append_left _ hmem))

/-- What is a checkpoint: the nonterminals with a row and the rules in it. -/
theorem mem_checkpoints_iff {cp : Checkpoint} :
    cp ∈ t.checkpoints ↔
      (∃ X ∈ t.rows.keys, cp = .nonterminal X) ∨
        ∃ X p holding, (t.row X).get? p = some holding ∧ cp = .rule X holding := by
  constructor
  · intro h
    obtain ⟨⟨X, row⟩, hrow, hcp⟩ := List.mem_flatMap.1 h
    rcases List.mem_cons.1 hcp with rfl | hcp
    · exact .inl ⟨X, List.mem_map_of_mem hrow, rfl⟩
    · obtain ⟨holding, hholding, rfl⟩ := List.mem_map.1 hcp
      obtain ⟨⟨p, holding⟩, hentry, rfl⟩ := List.mem_map.1 hholding
      refine .inr ⟨X, p, holding, ?_, rfl⟩
      rw [row_of_mem_entries hrow]
      exact (row.get?_eq_some_iff p holding).2 hentry
  · rintro (⟨X, hX, rfl⟩ | ⟨X, p, holding, hget, rfl⟩)
    · obtain ⟨⟨X, row⟩, hrow, rfl⟩ := List.mem_map.1 hX
      exact List.mem_flatMap.2 ⟨(X, row), hrow, List.mem_cons_self⟩
    · have hp : p ∈ (t.row X).keys := ((t.row X).mem_keys_iff p).2 ⟨holding, hget⟩
      obtain ⟨row, hrow⟩ := (t.rows.mem_keys_iff X).1 (mem_keys_rows hp)
      have hentry := (t.rows.get?_eq_some_iff X row).1 hrow
      rw [row_of_mem_entries hentry] at hget
      have hvalue : holding ∈ row.values :=
        List.mem_map.2 ⟨(p, holding), (row.get?_eq_some_iff p holding).1 hget, rfl⟩
      exact List.mem_flatMap.2 ⟨(X, row), hentry, List.mem_cons_of_mem _ (List.mem_map_of_mem hvalue)⟩

/-! ## Estimation of any tables -/

/-- What estimation asks of the counts, whatever has been written to the tables: the count of each
nonterminal is the sum of the counts in its row, nonterminals with a row have been seen, and no
quotient is too large. -/
structure Estimable (t : Tables) : Prop where
  symbolCount_eq : ∀ X, X ∈ t.symbolCounts.keys ∨ X ∈ t.rows.keys → t.symbolCount X = t.rowTotal X
  symbolCount_pos : ∀ X ∈ t.rows.keys, 0 < t.symbolCount X
  quotient_lt : ∀ X p holding, (t.row X).get? p = some holding →
    |(holding.count : ℚ) / t.symbolCount X| < Binary64.overflowThreshold

/-- The weights of tables can be estimated if their sums agree and no checkpoint stops estimation. -/
theorem estimable_iff :
    t.Estimable ↔ t.checkCounts = .ok () ∧ ∀ cp ∈ t.checkpoints, ¬StopsAt t.symbolCount cp := by
  constructor
  · intro h
    refine ⟨checkCounts_eq_ok_iff.2 h.symbolCount_eq, ?_⟩
    intro cp hcp
    rcases mem_checkpoints_iff.1 hcp with ⟨X, hX, rfl⟩ | ⟨X, p, holding, hget, rfl⟩
    · exact not_le.2 (h.symbolCount_pos X hX)
    · exact not_le.2 (h.quotient_lt X p holding hget)
  · rintro ⟨hsums, hgoes⟩
    constructor
    · exact checkCounts_eq_ok_iff.1 hsums
    · intro X hX
      exact not_le.1 (hgoes _ (mem_checkpoints_iff.2 (.inl ⟨X, hX, rfl⟩)))
    · intro X p holding hget
      exact not_le.1 (hgoes _ (mem_checkpoints_iff.2 (.inr ⟨X, p, holding, hget, rfl⟩)))

/-- The nonterminals of all rules were seen if the weights can be estimated. -/
theorem Estimable.symbolCount_pos_of_mem (h : t.Estimable) {X : String} {holding : Holding}
    (hmem : .rule X holding ∈ t.checkpoints) : 0 < t.symbolCount X :=
  symbolCount_pos_of_goes (List.append_nil _).symm (estimable_iff.1 h).2 hmem

/-- Estimation of tables whose counts allow it. -/
theorem Estimable.estimate_eq (h : t.Estimable) :
    ∃ weights, t.estimate = ⟨{ t with weights := weights, normalised := true }, .ok ()⟩ ∧
      IsAssignedBy t.symbolCount t.checkpoints t.weights weights := by
  obtain ⟨hsums, hgoes⟩ := estimable_iff.1 h
  obtain ⟨weights, hweigh, hassigned⟩ :=
    exists_weigh_append hgoes (fun _ _ => h.symbolCount_pos_of_mem) t.weights []
  rw [List.append_nil] at hweigh
  refine ⟨weights, ?_, hassigned⟩
  rw [estimate, hsums, hweigh, weigh]

/-- The counts are the same afterwards, so that estimation can be repeated, and changes nothing. -/
theorem Estimable.estimate_estimate (h : t.Estimable) :
    t.estimate.tables.estimate = ⟨t.estimate.tables, .ok ()⟩ := by
  obtain ⟨weights, hestimate, hassigned⟩ := h.estimate_eq
  have hagain : Estimable { t with weights := weights, normalised := true } :=
    ⟨h.symbolCount_eq, h.symbolCount_pos, h.quotient_lt⟩
  obtain ⟨weights', hestimate', hassigned'⟩ := hagain.estimate_eq
  have hsame : weights' = weights := hassigned.again hassigned'
  rw [hestimate, hestimate', hsame]

/-- Estimation of tables whose sums do not agree changes nothing. -/
theorem exists_estimate_eq_mismatch {e : Grammar.Error} (h : t.checkCounts = .error e) :
    ∃ X, (X ∈ t.symbolCounts.keys ∨ X ∈ t.rows.keys) ∧ t.symbolCount X ≠ t.rowTotal X ∧
      t.estimate =
        ⟨t, .error (Inconsistency.sumMismatch X (t.symbolCount X) (t.rowTotal X)).error⟩ := by
  obtain ⟨X, hX, hne, rfl⟩ := exists_of_checkCounts_eq_error h
  refine ⟨X, hX, hne, ?_⟩
  rw [estimate, h]

/-- If estimation stops at a checkpoint, there is a first one at which it does. -/
theorem exists_first_stop (h : ¬∀ cp ∈ cps, ¬StopsAt symbolCount cp) :
    ∃ before cp after, cps = before ++ cp :: after ∧
      (∀ earlier ∈ before, ¬StopsAt symbolCount earlier) ∧ StopsAt symbolCount cp := by
  classical
  cases hfind : cps.find? fun cp => decide (StopsAt symbolCount cp) with
  | none => exact absurd (by simpa using List.find?_eq_none.1 hfind) h
  | some cp =>
    obtain ⟨hcp, before, after, hcut, hbefore⟩ := List.find?_eq_some_iff_append.1 hfind
    exact ⟨before, cp, after, hcut, by simpa using hbefore, of_decide_eq_true hcp⟩

/-- Estimation of tables whose sums agree and whose counts do not allow it stops at a checkpoint, with the
weights set before. -/
theorem exists_estimate_eq_stopped (hsums : t.checkCounts = .ok ()) (h : ¬t.Estimable) :
    ∃ before cp after weights, t.checkpoints = before ++ cp :: after ∧
      (∀ earlier ∈ before, ¬StopsAt t.symbolCount earlier) ∧ StopsAt t.symbolCount cp ∧
      t.estimate = ⟨{ t with weights := weights }, .error (stopError t.symbolCount cp)⟩ ∧
      IsWeighedBy t.symbolCount before t.weights weights := by
  obtain ⟨before, cp, after, hcut, hbefore, hcp⟩ :=
    exists_first_stop fun hgoes => h (estimable_iff.2 ⟨hsums, hgoes⟩)
  have hpos : ∀ X holding, .rule X holding ∈ before → 0 < t.symbolCount X :=
    fun _ _ => symbolCount_pos_of_goes hcut hbefore
  have hposcp : ∀ X holding, cp = .rule X holding → 0 < t.symbolCount X := by
    rintro X holding rfl
    exact not_le.1 (hbefore _ (nonterminal_mem_of_checkpoints_eq hcut))
  obtain ⟨weights, hweigh, hassigned⟩ := exists_weigh_append hbefore hpos t.weights (cp :: after)
  rw [← hcut, weigh_of_stopsAt hcp hposcp] at hweigh
  refine ⟨before, cp, after, weights, hcut, hbefore, hcp, ?_, hassigned.isWeighedBy hpos⟩
  rw [estimate, hsums, hweigh]

/-- Estimation succeeds if and only if the counts allow it.  Then each rule object has the correctly
rounded quotient at its last place, and another estimation changes nothing.  Otherwise estimation
stops with an error: either the sums do not agree, and nothing has changed, or they do, and the weights
of the objects before the first checkpoint that stops estimation have been set.  The counts and
their order are the same in any case.  Estimation of a grammar is the same on tables that stand for
it. -/
theorem estimates_or_stops (t : Tables) :
    (t.estimate.result = .ok () ↔ t.Estimable) ∧
    (t.estimate.tables.symbolCounts = t.symbolCounts ∧ t.estimate.tables.rows = t.rows) ∧
    (t.Estimable →
      t.estimate.tables.normalised = true ∧
      IsWeighedBy t.symbolCount t.checkpoints t.weights t.estimate.tables.weights ∧
      t.estimate.tables.estimate = ⟨t.estimate.tables, .ok ()⟩) ∧
    (¬t.Estimable →
      t.estimate.tables.normalised = t.normalised ∧
      ((∃ X, (X ∈ t.symbolCounts.keys ∨ X ∈ t.rows.keys) ∧ t.symbolCount X ≠ t.rowTotal X ∧
          t.estimate =
            ⟨t, .error (Inconsistency.sumMismatch X (t.symbolCount X) (t.rowTotal X)).error⟩) ∨
        (∀ X, X ∈ t.symbolCounts.keys ∨ X ∈ t.rows.keys → t.symbolCount X = t.rowTotal X) ∧
          ∃ before cp after, t.checkpoints = before ++ cp :: after ∧
            (∀ earlier ∈ before, ¬StopsAt t.symbolCount earlier) ∧ StopsAt t.symbolCount cp ∧
            t.estimate.result = .error (stopError t.symbolCount cp) ∧
            IsWeighedBy t.symbolCount before t.weights t.estimate.tables.weights)) ∧
    (∀ g object, t.Represents g object →
      t.estimate.result = g.estimate.result ∧
        t.estimate.tables.Represents g.estimate.grammar object) := by
  have hrepresents := fun g object (h : t.Represents g object) => h.estimate
  by_cases h : t.Estimable
  · have hagain := h.estimate_estimate
    obtain ⟨weights, hestimate, hassigned⟩ := h.estimate_eq
    rw [hestimate] at hagain hrepresents ⊢
    refine ⟨iff_of_true rfl h, ⟨rfl, rfl⟩, fun _ => ⟨rfl, ?_, hagain⟩, absurd h, hrepresents⟩
    exact hassigned.isWeighedBy fun _ _ => h.symbolCount_pos_of_mem
  · cases hsums : t.checkCounts with
    | error e =>
      obtain ⟨X, hX, hne, hestimate⟩ := exists_estimate_eq_mismatch hsums
      rw [hestimate] at hrepresents ⊢
      exact ⟨iff_of_false nofun h, ⟨rfl, rfl⟩, fun h' => absurd h' h,
        fun _ => ⟨rfl, .inl ⟨X, hX, hne, rfl⟩⟩, hrepresents⟩
    | ok =>
      obtain ⟨before, cp, after, weights, hcut, hbefore, hcp, hestimate, hweighed⟩ :=
        exists_estimate_eq_stopped hsums h
      rw [hestimate] at hrepresents ⊢
      refine ⟨iff_of_false nofun h, ⟨rfl, rfl⟩, fun h' => absurd h' h, fun _ => ⟨rfl, .inr ?_⟩,
        hrepresents⟩
      exact ⟨checkCounts_eq_ok_iff.1 hsums, before, cp, after, hcut, hbefore, hcp, rfl, hweighed⟩

/-- One rule object in two rows has the quotient in the second one. -/
example :
    let t : Tables := {
      symbolCounts := ⟨[("S", 1), ("T", 2)], by decide⟩
      rows := ⟨[("S", ⟨[(.ofBody "S" (.ofWord "a"), ⟨1, 0⟩)], by decide⟩),
        ("T", ⟨[(.ofBody "S" (.ofWord "a"), ⟨1, 0⟩), (.ofBody "T" (.ofWord "b"), ⟨1, 1⟩)],
          by decide⟩)], by decide⟩ }
    some (t.estimate.tables.weights 0) = Binary64.quotient? 1 2 := by
  decide +kernel

/-- Tables with two counts of 4300 digits, which are short enough to be written, and have a sum that is
not. -/
def longSum : Tables where
  symbolCounts := ⟨[("S", 1)], by decide⟩
  rows := ⟨[("S", ⟨[(.ofBody "S" (.ofWord "a"), ⟨10 ^ maxDigits - 1, 0⟩),
    (.ofBody "S" (.ofWord "b"), ⟨10 ^ maxDigits - 1, 1⟩)], by decide⟩)], by decide⟩

/-- Sums that do not agree are not reported as such if one of them is too long for the message. -/
theorem estimate_longSum :
    longSum.symbolCount "S" ≠ longSum.rowTotal "S" ∧
      longSum.estimate = ⟨longSum, .error .tooManyDigits⟩ ∧
      (∀ cause, longSum.estimate.result ≠ .error (.inconsistent cause)) ∧
      longSum.estimate.result ≠ .error .overflow := by
  have hne : longSum.symbolCount "S" ≠ longSum.rowTotal "S" := by decide +kernel
  have hcheck : longSum.checkCounts = .error .tooManyDigits := by decide +kernel
  have hestimate : longSum.estimate = ⟨longSum, .error .tooManyDigits⟩ := by
    rw [estimate, hcheck]
  rw [hestimate]
  exact ⟨hne, rfl, nofun, nofun⟩

end Tables
end TreebankGrammar
