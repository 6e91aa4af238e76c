import TreebankGrammar.Proofs.Grammar.Addition
import TreebankGrammar.Proofs.Workspace.Freezing

/-!
# Merging any two grammars

Merging is refused, and changes nothing, when one of the two grammars is normalised or the counts of
the other grammar do not pass their check.  In all other cases it adds all counts, whatever the counts of
the target are.  The two grammars may be one and the same, so that its counts double.

Main results:

- Theorem `Workspace.execute_merge_of_normalised`: a normalised grammar takes no part in merging.
- Theorem `Workspace.execute_merge_of_open`: merging of two grammars that are open.
- Theorem `Workspace.merge_adds_all_or_nothing`: what merging does to any two grammars.
-/

namespace TreebankGrammar
namespace Grammar

variable {g other : Grammar}

/-- When a grammar gains its own counts, and they pass their check, all counts double. -/
theorem Gains.double {merged : Grammar} (h : g.Gains g merged) (hcheck : g.checkCounts = .ok ()) :
    (∀ X, merged.symbolCount X = 2 * g.symbolCount X) ∧
      ∀ p, merged.ruleCount p = 2 * g.ruleCount p := by
  constructor
  · intro X
    rw [h.symbolCount, ← checkCounts_eq_ok_iff_forall.1 hcheck X]
    omega
  · intro p
    rw [h.ruleCount]
    omega

end Grammar

namespace Workspace

variable {w : Workspace} {name otherName : String} {i j : Nat}

/-- A command that merges goes on with the grammars of the two names. -/
theorem execute_merge (hname : w.grammarNames.get? name = some i)
    (hother : w.grammarNames.get? otherName = some j) :
    w.execute (.merge name otherName) =
      match (w.grammarAt i).merge (w.grammarAt j) with
      | .ok merged => (w.setGrammar name merged).answer .done
      | .error e => w.fail (.grammar e) := by
  cases hmerge : (w.grammarAt i).merge (w.grammarAt j) with
  | ok merged =>
    simp [execute, withGrammar_of_get? hname, withGrammar_of_get? hother, hmerge]
  | error e =>
    simp [execute, withGrammar_of_get? hname, withGrammar_of_get? hother, hmerge]

/-- A normalised grammar takes no part in merging. -/
theorem execute_merge_of_normalised (hname : w.grammarNames.get? name = some i)
    (hother : w.grammarNames.get? otherName = some j)
    (h : (w.grammarAt i).normalised = true ∨ (w.grammarAt j).normalised = true) :
    ∃ e : Grammar.Error, e.IsFrozen ∧ w.execute (.merge name otherName) = w.fail (.grammar e) := by
  obtain ⟨e, hfrozen, herror⟩ := Grammar.exists_merge_eq_error h
  exact ⟨e, hfrozen, by rw [execute_merge hname hother, herror]⟩

/-- Counts of an open grammar are merged into another open grammar if they pass their check. -/
theorem execute_merge_of_open (hname : w.grammarNames.get? name = some i)
    (hother : w.grammarNames.get? otherName = some j)
    (hi : (w.grammarAt i).normalised = false) (hj : (w.grammarAt j).normalised = false) :
    w.execute (.merge name otherName) =
      match (w.grammarAt j).checkCounts with
      | .error e => w.fail (.grammar e)
      | .ok () => (w.setGrammar name ((w.grammarAt i).addCounts (w.grammarAt j))).answer .done := by
  rw [execute_merge hname hother, Grammar.merge_of_open hi hj]
  cases (w.grammarAt j).checkCounts with
  | error e => rfl
  | ok => rfl

/-- A grammar that is put back leaves those at other positions as they are. -/
theorem grammarAt_setGrammar_of_ne (hname : w.grammarNames.get? name = some i) {k : Nat}
    (hk : k ≠ i) (g : Grammar) : (w.setGrammar name g).grammarAt k = w.grammarAt k := by
  refine grammarAt_setGrammar fun hk' => ?_
  rw [hname] at hk'
  exact absurd (Option.some.inj hk').symm hk

/-- Merging adds all counts of another grammar or changes nothing, whatever the two grammars are.  If one
of them is normalised, it fails for this reason; otherwise, if the counts of the other grammar do
not pass their check, it fails with their inconsistency; and otherwise it succeeds.  Then the grammar at
its position has gained the counts of the other one, which double if it is the same one, and all
grammars at other positions are as they were.  If the counts of the grammar have passed their check
before, they still do. -/
theorem merge_adds_all_or_nothing (hname : w.grammarNames.get? name = some i)
    (hother : w.grammarNames.get? otherName = some j) (hi : i < w.grammars.size) :
    ((w.grammarAt i).normalised = true ∨ (w.grammarAt j).normalised = true →
      ∃ e : Grammar.Error, e.IsFrozen ∧
        w.execute (.merge name otherName) = w.fail (.grammar e)) ∧
    ((w.grammarAt i).normalised = false → (w.grammarAt j).normalised = false →
      (w.grammarAt j).checkCounts ≠ .ok () →
        ∃ X, (w.grammarAt j).symbolCount X ≠ (w.grammarAt j).rowTotal X ∧
          w.execute (.merge name otherName) =
            w.fail (.grammar (Inconsistency.sumMismatch X ((w.grammarAt j).symbolCount X)
              ((w.grammarAt j).rowTotal X)).error)) ∧
    ((w.grammarAt i).normalised = false → (w.grammarAt j).normalised = false →
      (w.grammarAt j).checkCounts = .ok () →
        ∃ merged, w.execute (.merge name otherName) = (w.setGrammar name merged).answer .done ∧
          (w.setGrammar name merged).grammarAt i = merged ∧
          (∀ k, k ≠ i → (w.setGrammar name merged).grammarAt k = w.grammarAt k) ∧
          (w.grammarAt i).Gains (w.grammarAt j) merged ∧
          (i = j → (∀ X, merged.symbolCount X = 2 * (w.grammarAt i).symbolCount X) ∧
            ∀ p, merged.ruleCount p = 2 * (w.grammarAt i).ruleCount p) ∧
          ((w.grammarAt i).checkCounts = .ok () → merged.checkCounts = .ok ())) := by
  refine ⟨execute_merge_of_normalised hname hother, fun hg hopen hcheck => ?_,
    fun hg hopen hcheck => ?_⟩
  · have hexecute := execute_merge_of_open hname hother hg hopen
    cases hresult : (w.grammarAt j).checkCounts with
    | ok => exact absurd hresult hcheck
    | error e =>
      obtain ⟨X, -, hne, rfl⟩ := Grammar.exists_of_checkCounts_eq_error hresult
      rw [hresult] at hexecute
      exact ⟨X, hne, hexecute⟩
  · have hexecute := execute_merge_of_open hname hother hg hopen
    rw [hcheck] at hexecute
    have hgains := (w.grammarAt i).gains_addCounts (w.grammarAt j)
    refine ⟨_, hexecute, grammarAt_setGrammar_self hname hi _,
      fun k hk => grammarAt_setGrammar_of_ne hname hk _, hgains, ?_,
      fun hbefore => Grammar.checkCounts_addCounts hbefore _⟩
    rintro rfl
    exact hgains.double hcheck

end Workspace
end TreebankGrammar
