import TreebankGrammar.Proofs.Number.Rounding

/-!
# Quotients that are too large

A quotient is too large to be a number when its magnitude is at least halfway from the largest finite
number to the power of two that comes next.  The halfway point itself would be rounded to the even
significand, which is that of the power of two.

Main definitions:

- `Binary64.overflowThreshold`: the least magnitude that is too large.

Main results:

- Theorem `Binary64.isFinite_ofUnits_iff`: which quotients of units are rounded to finite numbers.
- Theorem `Binary64.quotient?_eq_none_iff`: which quotients of whole numbers are too large.
- Theorem `Binary64.exists_quotient?`: a quotient that is at most one is not too large.
-/

namespace TreebankGrammar
namespace Binary64

/-! ## The threshold -/

/-- The point halfway between the largest finite number, `2 ^ 1024 - 2 ^ 971`, and `2 ^ 1024`. -/
def overflowThreshold : ℚ :=
  2 ^ 1024 - 2 ^ 970

theorem two_pow_split {n k l : Nat} (h : n = k + l) : (2 : ℚ) ^ n = 2 ^ k * 2 ^ l := by
  rw [h, pow_add]

theorem cast_unitsPerOne : (unitsPerOne : ℚ) = 2 ^ 1074 := by
  unfold unitsPerOne
  generalize 1074 = k
  exact Nat.cast_pow 2 k

/-- In units the threshold lies half a step below `2 ^ 53` steps of the coarsest grid. -/
theorem overflowThreshold_mul_unitsPerOne :
    overflowThreshold * unitsPerOne = (2 ^ 53 - 1 / 2) * 2 ^ 2045 := by
  have hlarge : (2 : ℚ) ^ 1024 = 2 ^ 53 * 2 ^ 971 := two_pow_split (by norm_num)
  have hhalf : (2 : ℚ) ^ 971 = 2 ^ 1 * 2 ^ 970 := two_pow_split (by norm_num)
  have hgrid : (2 : ℚ) ^ 2045 = 2 ^ 971 * 2 ^ 1074 := two_pow_split (by norm_num)
  rw [overflowThreshold, cast_unitsPerOne, hgrid, hlarge, hhalf]
  generalize (2 : ℚ) ^ 970 = a
  generalize (2 : ℚ) ^ 1074 = b
  ring

/-! ## Rounding of units -/

theorem isFinite_pack_iff (negative : Bool) (m k : Nat) :
    (pack negative m k).isFinite = true ↔ Canonical m k := by
  unfold pack
  split
  · rename_i h
    exact iff_of_true rfl h
  · rename_i h
    exact iff_of_false Bool.false_ne_true h

/-- Half a step below a full number of steps a quotient is rounded up. -/
theorem roundHalfEven_eq_iff {n d : Nat} (hd : 0 < d) (hle : roundHalfEven n d ≤ 2 ^ 53) :
    roundHalfEven n d = 2 ^ 53 ↔ (2 ^ 53 - 1 / 2 : ℚ) ≤ (n : ℚ) / d := by
  have hclose := abs_sub_roundHalfEven n hd
  constructor
  · intro heq
    have hhalf : |(n : ℚ) / d - roundHalfEven n d| ≤ 1 / 2 := by
      rcases hclose with hless | ⟨hhalf, -⟩
      · exact hless.le
      · exact hhalf.le
    rw [heq] at hhalf
    push_cast at hhalf
    linarith [(abs_le.1 hhalf).1]
  · intro hthreshold
    by_contra hne
    have hsteps : (roundHalfEven n d : ℚ) ≤ 2 ^ 53 - 1 := by
      have hnat : roundHalfEven n d + 1 ≤ 2 ^ 53 := by omega
      have hcast : ((roundHalfEven n d : Nat) : ℚ) + 1 ≤ 2 ^ 53 := by exact_mod_cast hnat
      linarith
    rcases hclose with hless | ⟨hhalf, heven⟩
    · linarith [(abs_lt.1 hless).2]
    · -- At the halfway point the number of steps would be even, but one less than `2 ^ 53` is odd.
      have hpoint : (roundHalfEven n d : ℚ) = 2 ^ 53 - 1 := by
        have hupper := (abs_le.1 hhalf.le).2
        linarith
      have hnat : roundHalfEven n d + 1 = 2 ^ 53 := by
        have hcast : ((roundHalfEven n d + 1 : Nat) : ℚ) = (2 ^ 53 : Nat) := by
          push_cast
          linarith
        exact_mod_cast hcast
      omega

/-- On the coarsest grid a quotient is rounded to a finite number unless it is rounded to a full number
of steps. -/
theorem isFinite_ofUnits_coarsest (negative : Bool) {num den : Nat} (hden : 0 < den)
    (h : gridExponent num den = 2045) :
    (ofUnits negative num den).isFinite = true ↔
      (num : ℚ) / den < (2 ^ 53 - 1 / 2) * 2 ^ 2045 := by
  have hle := gridSteps_le num hden
  have hge : 2 ^ 52 ≤ gridSteps num den := le_gridSteps hden (by omega)
  have hfull : gridSteps num den = 2 ^ 53 ↔
      (2 ^ 53 - 1 / 2 : ℚ) * 2 ^ gridExponent num den ≤ (num : ℚ) / den := by
    have hstep : (0 : ℚ) < 2 ^ gridExponent num den := by positivity
    have hpos : 0 < den * 2 ^ gridExponent num den := by positivity
    rw [← le_div_iff₀ hstep, div_div]
    rw [gridSteps] at hle ⊢
    rw [roundHalfEven_eq_iff hpos hle]
    push_cast
    rfl
  rw [← h, ← not_le, ← hfull]
  by_cases hsteps : gridSteps num den = 2 ^ 53
  · have hnot : ¬Canonical (2 ^ 52) (gridExponent num den + 1) := by
      rintro ⟨-, hrange, -⟩
      omega
    rw [ofUnits_of_gridSteps_eq negative hsteps, isFinite_pack_iff]
    exact iff_of_false hnot (not_not.2 hsteps)
  · rw [ofUnits_of_gridSteps_ne negative hsteps, isFinite_pack_iff]
    exact iff_of_true ⟨Nat.lt_of_le_of_ne hle hsteps, by omega, .inr hge⟩ hsteps

/-- A quotient beyond the coarsest grid is not rounded to a finite number. -/
theorem isFinite_ofUnits_beyond (negative : Bool) {num den : Nat}
    (h : 2045 < gridExponent num den) : (ofUnits negative num den).isFinite = false := by
  rw [Bool.eq_false_iff]
  by_cases hsteps : gridSteps num den = 2 ^ 53
  · rw [ofUnits_of_gridSteps_eq negative hsteps, ne_eq, isFinite_pack_iff]
    rintro ⟨-, hrange, -⟩
    omega
  · rw [ofUnits_of_gridSteps_ne negative hsteps, ne_eq, isFinite_pack_iff]
    rintro ⟨-, hrange, -⟩
    omega

/-- A quotient of units is rounded to a finite number if it is below the threshold. -/
theorem isFinite_ofUnits_iff (negative : Bool) (num : Nat) {den : Nat} (hden : 0 < den) :
    (ofUnits negative num den).isFinite = true ↔
      (num : ℚ) / den < overflowThreshold * unitsPerOne := by
  have hdouble : ∀ k : Nat, (2 : ℚ) ^ (k + 1) = 2 * 2 ^ k := fun k => pow_succ' 2 k
  rw [overflowThreshold_mul_unitsPerOne]
  rcases lt_trichotomy (gridExponent num den) 2045 with hfine | hcoarsest | hbeyond
  · refine iff_of_true (isFinite_ofUnits negative hden hfine) ?_
    calc (num : ℚ) / den < 2 ^ 53 * 2 ^ gridExponent num den := div_lt_gridExponent num hden
      _ ≤ 2 ^ 53 * 2 ^ 2044 := by
          gcongr
          · norm_num
          · omega
      _ < (2 ^ 53 - 1 / 2) * 2 ^ 2045 := by
          have hpos : (0 : ℚ) < 2 ^ 2044 := by positivity
          rw [hdouble 2044]
          generalize (2 : ℚ) ^ 2044 = a at hpos ⊢
          linarith
  · exact isFinite_ofUnits_coarsest negative hden hcoarsest
  · rw [isFinite_ofUnits_beyond negative hbeyond]
    refine iff_of_false Bool.false_ne_true (not_lt.2 ?_)
    calc ((2 ^ 53 - 1 / 2) * 2 ^ 2045 : ℚ) ≤ 2 ^ 52 * 2 ^ 2046 := by
          have hpos : (0 : ℚ) < 2 ^ 2045 := by positivity
          rw [hdouble 2045]
          generalize (2 : ℚ) ^ 2045 = a at hpos ⊢
          linarith
      _ ≤ 2 ^ 52 * 2 ^ gridExponent num den := by
          gcongr
          · norm_num
          · omega
      _ ≤ (num : ℚ) / den := gridExponent_le_div hden (by omega)

/-! ## Rounding of quotients -/

/-- A quotient of whole numbers is a number if its magnitude is below the threshold. -/
theorem exists_quotient?_iff {a b : Int} (hb : 0 < b) :
    (∃ w, quotient? a b = some w) ↔ |(a : ℚ) / b| < overflowThreshold := by
  have hden : 0 < b.natAbs := by omega
  have hunits : (0 : ℚ) < unitsPerOne := Nat.cast_pos.2 unitsPerOne_pos
  have hmagnitude : ((a.natAbs * unitsPerOne : Nat) : ℚ) / (b.natAbs : Nat) =
      |(a : ℚ) / b| * unitsPerOne := by
    rw [abs_div, Nat.cast_mul, Nat.cast_natAbs, Nat.cast_natAbs, Int.cast_abs, Int.cast_abs]
    ring
  rw [← mul_lt_mul_iff_left₀ hunits, ← hmagnitude,
    ← isFinite_ofUnits_iff (decide (a < 0)) (a.natAbs * unitsPerOne) hden]
  simp only [quotient?_eq_some_iff, exists_eq_left']

/-- A quotient of whole numbers is too large if its magnitude is not below the threshold. -/
theorem quotient?_eq_none_iff {a b : Int} (hb : 0 < b) :
    quotient? a b = none ↔ overflowThreshold ≤ |(a : ℚ) / b| := by
  rw [← not_lt, ← exists_quotient?_iff hb, ← Option.ne_none_iff_exists', not_not]

theorem one_lt_overflowThreshold : 1 < overflowThreshold := by
  have hlarge : (2 : ℚ) ^ 1024 = 2 ^ 54 * 2 ^ 970 := two_pow_split (by norm_num)
  have hone : (1 : ℚ) ≤ 2 ^ 970 := one_le_pow₀ (by norm_num)
  rw [overflowThreshold, hlarge]
  generalize (2 : ℚ) ^ 970 = a at hone ⊢
  linarith

/-- A quotient that is at most one is not too large. -/
theorem exists_quotient? {a b : Int} (hb : 0 < b) (hle : (a.natAbs : Int) ≤ b) :
    ∃ w, quotient? a b = some w := by
  have hb' : (0 : ℚ) < b := Int.cast_pos.2 hb
  have hle' : |(a : ℚ)| ≤ b := by
    rw [← Int.cast_abs, Int.cast_le, Int.abs_eq_natAbs]
    exact hle
  refine (exists_quotient?_iff hb).2 ?_
  calc |(a : ℚ) / b| = |(a : ℚ)| / b := by rw [abs_div, abs_of_pos hb']
    _ ≤ 1 := (div_le_one hb').2 hle'
    _ < overflowThreshold := one_lt_overflowThreshold

end Binary64
end TreebankGrammar
