import Mathlib.Algebra.Order.Field.Rat
import Mathlib.Tactic.FieldSimp
import Mathlib.Tactic.Linarith
import Mathlib.Tactic.Positivity
import Mathlib.Tactic.Ring
import TreebankGrammar.Number.Binary64

/-!
# Correct rounding

The rounding of quotients is correct: no finite number is nearer to the exact quotient than the
rounded one, and of two nearest ones the rounded one has the even significand.  A quotient is
rounded on a grid of whole multiples of a power of two.  The finite numbers off this grid are small
and stand no nearer than a point of it.

Main results:

- Theorem `Binary64.isNearest_ofUnits`: a quotient of units is rounded correctly unless it is too
  large.
- Theorem `Binary64.isNearest_of_quotient?`: a quotient of whole numbers is rounded correctly
  unless it is too large.
-/

namespace TreebankGrammar
namespace Binary64

/-! ## Exact values -/

/-- The number of units of a finite number; the other numbers have none and count as zero. -/
def units : Binary64 → Int
  | .finite s m k _ => signedUnits s m k
  | _ => 0

/-- The exact value of a finite number. -/
def toRat (w : Binary64) : ℚ :=
  w.units / unitsPerOne

/-- The significand of a finite number. -/
def significand : Binary64 → Nat
  | .finite _ m _ _ => m
  | _ => 0

/-- Whether a finite number has a minus sign. -/
def isNegative : Binary64 → Bool
  | .finite s _ _ _ => s
  | _ => false

/-- The number that a rational number is rounded to: finite, with the same sign, no finite number
is nearer, and if another one is as near the significand is even. -/
structure IsNearest (x : ℚ) (w : Binary64) : Prop where
  isFinite : w.isFinite = true
  isNegative_eq : w.isNegative = decide (x < 0)
  abs_sub_le : ∀ v : Binary64, v.isFinite = true → |x - w.toRat| ≤ |x - v.toRat|
  even_of_tie : ∀ v : Binary64, v.isFinite = true → |x - v.toRat| = |x - w.toRat| →
    v.toRat ≠ w.toRat → w.significand % 2 = 0

theorem unitsPerOne_pos : 0 < unitsPerOne := by
  unfold unitsPerOne
  generalize 1074 = k
  exact Nat.two_pow_pos k

/-- The number one has the value one. -/
theorem toRat_one : one.toRat = 1 := by
  have hunits : one.units = unitsPerOne := by decide +kernel
  have hpos : ((unitsPerOne : Int) : ℚ) ≠ 0 :=
    Int.cast_ne_zero.2 (Int.natCast_ne_zero.2 unitsPerOne_pos.ne')
  rw [toRat, hunits]
  exact div_self hpos

theorem toRat_finite_false (m k : Nat) (h : Canonical m k) :
    (finite false m k h).toRat = m * 2 ^ k / unitsPerOne := by
  have hunits : ((finite false m k h).units : ℚ) = m * 2 ^ k := by simp [units, signedUnits]
  rw [toRat, hunits]

theorem toRat_finite_true (m k : Nat) (h : Canonical m k) :
    (finite true m k h).toRat = -(m * 2 ^ k) / unitsPerOne := by
  have hunits : ((finite true m k h).units : ℚ) = -(m * 2 ^ k) := by simp [units, signedUnits]
  rw [toRat, hunits]

theorem units_neg (w : Binary64) : w.neg.units = -w.units := by
  cases w with
  | finite s m k h => cases s <;> simp [neg, units, signedUnits]
  | infinite s => rfl
  | nan => rfl

@[simp]
theorem toRat_neg (w : Binary64) : w.neg.toRat = -w.toRat := by
  rw [toRat, toRat, units_neg, Int.cast_neg, neg_div]

@[simp]
theorem isFinite_neg (w : Binary64) : w.neg.isFinite = w.isFinite := by
  cases w <;> rfl

@[simp]
theorem significand_neg (w : Binary64) : w.neg.significand = w.significand := by
  cases w <;> rfl

theorem isNegative_neg {w : Binary64} (h : w.isFinite = true) :
    w.neg.isNegative = !w.isNegative := by
  cases w with
  | finite s m k hc => rfl
  | infinite s => cases h
  | nan => cases h

/-- Rounding does not depend on the sign. -/
theorem IsNearest.neg {x : ℚ} {w : Binary64} (h : IsNearest x w) (hx : x ≠ 0) :
    IsNearest (-x) w.neg where
  isFinite := by rw [isFinite_neg, h.isFinite]
  isNegative_eq := by
    rw [isNegative_neg h.isFinite, h.isNegative_eq]
    rcases lt_or_gt_of_ne hx with hlt | hlt
    · simp [hlt, hlt.le]
    · simp [hlt, hlt.le]
  abs_sub_le v hv := by
    have hle := h.abs_sub_le v.neg (by rwa [isFinite_neg])
    rw [toRat_neg] at hle ⊢
    rw [abs_sub_comm (-x), abs_sub_comm (-x)]
    convert hle using 2 <;> ring
  even_of_tie v hv htie hne := by
    rw [significand_neg]
    rw [toRat_neg] at htie hne
    refine h.even_of_tie v.neg (by rwa [isFinite_neg]) ?_ ?_
    · rw [toRat_neg, abs_sub_comm x, abs_sub_comm x]
      convert htie using 2 <;> ring
    · rw [toRat_neg]
      exact fun heq => hne (by linarith)

/-! ## Rounding to whole numbers -/

/-- A quotient is rounded by less than one half, or by one half to an even number. -/
theorem abs_sub_roundHalfEven (n : Nat) {d : Nat} (hd : 0 < d) :
    |(n : ℚ) / d - roundHalfEven n d| < 1 / 2 ∨
      |(n : ℚ) / d - roundHalfEven n d| = 1 / 2 ∧ roundHalfEven n d % 2 = 0 := by
  have hd' : (0 : ℚ) < d := by exact_mod_cast hd
  let t : ℚ := ((n % d : Nat) : ℚ) / d
  have hsplit : (n : ℚ) / d = (n / d : Nat) + t := by
    have hn : (n : ℚ) = d * (n / d : Nat) + (n % d : Nat) := by
      exact_mod_cast (Nat.div_add_mod n d).symm
    simp only [t]
    field_simp
    exact hn
  have hnonneg : 0 ≤ t := by positivity
  have hlt : t < 1 := by
    rw [div_lt_one hd']
    exact_mod_cast Nat.mod_lt n hd
  have hhalf : 2 * (n % d) < d ↔ t < 1 / 2 := by
    rw [div_lt_iff₀ hd', ← @Nat.cast_lt ℚ]
    push_cast
    constructor <;> intro h <;> linarith
  have hhalf' : d < 2 * (n % d) ↔ 1 / 2 < t := by
    rw [lt_div_iff₀ hd', ← @Nat.cast_lt ℚ]
    push_cast
    constructor <;> intro h <;> linarith
  have hdown : |(n : ℚ) / d - (n / d : Nat)| = t := by
    rw [hsplit, add_sub_cancel_left, abs_of_nonneg hnonneg]
  have hup : |(n : ℚ) / d - (n / d + 1 : Nat)| = 1 - t := by
    rw [hsplit, abs_sub_comm, abs_of_nonneg (by push_cast; linarith)]
    push_cast
    ring
  unfold roundHalfEven
  dsimp only
  split
  · rename_i hsmall
    left
    rw [hdown]
    exact hhalf.1 hsmall
  · rename_i hsmall
    split
    · rename_i hlarge
      left
      rw [hup]
      linarith [hhalf'.1 hlarge]
    · rename_i hlarge
      have htie : t = 1 / 2 := by
        rw [hhalf] at hsmall
        rw [hhalf'] at hlarge
        linarith
      right
      split
      · rename_i heven
        exact ⟨by rw [hdown, htie], heven⟩
      · rename_i hodd
        refine ⟨by rw [hup, htie]; norm_num, by omega⟩

/-- Another whole number is at least as far from a quotient as the rounded one, and if it is as
near the rounded one is even. -/
theorem abs_sub_roundHalfEven_le (n : Nat) {d : Nat} (hd : 0 < d) {z : ℤ}
    (hne : z ≠ roundHalfEven n d) :
    |(n : ℚ) / d - roundHalfEven n d| ≤ |(n : ℚ) / d - z| ∧
      (|(n : ℚ) / d - z| = |(n : ℚ) / d - roundHalfEven n d| → roundHalfEven n d % 2 = 0) := by
  let q : ℤ := roundHalfEven n d
  have hapart : (1 : ℚ) ≤ |(q : ℚ) - z| := by
    exact_mod_cast Int.one_le_abs (sub_ne_zero.2 hne.symm)
  have htriangle : |(q : ℚ) - z| ≤ |(n : ℚ) / d - z| + |(n : ℚ) / d - q| := by
    calc |(q : ℚ) - z| = |((n : ℚ) / d - z) - ((n : ℚ) / d - q)| := by ring_nf
      _ ≤ |(n : ℚ) / d - z| + |(n : ℚ) / d - q| := abs_sub _ _
  have hq : (q : ℚ) = (roundHalfEven n d : Nat) := by simp [q]
  rw [hq] at hapart htriangle
  rcases abs_sub_roundHalfEven n hd with hless | ⟨hhalf, heven⟩
  · exact ⟨by linarith, fun htie => by linarith⟩
  · exact ⟨by linarith, fun _ => heven⟩

/-! ## The grid -/

/-- The magnitude of a quotient is below `2 ^ 53` steps of its grid. -/
theorem div_lt_gridExponent (num : Nat) {den : Nat} (hden : 0 < den) :
    (num : ℚ) / den < 2 ^ 53 * 2 ^ gridExponent num den := by
  have hlog : num / den < 2 ^ 53 * 2 ^ gridExponent num den := by
    calc num / den < 2 ^ ((num / den).log2 + 1) := Nat.lt_log2_self
      _ ≤ 2 ^ (53 + gridExponent num den) := by
        apply Nat.pow_le_pow_right Nat.two_pos
        unfold gridExponent
        omega
      _ = 2 ^ 53 * 2 ^ gridExponent num den := Nat.pow_add 2 53 _
  rw [div_lt_iff₀ (by exact_mod_cast hden)]
  exact_mod_cast (Nat.div_lt_iff_lt_mul hden).1 hlog

/-- On a grid that is not the finest one the magnitude of a quotient is at least `2 ^ 52` steps. -/
theorem gridExponent_le_div {num den : Nat} (hden : 0 < den) (h : gridExponent num den ≠ 0) :
    (2 ^ 52 * 2 ^ gridExponent num den : ℚ) ≤ (num : ℚ) / den := by
  have hlog : 2 ^ 52 * 2 ^ gridExponent num den ≤ num / den := by
    have hlarge : 52 + gridExponent num den = (num / den).log2 := by
      unfold gridExponent at h ⊢
      omega
    have hne : num / den ≠ 0 := by
      intro hzero
      rw [hzero] at hlarge
      simp at hlarge
    rw [← Nat.pow_add, hlarge]
    exact Nat.log2_self_le hne
  rw [le_div_iff₀ (by exact_mod_cast hden)]
  exact_mod_cast (Nat.le_div_iff_mul_le hden).1 hlog

/-- The number of steps of its grid that a quotient is rounded to. -/
def gridSteps (num den : Nat) : Nat :=
  roundHalfEven num (den * 2 ^ gridExponent num den)

/-- Distances from a quotient, in steps of its grid. -/
theorem abs_sub_mul_grid (num den : Nat) (z : ℚ) :
    |(num : ℚ) / den - z * 2 ^ gridExponent num den| =
      |(num : ℚ) / (den * 2 ^ gridExponent num den : Nat) - z| * 2 ^ gridExponent num den := by
  have hpos : (0 : ℚ) < 2 ^ gridExponent num den := by positivity
  rw [← abs_of_pos hpos, ← abs_mul, abs_of_pos hpos, sub_mul]
  push_cast
  rw [← div_div, div_mul_cancel₀ _ hpos.ne']

/-- A quotient is moved by at most half a step. -/
theorem abs_sub_gridSteps_le (num : Nat) {den : Nat} (hden : 0 < den) :
    |(num : ℚ) / den - gridSteps num den * 2 ^ gridExponent num den| ≤
      1 / 2 * 2 ^ gridExponent num den := by
  have hpos : 0 < den * 2 ^ gridExponent num den := by positivity
  rw [abs_sub_mul_grid]
  refine mul_le_mul_of_nonneg_right ?_ (by positivity)
  rcases abs_sub_roundHalfEven num hpos with h | h
  · exact h.le
  · exact h.1.le

theorem gridSteps_le (num : Nat) {den : Nat} (hden : 0 < den) : gridSteps num den ≤ 2 ^ 53 := by
  have hstep : (0 : ℚ) < 2 ^ gridExponent num den := by positivity
  have hclose := (abs_le.1 (abs_sub_gridSteps_le num hden)).1
  have hlt := div_lt_gridExponent num hden
  have hsteps : (gridSteps num den : ℚ) < 2 ^ 53 + 1 := by
    refine lt_of_mul_lt_mul_right ?_ hstep.le
    linarith
  have hsteps' : gridSteps num den < 2 ^ 53 + 1 := by exact_mod_cast hsteps
  omega

theorem le_gridSteps {num den : Nat} (hden : 0 < den) (h : gridExponent num den ≠ 0) :
    2 ^ 52 ≤ gridSteps num den := by
  have hstep : (0 : ℚ) < 2 ^ gridExponent num den := by positivity
  have hclose := (abs_le.1 (abs_sub_gridSteps_le num hden)).2
  have hle := gridExponent_le_div hden h
  have hsteps : (2 ^ 52 : ℚ) < gridSteps num den + 1 := by
    refine lt_of_mul_lt_mul_right ?_ hstep.le
    linarith
  have hsteps' : 2 ^ 52 < gridSteps num den + 1 := by exact_mod_cast hsteps
  omega

/-- No point of the grid is nearer to a quotient than the one it is rounded to. -/
theorem abs_sub_gridSteps_le_of_steps (num : Nat) {den z : Nat} (hden : 0 < den)
    (hne : z ≠ gridSteps num den) :
    |(num : ℚ) / den - gridSteps num den * 2 ^ gridExponent num den| ≤
        |(num : ℚ) / den - z * 2 ^ gridExponent num den| ∧
      (|(num : ℚ) / den - z * 2 ^ gridExponent num den| =
          |(num : ℚ) / den - gridSteps num den * 2 ^ gridExponent num den| →
        gridSteps num den % 2 = 0) := by
  have hpos : 0 < den * 2 ^ gridExponent num den := by positivity
  have hstep : (0 : ℚ) < 2 ^ gridExponent num den := by positivity
  have hne' : (z : ℤ) ≠ roundHalfEven num (den * 2 ^ gridExponent num den) := by
    exact_mod_cast hne
  rcases abs_sub_roundHalfEven_le num hpos hne' with ⟨hle, htie⟩
  rw [Int.cast_natCast] at hle htie
  rw [abs_sub_mul_grid, abs_sub_mul_grid]
  constructor
  · exact mul_le_mul_of_nonneg_right hle hstep.le
  · intro heq
    exact htie (mul_right_cancel₀ hstep.ne' heq)

/-- A magnitude that is finer than the grid is farther from a quotient than its grid point: it is
below the least full significand on the grid, and this is no nearer than the grid point. -/
theorem abs_sub_gridSteps_lt_of_lt (num : Nat) {den m j : Nat} (hden : 0 < den)
    (hcanonical : Canonical m j) (hlt : j < gridExponent num den) :
    |(num : ℚ) / den - gridSteps num den * 2 ^ gridExponent num den| <
      |(num : ℚ) / den - m * 2 ^ j| := by
  have hbelow : (m * 2 ^ j : ℚ) < 2 ^ 52 * 2 ^ gridExponent num den := by
    have hnat : m * 2 ^ j < 2 ^ 52 * 2 ^ gridExponent num den := by
      calc m * 2 ^ j < 2 ^ 53 * 2 ^ j :=
            Nat.mul_lt_mul_of_pos_right hcanonical.1 (Nat.two_pow_pos j)
        _ = 2 ^ 52 * 2 ^ (j + 1) := by ring
        _ ≤ 2 ^ 52 * 2 ^ gridExponent num den :=
            Nat.mul_le_mul_left _ (Nat.pow_le_pow_right Nat.two_pos hlt)
    exact_mod_cast hnat
  have hle : (2 ^ 52 * 2 ^ gridExponent num den : ℚ) ≤ (num : ℚ) / den :=
    gridExponent_le_div hden (by omega)
  have hgrid : |(num : ℚ) / den - gridSteps num den * 2 ^ gridExponent num den| ≤
      |(num : ℚ) / den - 2 ^ 52 * 2 ^ gridExponent num den| := by
    by_cases hsteps : 2 ^ 52 = gridSteps num den
    · rw [← hsteps]
      push_cast
      exact le_refl _
    · exact_mod_cast (abs_sub_gridSteps_le_of_steps num hden hsteps).1
  rw [abs_of_nonneg (sub_nonneg.2 hle)] at hgrid
  rw [abs_of_nonneg (by linarith : (0 : ℚ) ≤ (num : ℚ) / den - m * 2 ^ j)]
  linarith

/-- No magnitude is nearer to a quotient than the one it is rounded to, and if another one is as
near the number of steps is even. -/
theorem abs_sub_gridSteps_le_of_canonical (num : Nat) {den m j : Nat} (hden : 0 < den)
    (hcanonical : Canonical m j)
    (hne : (m * 2 ^ j : ℚ) ≠ gridSteps num den * 2 ^ gridExponent num den) :
    |(num : ℚ) / den - gridSteps num den * 2 ^ gridExponent num den| ≤
        |(num : ℚ) / den - m * 2 ^ j| ∧
      (|(num : ℚ) / den - m * 2 ^ j| =
          |(num : ℚ) / den - gridSteps num den * 2 ^ gridExponent num den| →
        gridSteps num den % 2 = 0) := by
  rcases Nat.lt_or_ge j (gridExponent num den) with hlt | hge
  · have hstrict := abs_sub_gridSteps_lt_of_lt num hden hcanonical hlt
    exact ⟨hstrict.le, fun heq => absurd heq hstrict.ne'⟩
  · have hpoint : (m * 2 ^ j : ℚ) =
        (m * 2 ^ (j - gridExponent num den) : Nat) * 2 ^ gridExponent num den := by
      push_cast
      rw [mul_assoc, ← pow_add, Nat.sub_add_cancel hge]
    rw [hpoint] at hne ⊢
    refine abs_sub_gridSteps_le_of_steps num hden ?_
    intro heq
    exact hne (by rw [heq])

/-! ## Rounding of units -/

/-- A full number of steps is packed on the next coarser grid. -/
theorem ofUnits_of_gridSteps_eq (negative : Bool) {num den : Nat}
    (h : gridSteps num den = 2 ^ 53) :
    ofUnits negative num den = pack negative (2 ^ 52) (gridExponent num den + 1) :=
  if_pos h

theorem ofUnits_of_gridSteps_ne (negative : Bool) {num den : Nat}
    (h : gridSteps num den ≠ 2 ^ 53) :
    ofUnits negative num den = pack negative (gridSteps num den) (gridExponent num den) :=
  if_neg h

/-- What a quotient of units is rounded to: a canonical form of its grid point. -/
theorem exists_ofUnits_eq (negative : Bool) (num : Nat) {den : Nat}
    (hfinite : (ofUnits negative num den).isFinite = true) :
    ∃ m j h, ofUnits negative num den = .finite negative m j h ∧
      m * 2 ^ j = gridSteps num den * 2 ^ gridExponent num den ∧
      (gridSteps num den % 2 = 0 → m % 2 = 0) := by
  have hpack : ∀ {m j : Nat}, (pack negative m j).isFinite = true →
      ∃ h, pack negative m j = .finite negative m j h := by
    intro m j hpacked
    unfold pack at hpacked ⊢
    split at hpacked
    · rename_i h
      exact ⟨h, dif_pos h⟩
    · cases hpacked
  by_cases hfull : gridSteps num den = 2 ^ 53
  · rw [ofUnits_of_gridSteps_eq negative hfull] at hfinite ⊢
    rcases hpack hfinite with ⟨h, hfin⟩
    refine ⟨_, _, h, hfin, ?_, fun _ => by decide⟩
    rw [hfull]
    ring
  · rw [ofUnits_of_gridSteps_ne negative hfull] at hfinite ⊢
    rcases hpack hfinite with ⟨h, hfin⟩
    exact ⟨_, _, h, hfin, rfl, id⟩

/-- A quotient of units is not too large when its grid is not among the coarsest. -/
theorem isFinite_ofUnits (negative : Bool) {num den : Nat} (hden : 0 < den)
    (h : gridExponent num den < 2045) : (ofUnits negative num den).isFinite = true := by
  have hle := gridSteps_le num hden
  by_cases hfull : gridSteps num den = 2 ^ 53
  · have hcanonical : Canonical (2 ^ 52) (gridExponent num den + 1) :=
      ⟨by decide, by omega, Or.inr (Nat.le_refl _)⟩
    rw [ofUnits_of_gridSteps_eq negative hfull, pack_of_canonical negative hcanonical]
    rfl
  · have hcanonical : Canonical (gridSteps num den) (gridExponent num den) := by
      refine ⟨Nat.lt_of_le_of_ne hle hfull, by omega, ?_⟩
      by_cases hgrid : gridExponent num den = 0
      · exact Or.inl hgrid
      · exact Or.inr (le_gridSteps hden hgrid)
    rw [ofUnits_of_gridSteps_ne negative hfull, pack_of_canonical negative hcanonical]
    rfl

/-- Every finite number is a magnitude or the opposite of one. -/
theorem exists_magnitude {v : Binary64} (hv : v.isFinite = true) :
    ∃ n l, Canonical n l ∧
      (v.toRat = n * 2 ^ l / unitsPerOne ∨ v.toRat = -(n * 2 ^ l) / unitsPerOne) := by
  cases v with
  | finite s n l h =>
    refine ⟨n, l, h, ?_⟩
    cases s with
    | false => exact Or.inl (toRat_finite_false n l h)
    | true => exact Or.inr (toRat_finite_true n l h)
  | infinite s => cases hv
  | nan => cases hv

theorem magnitude_nonneg (n l : Nat) : (0 : ℚ) ≤ n * 2 ^ l := by
  positivity

/-- The opposite of a magnitude is no nearer to a quotient than the magnitude. -/
theorem abs_sub_le_abs_sub_neg {x a : ℚ} (hx : 0 ≤ x) (ha : 0 ≤ a) : |x - a| ≤ |x - -a| := by
  rw [sub_neg_eq_add, abs_of_nonneg (add_nonneg hx ha), abs_le]
  constructor
  · linarith
  · linarith

/-- Distances between numbers of units. -/
theorem abs_div_sub_div_unitsPerOne (x a : ℚ) :
    |x / unitsPerOne - a / unitsPerOne| = |x - a| / unitsPerOne := by
  have hunits : (0 : ℚ) < unitsPerOne := Nat.cast_pos.2 unitsPerOne_pos
  rw [← sub_div, abs_div, abs_of_pos hunits]

/-- No magnitude is nearer to a quotient than its grid point. -/
theorem abs_sub_gridSteps_le_magnitude (num : Nat) {den n l : Nat} (hden : 0 < den)
    (hcanonical : Canonical n l) :
    |(num : ℚ) / den - gridSteps num den * 2 ^ gridExponent num den| ≤
      |(num : ℚ) / den - n * 2 ^ l| := by
  by_cases hsame : (n * 2 ^ l : ℚ) = gridSteps num den * 2 ^ gridExponent num den
  · rw [hsame]
  · exact (abs_sub_gridSteps_le_of_canonical num hden hcanonical hsame).1

/-- A quotient that is as near to the opposite of its grid point has the grid point zero. -/
theorem gridPoint_eq_zero {num den : Nat} (hden : 0 < den)
    (htie : |(num : ℚ) / den - -(gridSteps num den * 2 ^ gridExponent num den)| =
      |(num : ℚ) / den - gridSteps num den * 2 ^ gridExponent num den|) :
    (gridSteps num den * 2 ^ gridExponent num den : ℚ) = 0 := by
  have hx : (0 : ℚ) ≤ (num : ℚ) / den := by positivity
  have hpoint := magnitude_nonneg (gridSteps num den) (gridExponent num den)
  -- Zero is no nearer than the grid point, and the opposite of the grid point lies beyond zero.
  have hzero : |(num : ℚ) / den - gridSteps num den * 2 ^ gridExponent num den| ≤
      (num : ℚ) / den := by
    have hle := abs_sub_gridSteps_le_magnitude num hden (by decide : Canonical 0 0)
    simpa [abs_of_nonneg hx] using hle
  rw [sub_neg_eq_add, abs_of_nonneg (add_nonneg hx hpoint)] at htie
  linarith

/-- A quotient of units is rounded correctly unless it is too large. -/
theorem isNearest_ofUnits {num den : Nat} (hden : 0 < den)
    (hfinite : (ofUnits false num den).isFinite = true) :
    IsNearest ((num : ℚ) / den / unitsPerOne) (ofUnits false num den) := by
  rcases exists_ofUnits_eq false num hfinite with ⟨m, j, hm, heq, hpoint, heven⟩
  have hx : (0 : ℚ) ≤ (num : ℚ) / den := by positivity
  have hunits : (0 : ℚ) < unitsPerOne := Nat.cast_pos.2 unitsPerOne_pos
  have hvalue : (ofUnits false num den).toRat =
      gridSteps num den * 2 ^ gridExponent num den / unitsPerOne := by
    have hpoint' : (m * 2 ^ j : ℚ) = gridSteps num den * 2 ^ gridExponent num den := by
      exact_mod_cast hpoint
    rw [heq, toRat_finite_false, hpoint']
  constructor
  · exact hfinite
  · have hnonneg : ¬(num : ℚ) / den / unitsPerOne < 0 := not_lt.2 (div_nonneg hx hunits.le)
    rw [heq]
    exact (decide_eq_false hnonneg).symm
  · intro v hv
    rcases exists_magnitude hv with ⟨n, l, hn, hmagnitude | hopposite⟩
    · rw [hvalue, hmagnitude, abs_div_sub_div_unitsPerOne, abs_div_sub_div_unitsPerOne]
      apply div_le_div_of_nonneg_right _ hunits.le
      exact abs_sub_gridSteps_le_magnitude num hden hn
    · rw [hvalue, hopposite, abs_div_sub_div_unitsPerOne, abs_div_sub_div_unitsPerOne]
      apply div_le_div_of_nonneg_right _ hunits.le
      calc |(num : ℚ) / den - gridSteps num den * 2 ^ gridExponent num den| ≤
            |(num : ℚ) / den - n * 2 ^ l| := abs_sub_gridSteps_le_magnitude num hden hn
        _ ≤ |(num : ℚ) / den - -(n * 2 ^ l)| := abs_sub_le_abs_sub_neg hx (magnitude_nonneg n l)
  · intro v hv htie hne
    rw [heq]
    apply heven
    rw [hvalue] at htie hne
    rcases exists_magnitude hv with ⟨n, l, hn, hmagnitude | hopposite⟩
    · rw [hmagnitude, abs_div_sub_div_unitsPerOne, abs_div_sub_div_unitsPerOne,
        div_left_inj' hunits.ne'] at htie
      rw [hmagnitude] at hne
      have hother : (n * 2 ^ l : ℚ) ≠ gridSteps num den * 2 ^ gridExponent num den := by
        intro hsame
        exact hne (by rw [hsame])
      exact (abs_sub_gridSteps_le_of_canonical num hden hn hother).2 htie
    · rw [hopposite, abs_div_sub_div_unitsPerOne, abs_div_sub_div_unitsPerOne,
        div_left_inj' hunits.ne'] at htie
      by_cases hsame : (n * 2 ^ l : ℚ) = gridSteps num den * 2 ^ gridExponent num den
      · -- Then the other number is zero too, and so it is no other number.
        rw [hsame] at htie
        rw [hopposite, hsame, gridPoint_eq_zero hden htie, neg_zero] at hne
        exact absurd rfl hne
      · have hfar := (abs_sub_le_abs_sub_neg hx (magnitude_nonneg n l)).trans htie.le
        have hequal := le_antisymm hfar (abs_sub_gridSteps_le_magnitude num hden hn)
        exact (abs_sub_gridSteps_le_of_canonical num hden hn hsame).2 hequal

/-! ## Rounding of quotients -/

theorem pack_true (m k : Nat) : pack true m k = (pack false m k).neg := by
  unfold pack
  split <;> rfl

/-- The sign has no part in rounding. -/
theorem ofUnits_true (num den : Nat) : ofUnits true num den = (ofUnits false num den).neg := by
  unfold ofUnits
  dsimp only
  split
  · exact pack_true _ _
  · exact pack_true _ _

theorem quotient?_eq_some_iff {a b : Int} {w : Binary64} :
    quotient? a b = some w ↔
      ofUnits (decide (a < 0)) (a.natAbs * unitsPerOne) b.natAbs = w ∧ w.isFinite = true := by
  unfold quotient?
  dsimp only
  split
  · rename_i hfinite
    constructor
    · intro h
      rw [Option.some.injEq] at h
      exact ⟨h, h ▸ hfinite⟩
    · rintro ⟨h, -⟩
      rw [h]
  · rename_i hfinite
    constructor
    · intro h
      cases h
    · rintro ⟨h, hw⟩
      exact absurd (h ▸ hw) hfinite

/-- A quotient of whole numbers is rounded correctly unless it is too large. -/
theorem isNearest_of_quotient? {a b : Int} (hb : 0 < b) {w : Binary64}
    (h : quotient? a b = some w) : IsNearest ((a : ℚ) / b) w := by
  rcases quotient?_eq_some_iff.1 h with ⟨hround, hfinite⟩
  have hden : 0 < b.natAbs := by omega
  have hunits : (unitsPerOne : ℚ) ≠ 0 := Nat.cast_ne_zero.2 unitsPerOne_pos.ne'
  have hb' : ((b.natAbs : Nat) : ℚ) = b := by
    rw [Nat.cast_natAbs, abs_of_pos hb]
  have hmagnitude : ((a.natAbs * unitsPerOne : Nat) : ℚ) / (b.natAbs : Nat) / unitsPerOne =
      (a.natAbs : Nat) / (b : ℚ) := by
    rw [hb', Nat.cast_mul, div_right_comm, mul_div_cancel_right₀ _ hunits]
  by_cases ha : a < 0
  · have ha' : ((a.natAbs : Nat) : ℚ) = -a := by
      rw [Nat.cast_natAbs, abs_of_neg ha, Int.cast_neg]
    have hne : ((a.natAbs : Nat) : ℚ) / b ≠ 0 := by
      have hpos : ((a.natAbs : Nat) : ℚ) ≠ 0 := Nat.cast_ne_zero.2 (by omega)
      have hpos' : (b : ℚ) ≠ 0 := Int.cast_ne_zero.2 hb.ne'
      exact div_ne_zero hpos hpos'
    rw [decide_eq_true ha, ofUnits_true] at hround
    rw [← hround, isFinite_neg] at hfinite
    have hnearest := isNearest_ofUnits hden hfinite
    rw [hmagnitude] at hnearest
    have hneg := hnearest.neg hne
    rw [ha', neg_div, neg_neg, hround] at hneg
    exact hneg
  · have ha' : ((a.natAbs : Nat) : ℚ) = a := by
      rw [Nat.cast_natAbs, abs_of_nonneg (by omega)]
    rw [decide_eq_false ha] at hround
    rw [← hround] at hfinite
    have hnearest := isNearest_ofUnits hden hfinite
    rw [hmagnitude, ha', hround] at hnearest
    exact hnearest

end Binary64
end TreebankGrammar
