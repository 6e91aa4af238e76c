import TreebankGrammar.Number.Decimal
import TreebankGrammar.Proofs.Number.Rounding

/-!
# The nearest number of a decimal

The number nearest to a decimal depends on the value of the decimal only, not on how many zeros end
its coefficient.  A decimal that is equal to a number has this number as its nearest one, and so has
the shortest decimal.

Main results:

- Theorem `Binary64.ofUnits_mul_right`: rounding depends on the quotient only.
- Theorem `Decimal.nearest_mul_pow`: zeros at the end of the coefficient may be moved to the exponent.
- Theorem `Decimal.nearest_exact`: the nearest number of an exact decimal.
- Theorem `Decimal.nearest_shortest`: the nearest number of a shortest decimal.
-/

namespace TreebankGrammar
namespace Binary64

/-! ## Rounding -/

/-- Rounding to a whole number depends on the quotient only. -/
theorem roundHalfEven_mul_right (n d : Nat) {c : Nat} (hc : 0 < c) :
    roundHalfEven (n * c) (d * c) = roundHalfEven n d := by
  have hlt : ∀ a b : Nat, a * c < b * c ↔ a < b := fun a b => Nat.mul_lt_mul_right hc
  unfold roundHalfEven
  dsimp only
  rw [Nat.mul_div_mul_right _ _ hc, Nat.mul_mod_mul_right, ← Nat.mul_assoc]
  simp only [hlt]

/-- Rounding to a number of the format depends on the quotient only. -/
theorem ofUnits_mul_right (negative : Bool) (num den : Nat) {c : Nat} (hc : 0 < c) :
    ofUnits negative (num * c) (den * c) = ofUnits negative num den := by
  have hgrid : gridExponent (num * c) (den * c) = gridExponent num den := by
    rw [gridExponent, gridExponent, Nat.mul_div_mul_right _ _ hc]
  unfold ofUnits
  dsimp only
  rw [hgrid, Nat.mul_right_comm den c, roundHalfEven_mul_right _ _ hc]

/-- The grid of a canonical magnitude is its own. -/
theorem gridExponent_of_canonical {m k : Nat} (h : Canonical m k) :
    gridExponent (m * 2 ^ k) 1 = k := by
  rcases h with ⟨hlt, -, hk⟩
  rw [gridExponent, Nat.div_one]
  have hupper : m * 2 ^ k < 2 ^ (53 + k) := by
    rw [Nat.pow_add]
    exact Nat.mul_lt_mul_of_pos_right hlt (Nat.two_pow_pos k)
  rcases hk with rfl | hge
  · by_cases hm : m = 0
    · simp [hm]
    · have hlog : (m * 2 ^ 0).log2 < 53 + 0 := (Nat.log2_lt (by simpa using hm)).2 hupper
      omega
  · have hlower : 2 ^ (52 + k) ≤ m * 2 ^ k := by
      rw [Nat.pow_add]
      exact Nat.mul_le_mul_right _ hge
    have hne : m * 2 ^ k ≠ 0 := Nat.ne_of_gt (Nat.lt_of_lt_of_le (Nat.two_pow_pos _) hlower)
    have hlog : (m * 2 ^ k).log2 < 53 + k := (Nat.log2_lt hne).2 hupper
    have hlog' : 52 + k ≤ (m * 2 ^ k).log2 := (Nat.le_log2 hne).2 hlower
    omega

/-- A magnitude of the format is rounded to itself. -/
theorem ofUnits_of_canonical (negative : Bool) {m k : Nat} (h : Canonical m k) :
    ofUnits negative (m * 2 ^ k) 1 = .finite negative m k h := by
  have hround : roundHalfEven (m * 2 ^ k) (1 * 2 ^ k) = m := by
    rw [roundHalfEven_mul_right m 1 (Nat.two_pow_pos k)]
    simp [roundHalfEven, Nat.mod_one]
  have hlt : m ≠ 2 ^ 53 := Nat.ne_of_lt h.1
  unfold ofUnits
  rw [gridExponent_of_canonical h]
  simp only [Nat.pow_eq, hround, hlt, if_false]
  exact pack_of_canonical negative h

end Binary64

namespace Decimal

/-! ## Numbers of digits -/

theorem lt_pow_digitCount (n : Nat) : n < 10 ^ digitCount n :=
  (Nat.length_toDigits_le_iff (by decide) Nat.length_toDigits_pos).1 (Nat.le_refl _)

theorem digitCount_le {n k : Nat} (hk : 0 < k) (h : n < 10 ^ k) : digitCount n ≤ k :=
  (Nat.length_toDigits_le_iff (by decide) hk).2 h

theorem mul_two_pow_lt {m i t b : Nat} (hm : m < 2 ^ 53) (hi : i ≤ t) (hb : 2 ^ 53 * 2 ^ t < b) :
    m * 2 ^ i < b :=
  calc m * 2 ^ i < 2 ^ 53 * 2 ^ i := Nat.mul_lt_mul_of_pos_right hm (Nat.two_pow_pos i)
    _ ≤ 2 ^ 53 * 2 ^ t := Nat.mul_le_mul_left _ (Nat.pow_le_pow_right (by decide) hi)
    _ < b := hb

/-- The largest number of the format has at most 310 digits. -/
theorem two_pow_1024_lt : 2 ^ 53 * 2 ^ 971 < 10 ^ 310 := by
  decide +kernel

/-- There are less than 331 digits in the number of units in one. -/
theorem two_pow_1074_lt : 2 ^ 1074 < 10 ^ 331 := by
  decide +kernel

/-- Each factor of ten is one more digit, a zero. -/
theorem toDigits_mul_pow {n : Nat} (hn : n ≠ 0) (j : Nat) :
    Nat.toDigits 10 (n * 10 ^ j) = Nat.toDigits 10 n ++ List.replicate j '0' := by
  induction j with
  | zero => simp
  | succ j ih =>
    have hpos : 0 < n * 10 ^ j := by positivity
    have hten : n * 10 ^ (j + 1) = 10 * (n * 10 ^ j) + 0 := by ring
    rw [hten, ← Nat.toDigits_append_toDigits (by decide) hpos (by decide), ih,
      List.replicate_succ', List.append_assoc]
    rfl

theorem digitCount_mul_pow {n : Nat} (hn : n ≠ 0) (j : Nat) :
    digitCount (n * 10 ^ j) = digitCount n + j := by
  rw [digitCount, toDigits_mul_pow hn, List.length_append, List.length_replicate, digitCount]

/-! ## The nearest number -/

/-- Within the bounds on the first digit a decimal is rounded as a quotient of units. -/
theorem nearest_eq_ofUnits (negative : Bool) {c : Nat} {e : Int} (hc : c ≠ 0)
    (hlow : underflowPoint ≤ digitCount c + e) (hhigh : digitCount c + e ≤ overflowPoint) :
    nearest negative ⟨c, e⟩ =
      Binary64.ofUnits negative (c * 10 ^ e.toNat * Binary64.unitsPerOne) (10 ^ (-e).toNat) := by
  have hnot : ¬(c = 0 ∨ digitCount c + e < underflowPoint) := by omega
  rw [nearest]
  simp only [Bool.or_eq_true, decide_eq_true_eq, hnot, if_false, not_lt.2 hhigh, Nat.pow_eq]
  split
  · rename_i he
    have hzero : (-e).toNat = 0 := by omega
    rw [hzero, Nat.pow_zero]
  · rename_i he
    have hzero : e.toNat = 0 := by omega
    rw [hzero, Nat.pow_zero, Nat.mul_one]

/-- Zeros at the end of the coefficient may be moved to the exponent. -/
theorem nearest_mul_pow (negative : Bool) {c : Nat} (hc : c ≠ 0) (j : Nat) (e : Int) :
    nearest negative ⟨c * 10 ^ j, e⟩ = nearest negative ⟨c, j + e⟩ := by
  have hne : c * 10 ^ j ≠ 0 := by positivity
  have hcount : ((digitCount (c * 10 ^ j) : Nat) : Int) + e = digitCount c + (j + e) := by
    rw [digitCount_mul_pow hc]
    push_cast
    ring
  by_cases hlow : digitCount c + (j + e) < underflowPoint
  · simp [nearest, hcount, hlow]
  · by_cases hhigh : overflowPoint < digitCount c + (j + e)
    · simp [nearest, hcount, hlow, hhigh, hc]
    · rw [nearest_eq_ofUnits negative hne (by omega) (by omega),
        nearest_eq_ofUnits negative hc (by omega) (by omega)]
      -- The two quotients differ by a power of ten that both terms have as a factor.
      obtain ⟨t, hnum, hden⟩ : ∃ t : Nat, j + e.toNat = (j + e).toNat + t ∧
          (-e).toNat = (-(j + e)).toNat + t := ⟨j + e.toNat - (j + e).toNat, by omega, by omega⟩
      have hnum' : c * 10 ^ j * 10 ^ e.toNat * Binary64.unitsPerOne =
          c * 10 ^ (j + e : Int).toNat * Binary64.unitsPerOne * 10 ^ t := by
        rw [Nat.mul_assoc c, ← Nat.pow_add, hnum, Nat.pow_add]
        ring
      rw [hnum', hden, Nat.pow_add, Binary64.ofUnits_mul_right _ _ _ (Nat.pow_pos (by decide))]

/-- The sign has no part in finding the nearest number. -/
theorem nearest_true (d : Decimal) : d.nearest true = (d.nearest false).neg := by
  unfold nearest
  dsimp only
  split
  · exact Binary64.pack_true 0 0
  · split
    · rfl
    · split
      · exact Binary64.ofUnits_true _ _
      · exact Binary64.ofUnits_true _ _

/-! ## The exact decimal -/

/-- A multiple of a power of five has nearly as many digits as the exponent says. -/
theorem lt_digitCount_add {m j t b : Nat} (hm : m ≠ 0) (hj : j ≤ t) (hb : 2 ^ t < 10 ^ b) :
    j < digitCount (m * 5 ^ j) + b := by
  have hle : 5 ^ j ≤ m * 5 ^ j := Nat.le_mul_of_pos_left _ (Nat.pos_of_ne_zero hm)
  have hpow : 10 ^ j < 10 ^ (digitCount (m * 5 ^ j) + b) := by
    calc 10 ^ j = 5 ^ j * 2 ^ j := by rw [← Nat.mul_pow]
      _ ≤ m * 5 ^ j * 2 ^ t :=
          Nat.mul_le_mul hle (Nat.pow_le_pow_right (by decide) hj)
      _ < 10 ^ digitCount (m * 5 ^ j) * 10 ^ b :=
          Nat.mul_lt_mul'' (lt_pow_digitCount _) hb
      _ = 10 ^ (digitCount (m * 5 ^ j) + b) := (Nat.pow_add ..).symm
  exact (Nat.pow_lt_pow_iff_right (by decide)).1 hpow

/-- A number without fraction is rounded to the units that it has. -/
theorem nearest_whole {m k : Nat} (hlt : m < 2 ^ 53) (hk : k ≤ 2045) (hm : m ≠ 0)
    (hlarge : 1074 ≤ k) :
    nearest false ⟨m * 2 ^ (k - 1074), 0⟩ = Binary64.ofUnits false (m * 2 ^ k) 1 := by
  have hne : m * 2 ^ (k - 1074) ≠ 0 := by positivity
  have hi : k - 1074 ≤ 971 := by omega
  have hcount := digitCount_le (by decide) (mul_two_pow_lt hlt hi two_pow_1024_lt)
  rw [nearest_eq_ofUnits false hne (by unfold underflowPoint; omega)
    (by unfold overflowPoint; omega)]
  have hunits : m * 2 ^ (k - 1074) * 10 ^ (0 : Int).toNat * Binary64.unitsPerOne = m * 2 ^ k := by
    unfold Binary64.unitsPerOne
    generalize 1074 = u at hlarge ⊢
    rw [Int.toNat_zero, Nat.pow_zero, Nat.mul_one]
    rw [Nat.pow_eq, Nat.mul_assoc, ← Nat.pow_add, Nat.sub_add_cancel hlarge]
  rw [hunits]
  rfl

/-- A number that may have a fraction is rounded to the units that it has. -/
theorem nearest_fraction {m k j : Nat} (hlt : m < 2 ^ 53) (hm : m ≠ 0) (hj : k + j = 1074) :
    nearest false ⟨m * 5 ^ j, -(j : Int)⟩ = Binary64.ofUnits false (m * 2 ^ k) 1 := by
  have hne : m * 5 ^ j ≠ 0 := by positivity
  have hlow := lt_digitCount_add hm (by omega : j ≤ 1074) two_pow_1074_lt
  have hhigh : digitCount (m * 5 ^ j) ≤ 16 + j := by
    refine digitCount_le (by omega) ?_
    calc m * 5 ^ j < 2 ^ 53 * 5 ^ j := Nat.mul_lt_mul_of_pos_right hlt (by positivity)
      _ ≤ 10 ^ 16 * 10 ^ j :=
          Nat.mul_le_mul (by norm_num) (Nat.pow_le_pow_left (by decide) j)
      _ = 10 ^ (16 + j) := (Nat.pow_add 10 16 j).symm
  rw [nearest_eq_ofUnits false hne (by unfold underflowPoint; omega)
    (by unfold overflowPoint; omega)]
  have hunits : m * 5 ^ j * 10 ^ (-(j : Int)).toNat * Binary64.unitsPerOne =
      m * 2 ^ k * 10 ^ j := by
    have hzero : (-(j : Int)).toNat = 0 := by omega
    have hten : 10 ^ j = 5 ^ j * 2 ^ j := by rw [← Nat.mul_pow]
    unfold Binary64.unitsPerOne
    rw [hzero, Nat.pow_zero, Nat.mul_one, ← hj, Nat.pow_eq, Nat.pow_add, hten]
    ring
  have hden : 10 ^ (-(-(j : Int))).toNat = 1 * 10 ^ j := by
    rw [neg_neg, Int.toNat_natCast, Nat.one_mul]
  rw [hunits, hden, Binary64.ofUnits_mul_right _ _ _ (by positivity)]

/-- The nearest number of a decimal that is equal to a number is this number. -/
theorem nearest_exact {m k : Nat} (h : Binary64.Canonical m k) (hm : m ≠ 0) :
    (exact m k).nearest false = .finite false m k h := by
  rw [← Binary64.ofUnits_of_canonical false h]
  rcases h with ⟨hlt, hk, -⟩
  unfold exact
  split
  · rename_i hlarge
    exact nearest_whole hlt hk hm hlarge
  · rename_i hsmall
    exact nearest_fraction hlt hm (by omega)

/-! ## The shortest decimal -/

/-- A decimal without its last digits is chosen only if it determines the magnitude. -/
theorem determines_of_shortened? {m k : Nat} {d d' : Decimal} {cut : Nat}
    (h : shortened? m k d cut = some d') : determines m k d' = true := by
  unfold shortened? at h
  dsimp only at h
  split at h
  · rename_i hbelow habove
    rw [Option.some.injEq] at h
    rw [← h]
    split
    · exact hbelow
    · exact habove
  · rename_i hbelow _
    rw [Option.some.injEq] at h
    rw [← h]
    exact hbelow
  · rename_i _ habove
    rw [Option.some.injEq] at h
    rw [← h]
    exact habove
  · cases h

/-- The nearest number of a shortest decimal is the number that it is the shortest decimal of. -/
theorem nearest_shortest {m k : Nat} (h : Binary64.Canonical m k) (hm : m ≠ 0) :
    (shortest m k).nearest false = .finite false m k h := by
  unfold shortest
  dsimp only
  generalize hfind : List.findSome? _ (List.range maxDigits) = found
  cases found with
  | none => exact nearest_exact h hm
  | some d =>
    rcases List.exists_of_findSome?_eq_some hfind with ⟨i, -, hi⟩
    split at hi
    · cases hi
    · have hdetermines := determines_of_shortened? hi
      rw [determines, decide_eq_true_iff] at hdetermines
      rw [Option.getD_some, hdetermines, Binary64.pack_of_canonical false h]

/-- The coefficient of a shortest decimal is not zero. -/
theorem coefficient_shortest_ne_zero {m k : Nat} (h : Binary64.Canonical m k) (hm : m ≠ 0) :
    (shortest m k).coefficient ≠ 0 := by
  intro hzero
  have hnearest := nearest_shortest h hm
  rw [nearest, hzero] at hnearest
  simp [Binary64.pack_of_canonical false (by decide : Binary64.Canonical 0 0)] at hnearest
  exact hm hnearest.1.symm

end Decimal
end TreebankGrammar
