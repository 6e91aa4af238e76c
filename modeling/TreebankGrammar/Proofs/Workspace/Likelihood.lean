import Mathlib.Algebra.Order.BigOperators.GroupWithZero.List
import Mathlib.Analysis.Complex.Exponential
import Mathlib.Data.Rat.BigOperators
import Mathlib.Tactic.FieldSimp
import Mathlib.Tactic.GCongr
import TreebankGrammar.Proofs.Grammar.Tallies
import TreebankGrammar.Proofs.Workspace.Runs

/-!
# Maximum likelihood

The exact quotients behind the weights of an estimated grammar are the relative frequencies of its
rules.  Among all weightings of the rules, which give each nonterminal at most one, they alone give the
trees that have been counted their greatest probability.

The proof compares each factor of the two products on its own: if a rule was seen `n` times and its
nonterminal `N` times, then `q ^ n` is at most `(n / N) ^ n` times the exponential of `N * q - n`, and
the exponents add up to at most zero.

Main definitions:

- `Grammar.frequency`: the relative frequency of a production.
- `Grammar.IsWeighting`: an assignment of weights that give each nonterminal at most one.
- `Grammar.likelihood`: the probability of what a grammar has counted.

Main results:

- Theorem `Consistent.isWeighting_frequency`: the relative frequencies are a weighting.
- Theorem `Consistent.likelihood_le`: no weighting gives a greater likelihood.
- Theorem `Consistent.eq_frequency`: no other weighting gives the same likelihood.
- Theorem `Workspace.Reachable.maximum_likelihood`: the weights of grammars after every run.
-/

namespace TreebankGrammar

/-! ## Powers and products -/

section Powers

variable {n : ℕ} {N q : ℝ}

/-- The power of a weight compared with that of the relative frequency. -/
theorem pow_eq_mul_pow (hn : 0 < n) (hN : 0 < N) (q : ℝ) :
    q ^ n = (n / N) ^ n * (N * q / n) ^ n := by
  have hn' : (n : ℝ) ≠ 0 := Nat.cast_ne_zero.2 hn.ne'
  rw [← mul_pow]
  congr 1
  field_simp

/-- The exponential that bounds the comparison, as a power. -/
theorem exp_sub_eq_pow (hn : 0 < n) (N q : ℝ) :
    Real.exp (N * q - n) = Real.exp (N * q / n - 1) ^ n := by
  have hn' : (n : ℝ) ≠ 0 := Nat.cast_ne_zero.2 hn.ne'
  rw [← Real.exp_nat_mul]
  congr 1
  field_simp

/-- The power of a weight is at most that of the relative frequency times an exponential. -/
theorem pow_le_mul_exp (hn : 0 < n) (hN : 0 < N) (hq : 0 ≤ q) :
    q ^ n ≤ (n / N) ^ n * Real.exp (N * q - n) := by
  have hle : N * q / n ≤ Real.exp (N * q / n - 1) := by
    have h := Real.add_one_le_exp (N * q / n - 1)
    rwa [sub_add_cancel] at h
  rw [pow_eq_mul_pow hn hN, exp_sub_eq_pow hn]
  gcongr

/-- Only the relative frequency itself attains this bound. -/
theorem eq_div_of_pow_eq (hn : 0 < n) (hN : 0 < N) (hq : 0 ≤ q)
    (heq : q ^ n = (n / N) ^ n * Real.exp (N * q - n)) : q = n / N := by
  by_contra hne
  have hn' : (n : ℝ) ≠ 0 := Nat.cast_ne_zero.2 hn.ne'
  have hne' : N * q / n - 1 ≠ 0 := by
    intro hzero
    apply hne
    field_simp at hzero ⊢
    linarith
  have hlt : N * q / n < Real.exp (N * q / n - 1) := by
    have h := Real.add_one_lt_exp hne'
    rwa [sub_add_cancel] at h
  have hpow : (N * q / n) ^ n < Real.exp (N * q / n - 1) ^ n :=
    pow_lt_pow_left₀ hlt (by positivity) hn.ne'
  have hpos : 0 < ((n : ℝ) / N) ^ n := by positivity
  rw [pow_eq_mul_pow hn hN, exp_sub_eq_pow hn] at heq
  exact (mul_lt_mul_of_pos_left hpow hpos).ne heq

/-- When no factor exceeds the corresponding one of an equal product, the factors are the same. -/
theorem eq_of_prod_map_eq {ι : Type} {xs : List ι} {f g : ι → ℝ} (hf : ∀ i ∈ xs, 0 ≤ f i)
    (hg : ∀ i ∈ xs, 0 < g i) (hle : ∀ i ∈ xs, f i ≤ g i)
    (heq : (xs.map f).prod = (xs.map g).prod) : ∀ i ∈ xs, f i = g i := by
  induction xs with
  | nil => simp
  | cons i xs ih =>
    rw [List.forall_mem_cons] at hf hg hle
    rw [List.map_cons, List.prod_cons, List.map_cons, List.prod_cons] at heq
    have hprod : (xs.map f).prod ≤ (xs.map g).prod := List.prod_map_le_prod_map₀ f g hf.2 hle.2
    have hpos : 0 < (xs.map g).prod := List.prod_pos (by simpa using hg.2)
    have hfirst : f i = g i := by
      refine le_antisymm hle.1 ?_
      by_contra hlt
      rw [not_le] at hlt
      have hless : f i * (xs.map f).prod < g i * (xs.map g).prod :=
        calc f i * (xs.map f).prod ≤ f i * (xs.map g).prod :=
              mul_le_mul_of_nonneg_left hprod hf.1
          _ < g i * (xs.map g).prod := mul_lt_mul_of_pos_right hlt hpos
      exact hless.ne heq
    rw [hfirst] at heq
    have hrest := ih hf.2 hg.2 hle.2 (mul_left_cancel₀ hg.1.ne' heq)
    rw [List.forall_mem_cons]
    exact ⟨hfirst, hrest⟩

end Powers

namespace Grammar

/-! ## Weightings -/

/-- The relative frequency of a production among those of its nonterminal. -/
def frequency (g : Grammar) (p : Production) : ℚ :=
  ((g.tally? p).map Tally.count).getD 0 / g.symbolCount p.lhs

/-- An assignment of weights to the rules of a grammar: no weight is negative, and the weights of the
rules of each nonterminal add up to at most one. -/
structure IsWeighting (g : Grammar) (q : Production → ℚ) : Prop where
  nonneg : ∀ entry ∈ g.tallies, 0 ≤ q entry.1
  sum_le_one : ∀ X, ((g.row X).keys.map fun body => q (.ofBody X body)).sum ≤ 1

/-- The probability of what a grammar has counted, given weights of its rules. -/
def likelihood (g : Grammar) (q : Production → ℚ) : ℚ :=
  (g.tallies.map fun entry => q entry.1 ^ entry.2.count).prod

/-- The likelihood as a product of real numbers. -/
theorem cast_likelihood (g : Grammar) (q : Production → ℚ) :
    (g.likelihood q : ℝ) = (g.tallies.map fun entry => (q entry.1 : ℝ) ^ entry.2.count).prod := by
  rw [likelihood, Rat.cast_list_prod, List.map_map]
  congr 2
  funext entry
  simp

/-- The relative frequency of a production that has been counted. -/
theorem frequency_eq {g : Grammar} {p : Production} {tally : Tally}
    (h : (p, tally) ∈ g.tallies) : g.frequency p = (tally.count : ℚ) / g.symbolCount p.lhs := by
  rw [frequency, mem_tallies_iff.1 h]
  rfl

/-- The row of a nonterminal that has one. -/
theorem row_of_get? {g : Grammar} {X : String} {row : Row} (hX : g.rows.get? X = some row) :
    g.row X = row := by
  rw [Grammar.row, Table.getD, hX]
  rfl

/-- A bound for one factor of the likelihood: the factor of the relative frequency times an exponential
that is one for the relative frequency itself. -/
noncomputable def factorBound (g : Grammar) (q : Production → ℚ) (entry : Production × Tally) : ℝ :=
  (g.frequency entry.1 : ℝ) ^ entry.2.count *
    Real.exp (g.symbolCount entry.1.lhs * q entry.1 - entry.2.count)

/-- By how much weights, multiplied by the counts of nonterminals, exceed the counts of rules. -/
def excess (g : Grammar) (q : Production → ℚ) : ℚ :=
  (g.tallies.map fun entry => g.symbolCount entry.1.lhs * q entry.1 - entry.2.count).sum

/-- The excess in one row. -/
theorem sum_row_excess (row : Row) (q : Body → ℚ) (total : ℚ) :
    (row.entries.map fun entry => total * q entry.1 - entry.2.count).sum =
      total * (row.keys.map q).sum - row.total := by
  have hlist : ∀ entries : List (Body × Tally),
      (entries.map fun entry => total * q entry.1 - entry.2.count).sum =
        total * ((entries.map Prod.fst).map q).sum -
          ((((entries.map Prod.snd).map Tally.count).foldr (· + ·) 0 : Int) : ℚ) := by
    intro entries
    induction entries with
    | nil => simp
    | cons entry entries ih =>
      simp only [List.map_cons, List.sum_cons, List.foldr_cons, ih]
      push_cast
      ring
  exact hlist row.entries

namespace Consistent

variable {g : Grammar} {q : Production → ℚ}

/-- A production that has been counted and its nonterminal have positive counts. -/
theorem count_pos (h : g.Consistent) {entry : Production × Tally} (hentry : entry ∈ g.tallies) :
    0 < entry.2.count ∧ 0 < g.symbolCount entry.1.lhs := by
  rcases h.of_mem_tallies hentry with ⟨row, -, hbody, hrow⟩
  exact ⟨hrow.one_le_count _ _ hbody, hrow.total_pos⟩

/-- The relative frequency of a production that has been counted is positive. -/
theorem frequency_pos (h : g.Consistent) {entry : Production × Tally} (hentry : entry ∈ g.tallies) :
    0 < g.frequency entry.1 := by
  rcases h.count_pos hentry with ⟨hcount, htotal⟩
  rw [frequency_eq hentry]
  exact div_pos (Int.cast_pos.2 hcount) (Int.cast_pos.2 htotal)

/-- The weights of a weighting do not exceed the counts altogether. -/
theorem excess_nonpos (h : g.Consistent) (hq : g.IsWeighting q) : g.excess q ≤ 0 := by
  -- In each row the counts add up to the count of the nonterminal, the weights to at most one.
  have hrows : ∀ entry ∈ g.rows.entries,
      ((entry.2.entries.map fun tallied => (Production.ofBody entry.1 tallied.1, tallied.2)).map
        fun tallied => (g.symbolCount tallied.1.lhs : ℚ) * q tallied.1 - tallied.2.count).sum ≤ 0 := by
    rintro ⟨X, row⟩ hentry
    have hX : g.rows.get? X = some row := (g.rows.get?_eq_some_iff X row).2 hentry
    have hrow := h.row X row hX
    have hsum := hq.sum_le_one X
    rw [row_of_get? hX] at hsum
    have hexcess := sum_row_excess row (fun body => q (.ofBody X body)) (g.symbolCount X)
    rw [hrow.total_eq] at hexcess
    have htotal : (0 : ℚ) < g.symbolCount X := Int.cast_pos.2 hrow.total_pos
    rw [List.map_map]
    calc _ = (g.symbolCount X : ℚ) * (row.keys.map fun body => q (.ofBody X body)).sum -
          g.symbolCount X := hexcess
      _ ≤ 0 := by nlinarith
  rw [excess, tallies, List.map_flatMap, List.flatMap_def, List.sum_flatten, List.map_map]
  refine (List.sum_le_card_nsmul _ 0 fun x hx => ?_).trans_eq (nsmul_zero _)
  rcases List.mem_map.1 hx with ⟨entry, hentry, rfl⟩
  exact hrows entry hentry

/-- The relative frequencies are a weighting. -/
theorem isWeighting_frequency (h : g.Consistent) : g.IsWeighting g.frequency where
  nonneg entry hentry := (h.frequency_pos hentry).le
  sum_le_one X := by
    cases hX : g.rows.get? X with
    | none =>
      rw [Grammar.row, Table.getD, hX]
      exact zero_le_one
    | some row =>
      have hquotients := (h.row X row hX).sum_quotients
      have hfrequency : (row.keys.map fun body => g.frequency (.ofBody X body)) =
          row.values.map fun tally => (tally.count : ℚ) / g.symbolCount X := by
        rw [Table.keys, Table.values, List.map_map, List.map_map]
        refine List.map_congr_left fun entry hentry => ?_
        have htally : g.tally? (.ofBody X entry.1) = some entry.2 := by
          rw [tally?, Production.lhs_ofBody, row_of_get? hX]
          exact (row.get?_eq_some_iff entry.1 entry.2).2 hentry
        exact frequency_eq (mem_tallies_iff.2 htally)
      rw [row_of_get? hX, hfrequency, hquotients]

/-! ## The greatest likelihood -/

theorem factorBound_pos (h : g.Consistent) {entry : Production × Tally}
    (hentry : entry ∈ g.tallies) : 0 < g.factorBound q entry :=
  mul_pos (zpow_pos (Rat.cast_pos.2 (h.frequency_pos hentry)) _) (Real.exp_pos _)

/-- A factor of the likelihood is at most its bound. -/
theorem factor_le (h : g.Consistent) (hq : g.IsWeighting q) {entry : Production × Tally}
    (hentry : entry ∈ g.tallies) : (q entry.1 : ℝ) ^ entry.2.count ≤ g.factorBound q entry := by
  rcases h.count_pos hentry with ⟨hcount, htotal⟩
  rcases Int.eq_ofNat_of_zero_le hcount.le with ⟨n, hn⟩
  rw [factorBound, frequency_eq hentry, hn]
  push_cast
  exact pow_le_mul_exp (by omega) (Int.cast_pos.2 htotal)
    (Rat.cast_nonneg.2 (hq.nonneg entry hentry))

/-- Only the relative frequency attains this bound. -/
theorem eq_frequency_of_factor_eq (h : g.Consistent) (hq : g.IsWeighting q)
    {entry : Production × Tally} (hentry : entry ∈ g.tallies)
    (heq : (q entry.1 : ℝ) ^ entry.2.count = g.factorBound q entry) :
    q entry.1 = g.frequency entry.1 := by
  rcases h.count_pos hentry with ⟨hcount, htotal⟩
  rcases Int.eq_ofNat_of_zero_le hcount.le with ⟨n, hn⟩
  rw [factorBound, frequency_eq hentry, hn] at heq
  rw [frequency_eq hentry, hn]
  push_cast at heq ⊢
  have hreal := eq_div_of_pow_eq (by omega) (Int.cast_pos.2 htotal)
    (Rat.cast_nonneg.2 (hq.nonneg entry hentry)) heq
  exact_mod_cast hreal

/-- The bounds of all factors together are at most the likelihood of the relative frequencies. -/
theorem prod_factorBound_le (h : g.Consistent) (hq : g.IsWeighting q) :
    (g.tallies.map (g.factorBound q)).prod ≤ g.likelihood g.frequency := by
  have hexcess : (g.tallies.map fun entry =>
      (g.symbolCount entry.1.lhs * q entry.1 - entry.2.count : ℝ)).sum = (g.excess q : ℝ) := by
    rw [excess, Rat.cast_list_sum, List.map_map]
    congr 2
    funext entry
    simp
  have hexp : Real.exp (g.excess q : ℝ) ≤ 1 := by
    rw [Real.exp_le_one_iff]
    exact_mod_cast h.excess_nonpos hq
  have hnonneg : (0 : ℝ) ≤ g.likelihood g.frequency := by
    rw [cast_likelihood]
    refine List.prod_nonneg fun x hx => ?_
    rcases List.mem_map.1 hx with ⟨entry, hentry, rfl⟩
    exact zpow_nonneg (Rat.cast_nonneg.2 (h.frequency_pos hentry).le) _
  calc (g.tallies.map (g.factorBound q)).prod
      = (g.likelihood g.frequency : ℝ) * Real.exp (g.excess q : ℝ) := by
        unfold factorBound
        rw [List.prod_map_mul, cast_likelihood, ← hexcess, Real.exp_list_sum, List.map_map]
        rfl
    _ ≤ g.likelihood g.frequency := mul_le_of_le_one_right hnonneg hexp

/-- The likelihood of a weighting is at most the product of the bounds. -/
theorem likelihood_le_prod_factorBound (h : g.Consistent) (hq : g.IsWeighting q) :
    (g.likelihood q : ℝ) ≤ (g.tallies.map (g.factorBound q)).prod := by
  rw [cast_likelihood]
  refine List.prod_map_le_prod_map₀ _ _ (fun entry hentry => ?_) fun entry => h.factor_le hq
  exact zpow_nonneg (Rat.cast_nonneg.2 (hq.nonneg entry hentry)) _

/-- No weighting gives a greater likelihood than the relative frequencies. -/
theorem likelihood_le (h : g.Consistent) (hq : g.IsWeighting q) :
    g.likelihood q ≤ g.likelihood g.frequency := by
  have hreal := (h.likelihood_le_prod_factorBound hq).trans (h.prod_factorBound_le hq)
  exact_mod_cast hreal

/-- Only the relative frequencies give the greatest likelihood. -/
theorem eq_frequency (h : g.Consistent) (hq : g.IsWeighting q)
    (heq : g.likelihood q = g.likelihood g.frequency) {entry : Production × Tally}
    (hentry : entry ∈ g.tallies) : q entry.1 = g.frequency entry.1 := by
  -- The product of the bounds lies between two likelihoods that are the same.
  have hprod : (g.tallies.map fun entry => (q entry.1 : ℝ) ^ entry.2.count).prod =
      (g.tallies.map (g.factorBound q)).prod := by
    rw [← cast_likelihood]
    refine le_antisymm (h.likelihood_le_prod_factorBound hq) ?_
    rw [heq]
    exact h.prod_factorBound_le hq
  have hnonneg : ∀ entry ∈ g.tallies, 0 ≤ (q entry.1 : ℝ) ^ entry.2.count := fun entry hentry =>
    zpow_nonneg (Rat.cast_nonneg.2 (hq.nonneg entry hentry)) _
  exact h.eq_frequency_of_factor_eq hq hentry
    (eq_of_prod_map_eq hnonneg (fun _ => h.factorBound_pos) (fun _ => h.factor_le hq) hprod entry
      hentry)

end Consistent
end Grammar

/-! ## Grammars after runs -/

namespace Workspace

/-- In every grammar that a run has estimated, the weights are the correctly rounded relative
frequencies of the rules, and these are the only weighting that gives the greatest likelihood. -/
theorem Reachable.maximum_likelihood {w : Workspace} (h : w.Reachable) {g : Grammar}
    (hg : g ∈ w.grammars) (hnormalised : g.normalised = true) :
    (∀ p tally, (p, tally) ∈ g.tallies →
      g.frequency p = (tally.count : ℚ) / g.symbolCount p.lhs ∧
        Binary64.IsNearest (g.frequency p) tally.weight) ∧
    g.IsWeighting g.frequency ∧
    ∀ q, g.IsWeighting q → g.likelihood q ≤ g.likelihood g.frequency ∧
      (g.likelihood q = g.likelihood g.frequency →
        ∀ p tally, (p, tally) ∈ g.tallies → q p = g.frequency p) := by
  have hconsistent : g.Consistent := h.satisfies Grammar.invariant_consistent g hg
  refine ⟨fun p tally hmem => ?_, hconsistent.isWeighting_frequency, fun q hq => ?_⟩
  · have hfrequency := Grammar.frequency_eq hmem
    rcases hconsistent.of_mem_tallies hmem with ⟨row, -, hbody, hrow⟩
    refine ⟨hfrequency, ?_⟩
    rw [hfrequency]
    exact Binary64.isNearest_of_quotient? hrow.total_pos
      (hrow.quotient?_eq hnormalised p.toBody tally hbody)
  · exact ⟨hconsistent.likelihood_le hq, fun heq p tally hmem => hconsistent.eq_frequency hq heq hmem⟩

/-- A lexical rule and another one that were seen equally often are given different weights. -/
def uneven (p : Production) : ℚ :=
  if p.lexical then 1 / 4 else 3 / 4

/-- Uneven weights give a smaller likelihood than the relative frequencies, which are even. -/
theorem doubled_maximum_likelihood :
    doubled.Reachable ∧ ∃ g ∈ doubled.grammars, g.normalised = true ∧ g.IsWeighting uneven ∧
      g.likelihood uneven = 9 / 256 ∧ g.likelihood g.frequency = 1 / 16 ∧
      g.likelihood uneven ≤ g.likelihood g.frequency := by
  have hreachable : doubled.Reachable := by
    refine (Reachable.start {}).foldl_execute ?_
    decide
  have hmem : doubled.grammarAt 0 ∈ doubled.grammars := by decide +kernel
  have hnormalised : (doubled.grammarAt 0).normalised = true := by decide +kernel
  have huneven : (doubled.grammarAt 0).IsWeighting uneven := by
    constructor
    · decide +kernel
    · intro X
      by_cases hX : X ∈ (doubled.grammarAt 0).rows.keys
      · revert X
        decide +kernel
      · rw [Grammar.row, Table.getD, Table.get?_eq_none hX]
        exact zero_le_one
  rcases hreachable.maximum_likelihood hmem hnormalised with ⟨-, -, hgreatest⟩
  refine ⟨hreachable, _, hmem, hnormalised, huneven, ?_, ?_, (hgreatest uneven huneven).1⟩
  · decide +kernel
  · decide +kernel

end Workspace
end TreebankGrammar
