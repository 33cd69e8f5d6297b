import Mathlib

/-!
# Binomial distributions

The probability that a binomial variable takes a value (`mass`) and that it stays below one
(`below`), by powers and binomial coefficients. One trial more either fails or succeeds
(`below_trial`), so few successes are the less likely the higher the rate is (`below_anti`).
-/

namespace SureCode.Binomial

open Finset

/-- The probability of so many successes out of `n` trials. -/
noncomputable def mass (n : ℕ) (rate : ℝ) (successes : ℕ) : ℝ :=
  n.choose successes * rate ^ successes * (1 - rate) ^ (n - successes)

/-- The probability of fewer than `bound` successes out of `n` trials. -/
noncomputable def below (n : ℕ) (rate : ℝ) (bound : ℕ) : ℝ := ∑ i ∈ range bound, mass n rate i

variable {n k : ℕ} {rate rate' : ℝ}

@[simp] theorem below_zero (n : ℕ) (rate : ℝ) : below n rate 0 = 0 := rfl

theorem below_succ (n : ℕ) (rate : ℝ) (bound : ℕ) :
    below n rate (bound + 1) = below n rate bound + mass n rate bound := sum_range_succ _ _

theorem mass_nonneg (low : 0 ≤ rate) (high : rate ≤ 1) (successes : ℕ) :
    0 ≤ mass n rate successes := by
  have : 0 ≤ 1 - rate := sub_nonneg.2 high
  unfold mass
  positivity

theorem mass_pos (low : 0 < rate) (high : rate < 1) (le : k ≤ n) : 0 < mass n rate k := by
  have : 0 < 1 - rate := sub_pos.2 high
  have := Nat.choose_pos le
  unfold mass
  positivity

theorem below_mono (low : 0 ≤ rate) (high : rate ≤ 1) : Monotone (below n rate) :=
  monotone_nat_of_le_succ fun bound => by
    rw [below_succ]
    exact le_add_of_nonneg_right (mass_nonneg low high bound)

/-- There are no more successes than trials. -/
theorem below_all (n : ℕ) (rate : ℝ) : below n rate (n + 1) = 1 := by
  have whole := add_pow rate (1 - rate) n
  rw [add_sub_cancel, one_pow] at whole
  rw [whole, below]
  refine sum_congr rfl fun i _ => ?_
  rw [mass]
  ring

/-! ### One trial more -/

theorem mass_trial_zero (n : ℕ) (rate : ℝ) : mass (n + 1) rate 0 = (1 - rate) * mass n rate 0 := by
  simp [mass, pow_succ, mul_comm]

/-- The last trial fails, or it succeeds after one success less. -/
theorem mass_trial (n : ℕ) (rate : ℝ) (successes : ℕ) :
    mass (n + 1) rate (successes + 1)
      = (1 - rate) * mass n rate (successes + 1) + rate * mass n rate successes := by
  unfold mass
  rw [Nat.choose_succ_succ, Nat.add_sub_add_right, Nat.cast_add]
  rcases lt_or_ge successes n with lt | ge
  · have failures : n - successes = n - (successes + 1) + 1 := by omega
    rw [failures]
    ring
  · rw [Nat.choose_eq_zero_of_lt (by omega : n < successes + 1), Nat.cast_zero]
    ring

theorem below_trial (n : ℕ) (rate : ℝ) (bound : ℕ) :
    below (n + 1) rate (bound + 1)
      = (1 - rate) * below n rate (bound + 1) + rate * below n rate bound := by
  rw [below, below, below, sum_range_succ', sum_range_succ' (mass n rate), mass_trial_zero, mul_add,
    mul_sum, mul_sum, ← add_right_comm, ← sum_add_distrib]
  simp only [mass_trial]

/-- The higher the rate is, the less likely are few successes. -/
theorem below_anti (low : 0 ≤ rate) (le : rate ≤ rate') (high : rate' ≤ 1) (bound : ℕ) :
    below n rate' bound ≤ below n rate bound := by
  induction n generalizing bound with
  | zero =>
    have certain (rate : ℝ) (bound : ℕ) : below 0 rate (bound + 1) = 1 := by
      simp [below, sum_range_succ', mass]
    cases bound with
    | zero => exact le_rfl
    | succ bound => rw [certain, certain]
  | succ n ih =>
    cases bound with
    | zero => exact le_rfl
    | succ bound =>
      have more := below_mono (n := n) (low.trans le) high bound.le_succ
      have fails : 0 ≤ 1 - rate := by linarith
      rw [below_trial, below_trial]
      calc (1 - rate') * below n rate' (bound + 1) + rate' * below n rate' bound
          ≤ (1 - rate) * below n rate' (bound + 1) + rate * below n rate' bound := by nlinarith
        _ ≤ (1 - rate) * below n rate (bound + 1) + rate * below n rate bound :=
          add_le_add (mul_le_mul_of_nonneg_left (ih _) fails) (mul_le_mul_of_nonneg_left (ih _) low)

/-! ### Ratios of probabilities -/

/-- One success more is likelier by the odds, and there are more or fewer ways to it. -/
theorem log_mass_succ (low : 0 < rate) (high : rate < 1) (lt : k < n) :
    Real.log (mass n rate (k + 1))
      = Real.log (mass n rate k) + Real.log ((n - k : ℕ) : ℝ) - Real.log ((k + 1 : ℕ) : ℝ)
        + (Real.log rate - Real.log (1 - rate)) := by
  have fails : 1 - rate ≠ 0 := (sub_pos.2 high).ne'
  have ways : ((n - k : ℕ) : ℝ) ≠ 0 := Nat.cast_ne_zero.2 (by omega)
  have places : ((k + 1 : ℕ) : ℝ) ≠ 0 := Nat.cast_ne_zero.2 (by omega)
  have ratio : mass n rate (k + 1) * ((k + 1 : ℕ) : ℝ) * (1 - rate)
      = mass n rate k * ((n - k : ℕ) : ℝ) * rate := by
    have choices : (n.choose (k + 1) : ℝ) * ((k + 1 : ℕ) : ℝ) = n.choose k * ((n - k : ℕ) : ℝ) := by
      exact_mod_cast n.choose_succ_right_eq k
    have failures : n - k = n - (k + 1) + 1 := by omega
    calc mass n rate (k + 1) * ((k + 1 : ℕ) : ℝ) * (1 - rate)
        = n.choose (k + 1) * ((k + 1 : ℕ) : ℝ) * rate ^ (k + 1) * (1 - rate) ^ (n - (k + 1) + 1) := by
          rw [mass]
          ring
      _ = n.choose k * ((n - k : ℕ) : ℝ) * rate ^ (k + 1) * (1 - rate) ^ (n - k) := by
          rw [choices, ← failures]
      _ = mass n rate k * ((n - k : ℕ) : ℝ) * rate := by
          rw [mass]
          ring
  have here := (mass_pos low high lt.le).ne'
  have next := (mass_pos low high (Nat.succ_le_of_lt lt)).ne'
  have logs := congrArg Real.log ratio
  rw [Real.log_mul (mul_ne_zero next places) fails, Real.log_mul next places,
    Real.log_mul (mul_ne_zero here ways) low.ne', Real.log_mul here ways] at logs
  linarith

theorem log_mass_zero (n : ℕ) (rate : ℝ) :
    Real.log (mass n rate 0) = n * Real.log (1 - rate) := by
  rw [mass, Nat.choose_zero_right, Nat.cast_one, pow_zero, mul_one, one_mul, Nat.sub_zero,
    Real.log_pow]

/-! ### The distribution -/

open unitInterval in
/-- The probability that a binomial variable is at most `k`. -/
theorem real_binomial_Iic (n : ℕ) (rate : I) (k : ℕ) :
    (ProbabilityTheory.binomial n rate).real (Set.Iic k) = below n rate (k + 1) := by
  have values : Set.Iic k = ↑(range (k + 1)) := by
    ext i
    simp
  rw [values, ← MeasureTheory.sum_measureReal_singleton, below]
  refine sum_congr rfl fun i _ => ?_
  rw [ProbabilityTheory.binomial_real_singleton, mass]

end SureCode.Binomial
