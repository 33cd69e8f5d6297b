import Mathlib
import SureCode.Calibration.Tail
import SureCode.Proofs.Calibration.Binomial
import SureCode.Proofs.Reals

/-!
# Bounds of binomial tails

Over the reals the terms that `Tail.boundFrom` follows are the logarithms of the probabilities of a
binomial variable (`logTerm_succ`), so it stops at the first number of successes that the variable
stays at or below more often than the confidence allows (`exists_crossing`). There is one, since the
variable never exceeds the number of samples. The bound is the number before it
(`bound_eq_ok_iff`), and it does not fall when the rate rises (`exists_bound_of_le`).
-/

namespace SureCode.Tail

open Binomial Set

variable {samples k successes terms : ℕ} {rate rate' confidence last : ℝ}

theorem logTerm_zero (samples : ℕ) (rate last : ℝ) :
    logTerm samples rate last 0 = Real.log (mass samples rate 0) := by
  rw [log_mass_zero, logTerm, Scalar.one_real, LogScalar.log_real]

theorem logTerm_succ (proper : rate ∈ Ioo 0 1) (lt : k < samples) :
    logTerm samples rate (Real.log (mass samples rate k)) (k + 1)
      = Real.log (mass samples rate (k + 1)) := by
  rw [log_mass_succ proper.1 proper.2 lt, logTerm, logOdds, Scalar.one_real]
  rfl

/-- The answer when the confidence is first passed at some number of successes. -/
noncomputable def answer (samples : ℕ) (rate confidence : ℝ) : ℕ → Except (TailError ℝ) ℕ
  | 0 => .error (.tooFewSamples samples rate confidence)
  | before + 1 => .ok before

theorem boundFrom_succ (sum : ℝ) :
    boundFrom samples rate confidence (terms + 1) successes last sum
      = if confidence < sum + Real.exp (logTerm samples rate last successes) then
          answer samples rate confidence successes
        else boundFrom samples rate confidence terms (successes + 1)
          (logTerm samples rate last successes)
          (sum + Real.exp (logTerm samples rate last successes)) := by
  cases successes <;> rfl

/-- The confidence is first passed at a number of successes. -/
structure Crosses (samples : ℕ) (rate confidence : ℝ) (successes : ℕ) : Prop where
  within : below samples rate successes ≤ confidence
  passes : confidence < below samples rate (successes + 1)

/-- From a number of successes on, of which those before are within the confidence, adding up terms
passes the confidence somewhere. -/
theorem exists_crossing (proper : rate ∈ Ioo 0 1) (small : confidence < 1)
    (left : terms + successes = samples + 1)
    (follows : ∀ before, successes = before + 1 → last = Real.log (mass samples rate before))
    (within : below samples rate successes ≤ confidence) :
    ∃ crossing, Crosses samples rate confidence crossing ∧
      boundFrom samples rate confidence terms successes last (below samples rate successes)
        = answer samples rate confidence crossing := by
  induction terms generalizing successes last with
  | zero =>
    -- All terms together are one, so the confidence has been passed before.
    obtain rfl : successes = samples + 1 := by omega
    rw [below_all] at within
    exact absurd small (not_lt.2 within)
  | succ terms ih =>
    have le : successes ≤ samples := by omega
    have term : logTerm samples rate last successes = Real.log (mass samples rate successes) := by
      cases successes with
      | zero => exact logTerm_zero samples rate last
      | succ before =>
        rw [follows before rfl]
        exact logTerm_succ proper le
    have sum : below samples rate successes + Real.exp (Real.log (mass samples rate successes))
        = below samples rate (successes + 1) := by
      rw [Real.exp_log (mass_pos proper.1 proper.2 le), below_succ]
    rw [boundFrom_succ, term, sum]
    split
    · rename_i passes
      exact ⟨successes, ⟨within, passes⟩, rfl⟩
    · rename_i within'
      refine ih (by omega) (fun before eq => ?_) (not_lt.1 within')
      rw [Nat.succ_injective eq]

theorem isProbability_of_mem (proper : rate ∈ Ioo 0 1) : isProbability rate = true := by
  rw [isProbability, Scalar.zero_real, Scalar.one_real, Bool.and_eq_true, decide_eq_true_iff,
    decide_eq_true_iff]
  exact proper

section Bound

variable (proper : rate ∈ Ioo 0 1) (proper' : confidence ∈ Ioo 0 1)

include proper proper'

theorem exists_answer (samples : ℕ) :
    ∃ crossing, Crosses samples rate confidence crossing ∧
      bound samples rate confidence = answer samples rate confidence crossing := by
  have within : below samples rate 0 ≤ confidence := by
    rw [below_zero]
    exact proper'.1.le
  obtain ⟨crossing, crosses, eq⟩ := exists_crossing proper proper'.2 (Nat.add_zero (samples + 1))
    (fun before (eq : 0 = before + 1) => absurd eq (Nat.succ_ne_zero before).symm) within
  refine ⟨crossing, crosses, ?_⟩
  rw [below_zero] at eq
  rw [bound, isProbability_of_mem proper, isProbability_of_mem proper', Scalar.zero_real]
  exact eq

omit proper' in
/-- The confidence is first passed at one number of successes only. -/
theorem Crosses.unique {i j : ℕ} (first : Crosses samples rate confidence i)
    (second : Crosses samples rate confidence j) : i = j := by
  have mono := below_mono (n := samples) proper.1.le proper.2.le
  have le {i j : ℕ} (first : Crosses samples rate confidence i)
      (second : Crosses samples rate confidence j) : i ≤ j := by
    by_contra lt
    exact (first.within.trans_lt second.passes).not_ge (mono (not_le.1 lt))
  exact le_antisymm (le first second) (le second first)

theorem bound_eq_answer_iff :
    bound samples rate confidence = answer samples rate confidence k ↔
      Crosses samples rate confidence k := by
  obtain ⟨crossing, crosses, eq⟩ := exists_answer proper proper' samples
  rw [eq]
  constructor
  · intro same
    cases crossing <;> cases k <;> cases same <;> exact crosses
  · intro crosses'
    rw [crosses.unique proper crosses']

/-- A bound for a rate is one for every higher rate, or there is a greater one. -/
theorem exists_bound_of_le (le : rate ≤ rate') (proper'' : rate' ∈ Ioo 0 1)
    (bounded : bound samples rate confidence = .ok k) :
    ∃ k', k ≤ k' ∧ bound samples rate' confidence = .ok k' := by
  have crosses := (bound_eq_answer_iff (k := k + 1) proper proper').1 bounded
  obtain ⟨crossing, crosses', eq⟩ := exists_answer proper'' proper' samples
  have within : below samples rate' (k + 1) ≤ confidence :=
    (below_anti proper.1.le le proper''.2.le (k + 1)).trans crosses.within
  have mono := below_mono (n := samples) proper''.1.le proper''.2.le
  have beyond : k + 1 ≤ crossing := by
    by_contra lt
    exact (within.trans_lt crosses'.passes).not_ge (mono (not_le.1 lt))
  obtain ⟨k', rfl⟩ := Nat.exists_eq_succ_of_ne_zero (Nat.ne_zero_of_lt beyond)
  exact ⟨k', Nat.le_of_succ_le_succ beyond, eq⟩

/-- The probability that a binomial variable stays at or below some number of successes. -/
noncomputable def chance {rate : ℝ} (samples : ℕ) (proper : rate ∈ Ioo 0 1) (successes : ℕ) : ℝ :=
  (ProbabilityTheory.binomial samples ⟨rate, Ioo_subset_Icc_self proper⟩).real (Iic successes)

/-- For every rate and confidence between zero and one, the bound is the number of successes that a
binomial variable stays at or below no more often than the confidence allows, while one more is too
many. There is none if and only if no success at all is already too likely, and it is less than the
number of samples. -/
theorem bound_eq_ok_iff (samples : ℕ) :
    (∀ k, bound samples rate confidence = .ok k ↔
        chance samples proper k ≤ confidence ∧ confidence < chance samples proper (k + 1)) ∧
      (bound samples rate confidence = .error (.tooFewSamples samples rate confidence) ↔
        confidence < chance samples proper 0) ∧
      bound samples rate confidence ≠ .ok samples := by
  have chance_eq (k : ℕ) : chance samples proper k = below samples rate (k + 1) :=
    real_binomial_Iic samples _ k
  have crosses_iff (k : ℕ) : bound samples rate confidence = answer samples rate confidence k ↔
      Crosses samples rate confidence k := bound_eq_answer_iff proper proper'
  refine ⟨fun k => ?_, ?_, fun all => ?_⟩
  · rw [chance_eq, chance_eq]
    exact (crosses_iff (k + 1)).trans ⟨fun crosses => ⟨crosses.within, crosses.passes⟩,
      fun ⟨within, passes⟩ => ⟨within, passes⟩⟩
  · rw [chance_eq]
    refine (crosses_iff 0).trans ⟨fun crosses => crosses.passes, fun passes => ⟨?_, passes⟩⟩
    rw [below_zero]
    exact proper'.1.le
  · have crosses := (crosses_iff (samples + 1)).1 all
    have within := crosses.within
    rw [below_all] at within
    exact within.not_gt proper'.2

end Bound

/-- At most two heads out of ten tosses come up no more often than once in ten times, at most three
do. -/
theorem bound_eq_ok_iff_tosses :
    (1 / 2 : ℝ) ∈ Ioo 0 1 ∧ (1 / 10 : ℝ) ∈ Ioo 0 1 ∧ bound 10 (1 / 2 : ℝ) (1 / 10) = .ok 2 := by
  have fair : (1 / 2 : ℝ) ∈ Ioo 0 1 := by norm_num
  have tenth : (1 / 10 : ℝ) ∈ Ioo 0 1 := by norm_num
  refine ⟨fair, tenth, ((bound_eq_ok_iff fair tenth 10).1 2).2 ?_⟩
  rw [chance, chance, real_binomial_Iic, real_binomial_Iic]
  simp only [below, mass, Finset.sum_range_succ, Finset.sum_range_zero]
  norm_num [Nat.choose]

end SureCode.Tail
