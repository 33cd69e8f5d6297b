import Mathlib
import SureCode.Calibration.Basic
import SureCode.Proofs.Calibration.Tail
import SureCode.Proofs.Except

/-!
# The loosest threshold that is backed

A threshold backs an error rate with a target if its coverage reaches it (`Backs`). Among thresholds
of which the loosest comes first, calibration chooses the loosest that backs a rate
(`loosest_calibrationPoint`). A threshold that backs a rate backs every higher one, with a target
that is no harder (`Backs.of_le`), so the choice for a higher rate is at least as loose
(`calibrate_loosest`).
-/

namespace SureCode

open Set

variable {rows : List (Coverage ℝ)} {rate rate' confidence target : ℝ} {c : Coverage ℝ}
  {p q : CalibrationPoint ℝ}

/-- The coverage of a threshold reaches a target, which leaves out just the share of samples that
the tail bound allows to fail. -/
def Backs (confidence rate : ℝ) (c : Coverage ℝ) (target : ℝ) : Prop :=
  ∃ failures, Tail.bound c.samples rate confidence = .ok failures ∧
    target = 100 - failures / c.samples * 100 ∧ target ≤ c.coverage

/-- The point of an error rate: the threshold with the largest cost among those that back it, with
its target, or nothing where none does. -/
inductive Loosest (rows : List (Coverage ℝ)) (confidence rate : ℝ) : CalibrationPoint ℝ → Prop where
  | unbacked (others : ∀ c ∈ rows, ∀ target, ¬ Backs confidence rate c target) :
      Loosest rows confidence rate ⟨rate, none, none⟩
  | backed {c : Coverage ℝ} {target : ℝ} (mem : c ∈ rows) (backs : Backs confidence rate c target)
      (loosest : ∀ d ∈ rows, ∀ target', Backs confidence rate d target' → d.maxCost ≤ c.maxCost) :
      Loosest rows confidence rate ⟨rate, some c, some target⟩

/-- A threshold that does not back the rate changes nothing. -/
theorem Loosest.cons (loosest : Loosest rows confidence rate p)
    (unbacked : ∀ target, ¬ Backs confidence rate c target) :
    Loosest (c :: rows) confidence rate p := by
  cases loosest with
  | unbacked others => exact .unbacked (List.forall_mem_cons.2 ⟨unbacked, others⟩)
  | backed mem backs loosest =>
    refine .backed (List.mem_cons_of_mem c mem) backs (List.forall_mem_cons.2 ⟨?_, loosest⟩)
    exact fun target backs => absurd backs (unbacked target)

theorem targetCoverage_real (failures samples : ℕ) :
    (targetCoverage failures samples : ℝ) = 100 - failures / samples * 100 := by
  rw [targetCoverage, Tally.hundred]
  norm_num

/-! ### One error rate -/

section Rate

variable (proper : rate ∈ Ioo 0 1) (proper' : confidence ∈ Ioo 0 1)

include proper proper'

/-- The first threshold backs the rate and is chosen, or it does not and is passed over. -/
theorem firstBacked_cons (c : Coverage ℝ) (rows : List (Coverage ℝ)) :
    (∃ target, Backs confidence rate c target ∧
        firstBacked rate confidence (c :: rows) = .ok (some (c, target))) ∨
      (∀ target, ¬ Backs confidence rate c target) ∧
        firstBacked rate confidence (c :: rows) = firstBacked rate confidence rows := by
  obtain ⟨crossing, -, bound⟩ := Tail.exists_answer proper proper' c.samples
  rw [firstBacked]
  cases crossing with
  | zero =>
    rw [Tail.answer] at bound
    refine .inr ⟨fun target ⟨failures, bounded, _⟩ => ?_, by rw [bound]⟩
    simp [bound] at bounded
  | succ failures =>
    rw [Tail.answer] at bound
    rw [bound]
    dsimp only
    rw [targetCoverage_real]
    by_cases reaches : (100 - failures / c.samples * 100 : ℝ) ≤ c.coverage
    · rw [if_pos reaches]
      exact .inl ⟨_, ⟨failures, bound, rfl, reaches⟩, rfl⟩
    · rw [if_neg reaches]
      refine .inr ⟨fun target ⟨failures', bounded, eq, le⟩ => reaches ?_, rfl⟩
      obtain rfl : failures = failures' := Except.ok.inj (bound.symm.trans bounded)
      exact eq ▸ le

theorem exists_calibrationPoint (falls : rows.Pairwise fun c d => d.maxCost < c.maxCost) :
    ∃ p, calibrationPoint rows confidence rate = .ok p ∧ Loosest rows confidence rate p := by
  suffices ∃ backed, firstBacked rate confidence rows = .ok backed ∧
      Loosest rows confidence rate ⟨rate, backed.map (·.1), backed.map (·.2)⟩ by
    obtain ⟨backed, eq, loosest⟩ := this
    refine ⟨_, ?_, loosest⟩
    rw [calibrationPoint, eq]
    rfl
  induction rows with
  | nil => exact ⟨none, rfl, .unbacked nofun⟩
  | cons c rows ih =>
    obtain ⟨tighter, falls⟩ := List.pairwise_cons.1 falls
    rcases firstBacked_cons proper proper' c rows with ⟨target, backs, eq⟩ | ⟨unbacked, eq⟩
    · refine ⟨_, eq, .backed List.mem_cons_self backs fun d mem _ _ => ?_⟩
      rcases List.mem_cons.1 mem with rfl | mem
      · exact le_rfl
      · exact (tighter d mem).le
    · obtain ⟨backed, eq', loosest⟩ := ih falls
      exact ⟨backed, eq.trans eq', loosest.cons unbacked⟩

/-- A threshold that backs a rate backs every higher one, with a target that is no harder. -/
theorem Backs.of_le (le : rate ≤ rate') (proper'' : rate' ∈ Ioo 0 1)
    (backs : Backs confidence rate c target) :
    ∃ target' ≤ target, Backs confidence rate' c target' := by
  obtain ⟨failures, bounded, rfl, reaches⟩ := backs
  obtain ⟨more, fewer, bounded'⟩ := Tail.exists_bound_of_le proper proper' le proper'' bounded
  have easier : (100 - more / c.samples * 100 : ℝ) ≤ 100 - failures / c.samples * 100 := by
    gcongr
  exact ⟨_, easier, more, bounded', rfl, easier.trans reaches⟩

/-- What is chosen for a higher rate is at least as loose. -/
theorem Loosest.le (le : rate ≤ rate') (proper'' : rate' ∈ Ioo 0 1)
    (first : Loosest rows confidence rate p) (second : Loosest rows confidence rate' q)
    (chosen : p.threshold = some c) : ∃ d, q.threshold = some d ∧ c.maxCost ≤ d.maxCost := by
  cases first with
  | unbacked => cases chosen
  | backed mem backs =>
    obtain rfl := Option.some.inj chosen
    obtain ⟨target', -, backs'⟩ := backs.of_le proper proper' le proper''
    cases second with
    | unbacked others => exact absurd backs' (others _ mem _)
    | backed _ _ loosest => exact ⟨_, rfl, loosest _ mem _ backs'⟩

end Rate

theorem Loosest.errorRate_eq (loosest : Loosest rows confidence rate p) : p.errorRate = rate := by
  cases loosest <;> rfl

theorem exists_rate {rates : List ℝ} {points : List (CalibrationPoint ℝ)}
    (all : List.Forall₂ (Loosest rows confidence) rates points) (mem : p ∈ points) :
    ∃ rate ∈ rates, Loosest rows confidence rate p := by
  induction all with
  | nil => cases mem
  | cons here _ ih =>
    rcases List.mem_cons.1 mem with rfl | mem
    · exact ⟨_, List.mem_cons_self, here⟩
    · obtain ⟨rate, within, loosest⟩ := ih mem
      exact ⟨rate, List.mem_cons_of_mem _ within, loosest⟩

/-- Over rows of which the loosest comes first, calibration gives one point for every error rate in
order, each with the loosest row that backs its rate. Where it chooses a row for a rate, it chooses
one that is at least as loose for every higher rate. -/
theorem calibrate_loosest {rates : List ℝ}
    (falls : rows.Pairwise fun c d => d.maxCost < c.maxCost)
    (proper : ∀ rate ∈ rates, rate ∈ Ioo 0 1) (proper' : confidence ∈ Ioo 0 1) :
    ∃ points, calibrate rows rates confidence = .ok points ∧
      List.Forall₂ (Loosest rows confidence) rates points ∧
      ∀ p ∈ points, ∀ q ∈ points, p.errorRate ≤ q.errorRate → ∀ c, p.threshold = some c →
        ∃ d, q.threshold = some d ∧ c.maxCost ≤ d.maxCost := by
  obtain ⟨points, eq, all⟩ := exists_mapM_eq_ok fun rate mem =>
    exists_calibrationPoint (proper rate mem) proper' falls
  refine ⟨points, eq, all, fun p mem q mem' le c chosen => ?_⟩
  obtain ⟨rate, within, first⟩ := exists_rate all mem
  obtain ⟨rate', within', second⟩ := exists_rate all mem'
  rw [first.errorRate_eq, second.errorRate_eq] at le
  exact first.le (proper rate within) proper' le (proper rate' within') second chosen

/-! ### Two rows of ten samples -/

/-- A row of ten samples. -/
noncomputable def tenSamples (maxCost coverage : ℝ) : Coverage ℝ :=
  ⟨maxCost, Real.exp (-maxCost), 10, coverage, 0⟩

/-- Ten samples may fail as often as the tail bound says. -/
theorem backs_tenSamples_iff {maxCost coverage : ℝ} {failures : ℕ}
    (bounded : Tail.bound 10 rate confidence = .ok failures) :
    Backs confidence rate (tenSamples maxCost coverage) target ↔
      target = 100 - failures * 10 ∧ target ≤ coverage := by
  have share : (100 - failures / (10 : ℕ) * 100 : ℝ) = 100 - failures * 10 := by
    push_cast
    ring
  constructor
  · rintro ⟨failures', bounded', eq, le⟩
    obtain rfl : failures = failures' := Except.ok.inj (bounded.symm.trans bounded')
    exact ⟨eq.trans share, le⟩
  · rintro ⟨eq, le⟩
    exact ⟨failures, bounded, eq.trans share.symm, le⟩

/-- For one failure out of four no sample may fail and both rows miss their target; for one out of
two the tighter row reaches it, with two failures allowed. -/
theorem calibrate_loosest_twoRows :
    ([tenSamples 4 70, tenSamples 2 90].Pairwise fun c d => d.maxCost < c.maxCost) ∧
      (∀ rate ∈ [1 / 4, (1 / 2 : ℝ)], rate ∈ Ioo 0 1) ∧ (1 / 10 : ℝ) ∈ Ioo 0 1 ∧
      calibrate [tenSamples 4 70, tenSamples 2 90] [1 / 4, 1 / 2] (1 / 10)
        = .ok [⟨1 / 4, none, none⟩, ⟨1 / 2, some (tenSamples 2 90), some 80⟩] := by
  have quarter : (1 / 4 : ℝ) ∈ Ioo 0 1 := by norm_num
  have half : (1 / 2 : ℝ) ∈ Ioo 0 1 := by norm_num
  have tenth : (1 / 10 : ℝ) ∈ Ioo 0 1 := by norm_num
  have falls : [tenSamples 4 70, tenSamples 2 90].Pairwise fun c d => d.maxCost < c.maxCost := by
    norm_num [tenSamples]
  have proper : ∀ rate ∈ [1 / 4, (1 / 2 : ℝ)], rate ∈ Ioo 0 1 :=
    List.forall_mem_cons.2 ⟨quarter, List.forall_mem_singleton.2 half⟩
  have none : Tail.bound 10 (1 / 4 : ℝ) (1 / 10) = .ok 0 := by
    refine (Tail.bound_eq_answer_iff (k := 1) quarter tenth).2 ⟨?_, ?_⟩ <;>
      norm_num [Binomial.below, Binomial.mass, Finset.sum_range_succ, Nat.choose]
  have two : Tail.bound 10 (1 / 2 : ℝ) (1 / 10) = .ok 2 := by
    refine (Tail.bound_eq_answer_iff (k := 3) half tenth).2 ⟨?_, ?_⟩ <;>
      norm_num [Binomial.below, Binomial.mass, Finset.sum_range_succ, Nat.choose]
  refine ⟨falls, proper, tenth, ?_⟩
  obtain ⟨points, eq, all, -⟩ := calibrate_loosest falls proper tenth
  obtain _ | ⟨first, _ | ⟨second, _ | _⟩⟩ := all
  rw [eq]
  congr
  · cases first with
    | unbacked => rfl
    | backed mem backs =>
      simp only [List.mem_cons, List.not_mem_nil, or_false] at mem
      rcases mem with rfl | rfl
      all_goals
        obtain ⟨rfl, le⟩ := (backs_tenSamples_iff none).1 backs
        norm_num at le
  · cases second with
    | unbacked others =>
      have backs : Backs (1 / 10) (1 / 2) (tenSamples 2 90) 80 :=
        (backs_tenSamples_iff two).2 (by norm_num)
      exact absurd backs (others _ (by simp) 80)
    | backed mem backs =>
      simp only [List.mem_cons, List.not_mem_nil, or_false] at mem
      rcases mem with rfl | rfl
      · obtain ⟨rfl, le⟩ := (backs_tenSamples_iff two).1 backs
        norm_num at le
      · obtain ⟨rfl, -⟩ := (backs_tenSamples_iff two).1 backs
        norm_num

end SureCode
