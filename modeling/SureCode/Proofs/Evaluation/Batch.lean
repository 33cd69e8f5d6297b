import Mathlib
import SureCode.Proofs.Calibration.Coverage
import SureCode.Proofs.Evaluation.Basic
import SureCode.Proofs.Pruning.Answers
import SureCode.Proofs.Pruning.Greedy
import SureCode.Proofs.Pruning.Thresholds

/-!
# The accounts of a batch

Both engines answer once for every threshold, so a sample that is evaluated has one record for every
threshold, and a sample that is not is skipped once. Coverage over the records of a batch therefore
has one row for every threshold, in which every evaluated sample counts once.
-/

namespace SureCode

variable {κ : Type}

/-! ### Answers of the engines -/

namespace Node

variable [Scalar κ] {t : Node κ} {maxHoles : HoleBudget} {limit : Nat} {thresholds : List κ}

/-- Greedy pruning answers for every threshold that is a number. -/
theorem exists_pruneGreedyAll (maxHoles : HoleBudget) (t : Node κ)
    (numbers : ∀ x ∈ thresholds, Scalar.isNaN x = false) :
    ∃ answers : List (Pruning κ), t.pruneGreedyAll maxHoles thresholds = answers.map .ok ∧
      answers.map (·.maxCost) = thresholds := by
  induction thresholds with
  | nil => exact ⟨[], rfl, rfl⟩
  | cons threshold rest ih =>
    obtain ⟨number, numbers⟩ := List.forall_mem_cons.1 numbers
    obtain ⟨answers, eq, costs⟩ := ih numbers
    obtain ⟨s, -, -, -, -, answer⟩ := t.exists_greedy_run maxHoles number
    refine ⟨(t.reconstruct s.kept).toPruning threshold
      (if fits threshold s.retained then .sat else .unsat) :: answers, ?_, ?_⟩
    · rw [List.map_cons, ← answer, ← eq]
      rfl
    · rw [List.map_cons, costs]
      rfl

end Node

namespace Settings

variable [Scalar κ] {s : Settings κ}

/-- Either engine that answers does so for every threshold, in their order. -/
theorem exists_of_prune {t : Node κ} {outputs : List (Except (PruneError κ) (Pruning κ))}
    (numbers : ∀ x ∈ s.thresholds, Scalar.isNaN x = false) (ok : s.prune t = .ok outputs) :
    ∃ answers : List (Pruning κ), outputs = answers.map .ok ∧
      answers.map (·.maxCost) = s.thresholds := by
  unfold prune at ok
  split at ok
  · obtain ⟨answers, exact, rfl⟩ := map_eq_ok_iff.1 ok
    exact ⟨answers, rfl, Node.map_maxCost_pruneExact exact⟩
  · obtain ⟨answers, greedy, costs⟩ := t.exists_pruneGreedyAll s.maxHoles numbers
    exact ⟨answers, (Except.ok.inj ok).symm.trans greedy, costs⟩

theorem filterMap_toOption {ε α β : Type} (f : α → β) (as : List α) :
    (as.map (Except.ok (ε := ε))).filterMap (fun output => output.toOption.map f) = as.map f := by
  rw [List.filterMap_map]
  exact congrFun List.filterMap_eq_map' as

/-- An evaluated sample has one record for every threshold, in their order. -/
theorem map_maxCost_evaluate {sample : Sample κ} {records : List (SampleRecord κ)}
    (numbers : ∀ x ∈ s.thresholds, Scalar.isNaN x = false)
    (ok : s.evaluate sample = .ok records) :
    records.map (·.output.maxCost) = s.thresholds ∧ ∀ r ∈ records, r.id = sample.id := by
  rw [evaluate_eq, evaluateOn_eq_ok_iff] at ok
  obtain ⟨-, target, charged, outputs, -, -, pruned, rfl⟩ := ok
  obtain ⟨answers, rfl, costs⟩ := exists_of_prune numbers pruned
  rw [filterMap_toOption, List.map_map, ← costs]
  exact ⟨rfl, List.forall_mem_map.2 fun p _ => rfl⟩

/-- Of values with different keys just one has a given key. -/
theorem exists_filter_eq_singleton [LawfulScalar κ] {α : Type} {key : α → κ} {c : κ} {as : List α}
    (nodup : (as.map key).Nodup) (mem : c ∈ as.map key) :
    ∃ a ∈ as, as.filter (fun a => Scalar.same (key a) c) = [a] := by
  induction as with
  | nil => cases mem
  | cons a as ih =>
    obtain ⟨new, nodup⟩ := List.nodup_cons.1 nodup
    by_cases here : key a = c
    · refine ⟨a, List.mem_cons_self, ?_⟩
      rw [List.filter_cons, if_pos (Scalar.same_iff.2 here), List.cons.injEq]
      refine ⟨rfl, List.filter_eq_nil_iff.2 fun b mem same => new ?_⟩
      rw [here, ← Scalar.same_iff.1 same]
      exact List.mem_map_of_mem mem
    · obtain ⟨b, mem, eq⟩ := ih nodup ((List.mem_cons.1 mem).resolve_left (Ne.symm here))
      refine ⟨b, List.mem_cons_of_mem a mem, ?_⟩
      rw [List.filter_cons, if_neg fun same => here (Scalar.same_iff.1 same), eq]

/-- What a batch holds of one sample: the sample with its failure, or a record for every threshold.
-/
inductive Accounts (s : Settings κ) (sample : Sample κ) : Batch κ → Prop
  | skipped {e : SampleError κ} (failed : s.evaluate sample = .error e) :
    Accounts s sample ⟨[], [(sample.id, e)]⟩
  | recorded {records : List (SampleRecord κ)} (evaluated : s.evaluate sample = .ok records)
    (costs : records.map (·.output.maxCost) = s.thresholds)
    (ids : ∀ r ∈ records, r.id = sample.id) : Accounts s sample ⟨records, []⟩

/-- The samples that are not skipped. -/
def evaluated (s : Settings κ) (samples : List (Sample κ)) : List (Sample κ) :=
  samples.filter fun sample => (s.evaluate sample).toBool

section Cons

variable {sample : Sample κ} {samples : List (Sample κ)}

theorem evaluateAll_cons (s : Settings κ) (sample : Sample κ) (samples : List (Sample κ)) :
    s.evaluateAll (sample :: samples) =
      let batch := s.evaluateAll samples
      match s.evaluate sample with
      | .ok records => { batch with records := records ++ batch.records }
      | .error e => { batch with skipped := (sample.id, e) :: batch.skipped } := by
  exact rfl

theorem evaluateAll_cons_of_error {e : SampleError κ} (failed : s.evaluate sample = .error e) :
    (s.evaluateAll (sample :: samples)).records = (s.evaluateAll samples).records ∧
      (s.evaluateAll (sample :: samples)).skipped
        = (sample.id, e) :: (s.evaluateAll samples).skipped ∧
      s.evaluated (sample :: samples) = s.evaluated samples := by
  have passed : (s.evaluate sample).toBool = false := by rw [failed]; rfl
  rw [evaluateAll_cons, failed, evaluated, List.filter_cons, passed]
  exact ⟨rfl, rfl, rfl⟩

theorem evaluateAll_cons_of_ok {new : List (SampleRecord κ)} (ok : s.evaluate sample = .ok new) :
    (s.evaluateAll (sample :: samples)).records = new ++ (s.evaluateAll samples).records ∧
      (s.evaluateAll (sample :: samples)).skipped = (s.evaluateAll samples).skipped ∧
      s.evaluated (sample :: samples) = sample :: s.evaluated samples := by
  have taken : (s.evaluate sample).toBool = true := by rw [ok]; rfl
  rw [evaluateAll_cons, ok, evaluated, List.filter_cons, taken]
  exact ⟨rfl, rfl, rfl⟩

/-- Induction on samples by what becomes of the first: it is skipped, or it has its records. -/
theorem batch_induction (s : Settings κ) {motive : List (Sample κ) → Prop} (nil : motive [])
    (skipped : ∀ sample samples e, s.evaluate sample = .error e → motive samples →
      motive (sample :: samples))
    (recorded : ∀ sample samples new, s.evaluate sample = .ok new → motive samples →
      motive (sample :: samples)) : ∀ samples, motive samples
  | [] => nil
  | sample :: samples => by
    have ih := batch_induction s nil skipped recorded samples
    cases evaluation : s.evaluate sample with
    | error e => exact skipped sample samples e evaluation ih
    | ok new => exact recorded sample samples new evaluation ih

end Cons

theorem length_skipped (s : Settings κ) (samples : List (Sample κ)) :
    (s.evaluateAll samples).skipped.length + (s.evaluated samples).length = samples.length := by
  induction samples using batch_induction s with
  | nil => rfl
  | skipped sample samples e failed ih =>
    obtain ⟨-, skipped, unskipped⟩ := evaluateAll_cons_of_error failed
    rw [skipped, unskipped, List.length_cons, List.length_cons]
    omega
  | recorded sample samples new ok ih =>
    obtain ⟨-, skipped, unskipped⟩ := evaluateAll_cons_of_ok ok
    rw [skipped, unskipped, List.length_cons, List.length_cons]
    omega

/-- The records of a batch are those of its samples. -/
theorem mem_records_iff {samples : List (Sample κ)} {r : SampleRecord κ} :
    r ∈ (s.evaluateAll samples).records ↔
      ∃ sample ∈ samples, ∃ new, s.evaluate sample = .ok new ∧ r ∈ new := by
  induction samples using batch_induction s with
  | nil => exact iff_of_false nofun nofun
  | skipped sample samples e failed ih =>
    rw [(evaluateAll_cons_of_error failed).1, ih, List.exists_mem_cons_iff]
    simp [failed]
  | recorded sample samples new ok ih =>
    rw [(evaluateAll_cons_of_ok ok).1, List.mem_append, ih, List.exists_mem_cons_iff]
    simp [ok]

section Batches

variable (numbers : ∀ x ∈ s.thresholds, Scalar.isNaN x = false) (samples : List (Sample κ))

include numbers

/-- A batch is the parts of its samples one after the other. -/
theorem exists_parts :
    ∃ parts : List (Batch κ), List.Forall₂ s.Accounts samples parts ∧
      (s.evaluateAll samples).records = parts.flatMap (·.records) ∧
      (s.evaluateAll samples).skipped = parts.flatMap (·.skipped) := by
  induction samples using batch_induction s with
  | nil => exact ⟨[], .nil, rfl, rfl⟩
  | skipped sample samples e failed ih =>
    obtain ⟨parts, accounts, records, skipped⟩ := ih
    obtain ⟨records', skipped', -⟩ := evaluateAll_cons_of_error failed
    refine ⟨⟨[], [(sample.id, e)]⟩ :: parts, .cons (.skipped failed) accounts, ?_, ?_⟩
    · exact records'.trans records
    · exact skipped'.trans (congrArg ((sample.id, e) :: ·) skipped)
  | recorded sample samples new ok ih =>
    obtain ⟨parts, accounts, records, skipped⟩ := ih
    obtain ⟨costs, ids⟩ := map_maxCost_evaluate numbers ok
    obtain ⟨records', skipped', -⟩ := evaluateAll_cons_of_ok ok
    refine ⟨⟨new, []⟩ :: parts, .cons (.recorded ok costs ids) accounts, ?_, ?_⟩
    · exact records'.trans (congrArg (new ++ ·) records)
    · exact skipped'.trans skipped

/-- The records of one threshold are one for each sample that is not skipped, in their order. -/
theorem map_id_filter_records [LawfulScalar κ] (nodup : s.thresholds.Nodup) {c : κ}
    (mem : c ∈ s.thresholds) :
    ((s.evaluateAll samples).records.filter fun r => Scalar.same r.output.maxCost c).map (·.id)
      = (s.evaluated samples).map (·.id) := by
  induction samples using batch_induction s with
  | nil => rfl
  | skipped sample samples e failed ih =>
    obtain ⟨records, -, unskipped⟩ := evaluateAll_cons_of_error failed
    rw [records, unskipped, ih]
  | recorded sample samples new ok ih =>
    obtain ⟨costs, ids⟩ := map_maxCost_evaluate numbers ok
    obtain ⟨records, -, unskipped⟩ := evaluateAll_cons_of_ok ok
    rw [← costs] at nodup mem
    obtain ⟨r, here, single⟩ := exists_filter_eq_singleton nodup mem
    rw [records, unskipped, List.filter_append, single, List.map_append, List.map_singleton,
      ids r here, ih]
    rfl

theorem maxCost_mem_thresholds :
    ∀ r ∈ (s.evaluateAll samples).records, r.output.maxCost ∈ s.thresholds := by
  intro r mem
  obtain ⟨sample, -, new, ok, here⟩ := mem_records_iff.1 mem
  rw [← (map_maxCost_evaluate numbers ok).1]
  exact List.mem_map_of_mem here

/-- If some sample is not skipped, then the records have just the thresholds. -/
theorem mem_map_maxCost_iff [LawfulScalar κ] (nodup : s.thresholds.Nodup)
    (some : s.evaluated samples ≠ []) (c : κ) :
    c ∈ (s.evaluateAll samples).records.map (·.output.maxCost) ↔ c ∈ s.thresholds := by
  rw [List.mem_map]
  constructor
  · rintro ⟨r, mem, rfl⟩
    exact maxCost_mem_thresholds numbers samples r mem
  · intro mem
    have ids := map_id_filter_records numbers samples nodup mem
    have nonempty : ((s.evaluateAll samples).records.filter fun r =>
        Scalar.same r.output.maxCost c) ≠ [] := by
      intro none
      rw [none, List.map_nil, eq_comm, List.map_eq_nil_iff] at ids
      exact some ids
    obtain ⟨r, here⟩ := List.exists_mem_of_ne_nil _ nonempty
    obtain ⟨mem, same⟩ := List.mem_filter.1 here
    exact ⟨r, mem, Scalar.same_iff.1 same⟩

theorem length_records :
    (s.evaluateAll samples).records.length = s.thresholds.length * (s.evaluated samples).length := by
  induction samples using batch_induction s with
  | nil => rfl
  | skipped sample samples e failed ih =>
    obtain ⟨records, -, unskipped⟩ := evaluateAll_cons_of_error failed
    rw [records, unskipped, ih]
  | recorded sample samples new ok ih =>
    have count := congrArg List.length (map_maxCost_evaluate numbers ok).1
    rw [List.length_map] at count
    obtain ⟨records, -, unskipped⟩ := evaluateAll_cons_of_ok ok
    rw [records, unskipped, List.length_append, ih, count, List.length_cons, Nat.mul_succ,
      Nat.add_comm]

end Batches

/-- With sorted thresholds a batch accounts for all its samples in their order, each either skipped
once or with one record for every threshold in the order of the thresholds. If any sample is not
skipped, then the coverage of its records has one row for every threshold, over one record of each
sample that is not skipped. -/
theorem evaluateAll_accounts {κ : Type} [LogScalar κ] [LawfulScalar κ] {given : List κ}
    {s : Settings κ} (sorted : sortThresholds given = .ok s.thresholds)
    (samples : List (Sample κ)) :
    let records := (s.evaluateAll samples).records
    let skipped := (s.evaluateAll samples).skipped
    let unskipped := s.evaluated samples
    let recordsAt (c : κ) := records.filter fun r => Scalar.same r.output.maxCost c
    (∃ parts : List (Batch κ), List.Forall₂ s.Accounts samples parts ∧
      records = parts.flatMap (·.records) ∧ skipped = parts.flatMap (·.skipped)) ∧
    skipped.length + unskipped.length = samples.length ∧
    records.length = s.thresholds.length * unskipped.length ∧
    (unskipped ≠ [] →
      aggregate (records.map (·.outcome)) = s.thresholds.map (fun c =>
        (Tally.ofOutcomes c ((recordsAt c).map (·.outcome))).toCoverage) ∧
      (∀ c ∈ s.thresholds, (recordsAt c).map (·.id) = unskipped.map (·.id)) ∧
      (aggregate (records.map (·.outcome))).map (fun row => (row.maxCost, row.samples))
        = s.thresholds.map fun c => (c, unskipped.length)) := by
  intro records skipped unskipped recordsAt
  have numbers := isNaN_of_mem_sortThresholds sorted
  have falls := pairwise_sortThresholds sorted
  have nodup : s.thresholds.Nodup := Scalar.nodup_of_falls falls
  refine ⟨exists_parts numbers samples, length_skipped s samples, length_records numbers samples,
    fun some => ?_⟩
  have ids (c : κ) (mem : c ∈ s.thresholds) : (recordsAt c).map (·.id) = unskipped.map (·.id) :=
    map_id_filter_records numbers samples nodup mem
  have outcomesAt (c : κ) : (records.map (·.outcome)).filter (fun o => Scalar.same o.maxCost c)
      = (recordsAt c).map (·.outcome) := List.filter_map
  obtain ⟨costs, falling, occurs, rows⟩ := exists_aggregate (records.map (·.outcome))
  have same : costs = s.thresholds := by
    refine Scalar.eq_of_falls falling falls fun c => ?_
    rw [occurs, List.map_map]
    exact mem_map_maxCost_iff numbers samples nodup some c
  simp only [same, outcomesAt] at rows
  refine ⟨rows, ids, ?_⟩
  rw [rows, List.map_map]
  refine List.map_congr_left fun c mem => ?_
  have count := congrArg List.length (ids c mem)
  rw [List.length_map, List.length_map] at count
  simp [Tally.toCoverage, count]

/-- A batch of a name that is evaluated and one that lacks its log-probability. -/
theorem evaluateAll_accounts_names :
    let s : Settings Float :=
      { (Settings.defaults : Settings Float) with
        thresholds := [2, 1], engine := .greedy, firstLineOnly := false }
    let samples : List (Sample Float) := [nameSample [-1], nameSample []]
    sortThresholds [(2 : Float), 1] = .ok s.thresholds ∧
      (s.evaluateAll samples).records.length = 2 ∧ (s.evaluateAll samples).skipped.length = 1 ∧
      (aggregate ((s.evaluateAll samples).records.map (·.outcome))).map
        (fun row : Coverage Float => (row.maxCost, row.samples)) = [(2, 1), (1, 1)] := by
  intro s samples
  have falls : [(2 : Float), 1].mergeSort (fun a b => Scalar.totalLe b a) = [2, 1] :=
    List.mergeSort_of_pairwise (by decide +kernel)
  have sorted : sortThresholds [(2 : Float), 1] = .ok s.thresholds := by
    refine sortThresholds_eq_ok_iff.2 ⟨by decide +kernel, rfl, ?_⟩
    rw [falls]
    decide +kernel
  have first : (s.evaluate (nameSample [-1])).toBool = true := by
    rw [evaluate_eq]
    exact congrArg Except.toBool (evaluateOn_name rfl (Nat.zero_le 1) [-1] (-1))
  have second : (s.evaluate (nameSample [])).toBool = false := by
    rw [evaluate_eq]
    exact congrArg Except.toBool (evaluateOn_name_mismatched (Nat.zero_le 1) [] (by decide))
  have unskipped : s.evaluated samples = [nameSample [-1]] := by
    simp [evaluated, samples, first, second]
  obtain ⟨-, skipped, records, rows⟩ := evaluateAll_accounts (κ := Float) sorted samples
  rw [unskipped] at skipped records rows
  exact ⟨sorted, records, by simpa [samples] using skipped, (rows (List.cons_ne_nil _ _)).2.2⟩

end Settings

end SureCode
