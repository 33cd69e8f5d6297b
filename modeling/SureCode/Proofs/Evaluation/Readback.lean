import Mathlib
import SureCode.Proofs.Completion
import SureCode.Proofs.Evaluation.Batch
import SureCode.Proofs.Json.RoundTrip
import SureCode.Proofs.Node.Size
import SureCode.Proofs.Pruning.Reconstruction
import SureCode.Proofs.Shares

/-!
# Records read back

Calibration reads from the document of a record its threshold, its verdict and its retained share.
The share is finite in every record, so the outcome of a record is read back exactly when its
threshold is finite: an infinite one is written as `null`, which is no number.
-/

namespace SureCode

variable {κ : Type}

/-! ### Documents of records -/

namespace Outcome

/-- The verdict in the document of a containment check. -/
def verdict? (json : Json κ) : Option Bool := do
  let fields ← json.toFields? ["eval"]
  fields.required "eval" Json.toBool?

/-- The threshold and the retained share in the document of an answer. -/
def measures? [Scalar κ] (json : Json κ) : Option (κ × κ) := do
  let fields ← json.toFields? ["max_cost", "frac_included"]
  let maxCost ← fields.required "max_cost" Json.toScalar?
  let fracIncluded ← fields.required "frac_included" Json.toScalar?
  return (maxCost, fracIncluded)

theorem verdict?_verdictJson (mismatch : Option Mismatch) :
    verdict? (SampleRecord.verdictJson (κ := κ) mismatch) = some mismatch.isNone := by
  cases mismatch <;> rfl

variable [Scalar κ]

theorem toScalar?_ofScalar (x : κ) :
    (Json.ofScalar x).toScalar? = if Scalar.isFinite x then some x else none := by
  cases finite : Scalar.isFinite x with
  | true => exact Json.toScalar?_ofScalar finite
  | false => exact Json.toScalar?_ofScalar_eq_none finite

theorem measures?_toJson (p : Pruning κ) : measures? p.toJson
    = if Scalar.isFinite p.maxCost && Scalar.isFinite p.fracIncluded
      then some (p.maxCost, p.fracIncluded) else none := by
  change ((Json.ofScalar p.maxCost).toScalar?.bind fun maxCost =>
    (Json.ofScalar p.fracIncluded).toScalar?.bind fun fracIncluded =>
      some (maxCost, fracIncluded)) = _
  rw [toScalar?_ofScalar, toScalar?_ofScalar]
  cases Scalar.isFinite p.maxCost <;> cases Scalar.isFinite p.fracIncluded <;> rfl

/-- A record is read back as its outcome when both numbers of the outcome are finite. -/
theorem ofJson?_toJson (r : SampleRecord κ) : ofJson? r.toJson
    = if Scalar.isFinite r.output.maxCost && Scalar.isFinite r.output.fracIncluded
      then some r.outcome else none := by
  have read : ofJson? r.toJson = (verdict? (SampleRecord.verdictJson r.mismatch)).bind
      fun contained => (measures? r.output.toJson).bind fun measures =>
        some ⟨measures.1, contained, measures.2⟩ := rfl
  rw [read, verdict?_verdictJson, measures?_toJson]
  dsimp only [Option.bind_some]
  split <;> rfl

end Outcome

/-! ### Texts in documents -/

namespace Json

theorem areTextual_eq_all (items : List (Json κ)) : areTextual items = items.all isTextual := by
  induction items with
  | nil => rfl
  | cons item items ih => rw [areTextual, List.all_cons, ih]

theorem haveTexts_append (fields fields' : List (String × Json κ)) :
    haveTexts (fields ++ fields') = (haveTexts fields && haveTexts fields') := by
  induction fields with
  | nil => rfl
  | cons field fields ih => rw [List.cons_append, haveTexts, haveTexts, ih, Bool.and_assoc]

theorem isTextual_ofList {α : Type} {write : α → Json κ}
    (each : ∀ x, (write x).isTextual = true) (xs : List α) :
    (ofList write xs).isTextual = true := by
  rw [ofList, isTextual, areTextual_eq_all, List.all_map, List.all_eq_true]
  exact fun x _ => each x

theorem isTextual_ofOption {α : Type} {write : α → Json κ}
    (each : ∀ a, (write a).isTextual = true) (x : Option α) :
    (ofOption write x).isTextual = true := by
  cases x with
  | none => rfl
  | some a => exact each a

@[simp] theorem isTextual_string (text : String) : (string text : Json κ).isTextual = true := rfl

@[simp] theorem isTextual_bool (b : Bool) : (bool b : Json κ).isTextual = true := rfl

@[simp] theorem isTextual_ofNat (n : Nat) : (ofNat n : Json κ).isTextual = true := rfl

@[simp] theorem isTextual_ofScalar [Scalar κ] (x : κ) : (ofScalar x).isTextual = true := by
  unfold ofScalar
  split <;> rfl

end Json

namespace Record

variable [Scalar κ]

theorem isTextual_jsonOfFields (r : RecordFields κ) {children : List (Json κ)}
    (below : Json.areTextual children = true) : (jsonOfFields r children).isTextual = true := by
  have pair (gap : Nat × Nat) :
      (Json.array (κ := κ) [.ofNat gap.1, .ofNat gap.2]).isTextual = true := rfl
  have gaps := Json.isTextual_ofList pair r.gaps
  have tokens := Json.isTextual_ofList (κ := κ) Json.isTextual_string r.tokens
  have logprobs := Json.isTextual_ofList Json.isTextual_ofScalar r.logprobs
  have nll := Json.isTextual_ofOption Json.isTextual_ofScalar r.nll
  have deleted := Json.isTextual_ofOption (κ := κ) Json.isTextual_bool r.deleted
  rw [jsonOfFields, Json.isTextual, Json.haveTexts_append, Json.haveTexts_append]
  cases r.name <;>
    simp [Json.haveTexts, gaps, tokens, logprobs, nll, deleted, Json.isTextual, below]

mutual

theorem isTextual_toJson (r : Record κ) : (toJson r).isTextual = true := by
  match r with
  | .node fields rs =>
    rw [toJson]
    exact isTextual_jsonOfFields fields (areTextual_toJsonAll rs)

theorem areTextual_toJsonAll (rs : List (Record κ)) :
    Json.areTextual (toJsonAll rs) = true := by
  match rs with
  | [] => rfl
  | r :: rs =>
    rw [toJsonAll, Json.areTextual, isTextual_toJson r, areTextual_toJsonAll rs]
    rfl

end

end Record

/-- All strings in the document of a record are texts. -/
theorem SampleRecord.isTextual_toJson [Scalar κ] (r : SampleRecord κ) :
    r.toJson.isTextual = true := by
  have node (t : Node κ) : t.toJson.isTextual = true := Record.isTextual_toJson _
  have maxHoles := Json.isTextual_ofOption (κ := κ) Json.isTextual_ofNat r.maxHoles
  have verdict : (verdictJson (κ := κ) r.mismatch).isTextual = true := by
    cases r.mismatch <;> rfl
  have pruned := Json.isTextual_ofOption node r.output.pruned
  have annotated := Json.isTextual_ofOption node r.output.annotated
  have output : r.output.toJson.isTextual = true := by
    simp [Pruning.toJson, Json.isTextual, Json.haveTexts, Json.isTextual_ofScalar, pruned,
      annotated]
  simp [toJson, toJsonWith, Json.isTextual, Json.haveTexts, maxHoles, verdict, output]

/-! ### Shares -/

section Shares

variable [Scalar κ] {s : Settings κ} {t : Node κ} {p : Pruning κ}

theorem fracIncluded_of_pruneExact {limit : Nat} {maxHoles : HoleBudget} {thresholds : List κ}
    {answers : List (Pruning κ)} (ok : t.pruneExact maxHoles limit thresholds = .ok answers)
    (mem : p ∈ answers) :
    p.fracIncluded = Scalar.zero ∨ ∃ keep, p.fracIncluded = (t.reconstruct keep).fracIncluded := by
  simp only [Node.pruneExact, bind_eq_ok_iff, pure, Except.pure, Except.ok.injEq] at ok
  obtain ⟨-, -, levels, -, rfl⟩ := ok
  obtain ⟨⟨threshold, place⟩, -, rfl⟩ := List.mem_map.1 mem
  dsimp only
  split
  · exact .inr ⟨_, rfl⟩
  · exact .inl rfl

theorem fracIncluded_of_pruneGreedy {maxHoles : HoleBudget} {c : κ}
    (ok : t.pruneGreedy maxHoles c = .ok p) :
    ∃ keep, p.fracIncluded = (t.reconstruct keep).fracIncluded := by
  rw [Node.pruneGreedy] at ok
  split at ok
  · cases ok
  · obtain ⟨last, -, answer⟩ := bind_eq_ok_iff.1 ok
    exact ⟨_, congrArg Pruning.fracIncluded (Except.ok.inj answer).symm⟩

/-- An answer retains the share of some selection, or nothing. -/
theorem fracIncluded_of_prune {outputs : List (Except (PruneError κ) (Pruning κ))}
    (ok : s.prune t = .ok outputs) (mem : .ok p ∈ outputs) :
    p.fracIncluded = Scalar.zero ∨ ∃ keep, p.fracIncluded = (t.reconstruct keep).fracIncluded := by
  unfold Settings.prune at ok
  split at ok
  · obtain ⟨answers, exact, rfl⟩ := map_eq_ok_iff.1 ok
    obtain ⟨p', mem, same⟩ := List.mem_map.1 mem
    exact fracIncluded_of_pruneExact exact (Except.ok.inj same ▸ mem)
  · rw [← Except.ok.inj ok] at mem
    obtain ⟨c, -, greedy⟩ := List.mem_map.1 mem
    exact .inr (fracIncluded_of_pruneGreedy greedy)

end Shares

theorem isFinite_fracIncluded_reconstruct {t : Node Float} (small : t.size < 2 ^ 128)
    (keep : Nat → Bool) : (t.reconstruct keep).fracIncluded.isFinite = true := by
  have kept : (t.reconstruct keep).kept ≤ t.size := Node.length_chargesAt_le keep 0 t
  have nonempty : (t.reconstruct keep).total ≠ 0 := t.size_pos.ne'
  rw [Reconstruction.fracIncluded, if_neg nonempty]
  exact isFinite_share kept t.size_pos small

/-! ### Lengths of texts -/

namespace Text

theorem byteLength_le_of_sublist {cs ds : List Char} (sub : cs.Sublist ds) :
    byteLength cs ≤ byteLength ds := by
  induction sub with
  | slnil => exact le_rfl
  | cons d _ ih => exact ih.trans (Nat.le_add_left _ _)
  | cons_cons c _ ih => exact Nat.add_le_add_left ih _

end Text

/-- The evaluated text is no longer than the completion. -/
theorem Settings.byteLength_prepare_le (s : Settings κ) (c : Completion κ) :
    Text.byteLength (s.prepare c).text.toList ≤ Text.byteLength c.text.toList := by
  unfold prepare
  split
  · refine Text.byteLength_le_of_sublist ?_
    change (String.ofList (Text.trimmed (Completion.line c.text.toList))).toList.Sublist _
    rw [String.toList_ofList]
    exact (Text.trimmed_sublist _).trans (List.takeWhile_sublist _)
  · exact le_rfl

namespace Settings

variable {s : Settings Float}

theorem isFinite_fracIncluded_of_evaluate {sample : Sample Float}
    (stored : Text.byteLength sample.completion.text.toList < 2 ^ 64)
    {records : List (SampleRecord Float)} (ok : s.evaluate sample = .ok records) :
    ∀ r ∈ records, r.output.fracIncluded.isFinite = true := by
  rw [evaluate_eq, evaluateOn_eq_ok_iff] at ok
  obtain ⟨prediction, target, charged, outputs, trees, attributed, pruned, rfl⟩ := ok
  have small : charged.size < 2 ^ 128 := by
    have nodes := Node.size_lt_of_ofText? (ofText?_of_trees trees)
    have shorter := s.byteLength_prepare_le sample.completion
    rw [Node.size_of_attribute attributed]
    omega
  intro r mem
  obtain ⟨output, here, recorded⟩ := List.mem_filterMap.1 mem
  obtain ⟨p, answered, rfl⟩ := Option.map_eq_some_iff.1 recorded
  have answer : output = .ok p := by
    cases output with
    | error e => cases answered
    | ok p' => exact congrArg Except.ok (Option.some.inj answered)
  change p.fracIncluded.isFinite = true
  obtain none | ⟨keep, share⟩ := fracIncluded_of_prune pruned (answer ▸ here)
  · rw [none]
    decide +kernel
  · rw [share]
    exact isFinite_fracIncluded_reconstruct small keep

end Settings

/-! ### Lines -/

/-- What calibration reads from the line of a record. -/
def SampleRecord.readBack? (r : SampleRecord Float) : Option (Outcome Float) :=
  (Json.parse? r.toJson.compact).bind Outcome.ofJson?

theorem SampleRecord.readBack?_eq {r : SampleRecord Float}
    (readsBack : ∀ x ∈ r.toJson.reals, Json.ReadsBack x) :
    r.readBack? = Outcome.ofJson? r.toJson := by
  rw [readBack?, Json.parse?_compact r.isTextual_toJson readsBack, Option.bind_some]

namespace Settings

variable {s : Settings Float}

/-- The line of a record of a stored text is read back when its threshold is finite. -/
theorem readBack?_of_mem {samples : List (Sample Float)}
    (stored : ∀ sample ∈ samples, Text.byteLength sample.completion.text.toList < 2 ^ 64)
    {r : SampleRecord Float} (mem : r ∈ (s.evaluateAll samples).records)
    (readsBack : ∀ x ∈ r.toJson.reals, Json.ReadsBack x) :
    r.readBack? = if Scalar.isFinite r.output.maxCost then some r.outcome else none := by
  obtain ⟨sample, here, new, evaluated, mem⟩ := mem_records_iff.1 mem
  have share : Scalar.isFinite r.output.fracIncluded = true :=
    isFinite_fracIncluded_of_evaluate (stored sample here) evaluated r mem
  rw [SampleRecord.readBack?_eq readsBack, Outcome.ofJson?_toJson, share, Bool.and_true]

/-- With sorted thresholds, and numbers that read back from their texts, the line of a record is
read back as its outcome when its threshold is finite, and not read back when it is infinite. So all
lines of a batch are read back just when all thresholds are finite or there are no records. -/
theorem evaluateAll_readBack_iff {given : List Float} {s : Settings Float}
    (sorted : sortThresholds given = .ok s.thresholds) {samples : List (Sample Float)}
    (stored : ∀ sample ∈ samples, Text.byteLength sample.completion.text.toList < 2 ^ 64)
    (readsBack : ∀ r ∈ (s.evaluateAll samples).records, ∀ x ∈ r.toJson.reals, Json.ReadsBack x) :
    let records := (s.evaluateAll samples).records
    (∀ r ∈ records,
      r.readBack? = if Scalar.isFinite r.output.maxCost then some r.outcome else none) ∧
    ((∀ r ∈ records, r.readBack? = some r.outcome) ↔
      records = [] ∨ ∀ c ∈ s.thresholds, Scalar.isFinite c = true) := by
  intro records
  have numbers := isNaN_of_mem_sortThresholds sorted
  have each : ∀ r ∈ records,
      r.readBack? = if Scalar.isFinite r.output.maxCost then some r.outcome else none :=
    fun r mem => readBack?_of_mem stored mem (readsBack r mem)
  refine ⟨each, fun all => ?_, fun finite r mem => ?_⟩
  · refine or_iff_not_imp_left.2 fun nonempty c wanted => ?_
    obtain ⟨r₀, mem⟩ := List.exists_mem_of_ne_nil _ nonempty
    obtain ⟨sample, here, new, evaluated, -⟩ := mem_records_iff.1 mem
    -- a sample with one record has one for every threshold
    rw [← (map_maxCost_evaluate numbers evaluated).1] at wanted
    obtain ⟨r, mem, rfl⟩ := List.mem_map.1 wanted
    have mem' : r ∈ records := mem_records_iff.2 ⟨sample, here, new, evaluated, mem⟩
    have read := (each r mem').symm.trans (all r mem')
    by_contra infinite
    rw [if_neg infinite] at read
    cases read
  · obtain empty | finite := finite
    · rw [empty] at mem
      cases mem
    · rw [each r mem, if_pos (finite _ (maxCost_mem_thresholds numbers samples r mem))]

/-- Settings with an infinite threshold and a finite one. -/
def unlimited : Settings Float :=
  { (Settings.defaults : Settings Float) with
    thresholds := [1 / 0, 1], engine := .greedy, firstLineOnly := false }

theorem sortThresholds_unlimited : sortThresholds [1 / 0, (1 : Float)] = .ok unlimited.thresholds := by
  have falls : [1 / 0, (1 : Float)].mergeSort (fun a b => Scalar.totalLe b a) = [1 / 0, 1] :=
    List.mergeSort_of_pairwise (by decide +kernel)
  refine sortThresholds_eq_ok_iff.2 ⟨by decide +kernel, rfl, ?_⟩
  rw [falls]
  decide +kernel

theorem records_unlimited : (unlimited.evaluateAll [nameSample [-1]]).records
    = ((chargedName (-1)).pruneGreedyAll none unlimited.thresholds).filterMap fun output =>
        output.toOption.map
          (unlimited.recordOf (nameSample [-1]) ⟨"x", ["x"], [-1]⟩ (nameTree Float)) := by
  have evaluated := (evaluate_eq unlimited (nameSample [-1])).trans
    (evaluateOn_name rfl (Nat.zero_le 1) [-1] (-1))
  exact (evaluateAll_cons_of_ok evaluated).1.trans (List.append_nil _)

theorem stored_name : ∀ sample ∈ [nameSample [(-1 : Float)]],
    Text.byteLength sample.completion.text.toList < 2 ^ 64 :=
  List.forall_mem_singleton.2 (by decide)

theorem readsBack_unlimited : ∀ r ∈ (unlimited.evaluateAll [nameSample [-1]]).records,
    ∀ x ∈ r.toJson.reals, Json.ReadsBack x := by
  rw [records_unlimited]
  decide +kernel

/-- Of the two lines of a name, that of the infinite threshold is not read back. -/
theorem evaluateAll_readBack_iff_name :
    let records := (unlimited.evaluateAll [nameSample [-1]]).records
    sortThresholds [1 / 0, (1 : Float)] = .ok unlimited.thresholds ∧
      (∀ sample ∈ [nameSample [(-1 : Float)]],
        Text.byteLength sample.completion.text.toList < 2 ^ 64) ∧
      (∀ r ∈ records, ∀ x ∈ r.toJson.reals, Json.ReadsBack x) ∧
      ((∀ r ∈ records, r.readBack? = some r.outcome) ↔
        records = [] ∨ ∀ c ∈ unlimited.thresholds, Scalar.isFinite c = true) :=
  ⟨sortThresholds_unlimited, stored_name, readsBack_unlimited,
    (evaluateAll_readBack_iff sortThresholds_unlimited stored_name readsBack_unlimited).2⟩

/-- With an infinite threshold among the sorted ones a name has a record whose line is not read back.
-/
theorem evaluateAll_infinite_unread :
    sortThresholds [1 / 0, (1 : Float)] = .ok unlimited.thresholds ∧
      ∃ r ∈ (unlimited.evaluateAll [nameSample [-1]]).records, r.readBack? = none := by
  have infinite : ∃ r ∈ (unlimited.evaluateAll [nameSample [-1]]).records,
      Scalar.isFinite r.output.maxCost = false := by
    rw [records_unlimited]
    decide +kernel
  obtain ⟨r, mem, infinite⟩ := infinite
  refine ⟨sortThresholds_unlimited, r, mem, ?_⟩
  rw [readBack?_of_mem stored_name mem (readsBack_unlimited r mem), infinite]
  rfl

end Settings

end SureCode
