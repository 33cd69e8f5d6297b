import Mathlib
import SureCode.Proofs.Except
import SureCode.Proofs.NumericOrder
import SureCode.Pruning.Thresholds

/-!
# Sorted thresholds

Sorting leaves thresholds that are numbers and strictly fall in the total order: each value occurs
once, and of values that only compare equal the first is left. Where the total order refines the
numeric one they fall strictly in both, so sorting is a normal form (`descending`): it has the values
that were given and is accepted, and sorting it again changes nothing (`sortThresholds_normalizes`).
-/

namespace SureCode

variable {κ : Type} [Scalar κ]

/-! ### Repeated thresholds -/

theorem after_sublist (last : κ) (thresholds : List κ) :
    (dropRepeats.after last thresholds).Sublist thresholds := by
  induction thresholds generalizing last with
  | nil => exact .slnil
  | cons threshold rest ih =>
    rw [dropRepeats.after]
    split
    · exact (ih last).cons threshold
    · exact (ih threshold).cons_cons threshold

theorem dropRepeats_sublist (thresholds : List κ) : (dropRepeats thresholds).Sublist thresholds := by
  cases thresholds with
  | nil => exact .slnil
  | cons threshold rest => exact (after_sublist threshold rest).cons_cons threshold

/-- No threshold that is left equals the one before it. -/
theorem isChain_after (last : κ) (thresholds : List κ) :
    (last :: dropRepeats.after last thresholds).IsChain fun a b => (a == b) = false := by
  induction thresholds generalizing last with
  | nil => exact .singleton last
  | cons threshold rest ih =>
    rw [dropRepeats.after]
    split
    case isTrue => exact ih last
    case isFalse differ =>
      exact List.isChain_cons_cons.2 ⟨by simpa using differ, ih threshold⟩

theorem isChain_dropRepeats (thresholds : List κ) :
    (dropRepeats thresholds).IsChain fun a b => (a == b) = false := by
  cases thresholds with
  | nil => exact .nil
  | cons threshold rest => exact isChain_after threshold rest

theorem after_eq_self {last : κ} {thresholds : List κ}
    (apart : (last :: thresholds).IsChain fun a b => (a == b) = false) :
    dropRepeats.after last thresholds = thresholds := by
  induction thresholds generalizing last with
  | nil => rfl
  | cons threshold rest ih =>
    obtain ⟨differ, apart⟩ := List.isChain_cons_cons.1 apart
    rw [dropRepeats.after, differ, if_neg Bool.false_ne_true, ih apart]

/-- Thresholds that differ from their neighbours are all left. -/
theorem dropRepeats_eq_self {thresholds : List κ}
    (apart : thresholds.IsChain fun a b => (a == b) = false) :
    dropRepeats thresholds = thresholds := by
  cases thresholds with
  | nil => rfl
  | cons threshold rest => rw [dropRepeats, after_eq_self apart]

section Values

variable [LawfulScalar κ] {x last : κ} {thresholds : List κ}

/-- Of every threshold one is left that equals it, behind the last one that was left. -/
theorem exists_beq_after (numbers : ∀ y ∈ last :: thresholds, Scalar.isNaN y = false)
    (mem : x ∈ last :: thresholds) :
    ∃ y ∈ last :: dropRepeats.after last thresholds, (y == x) = true := by
  have itself : (x == x) = true := LawfulScalar.beq_self x (numbers x mem)
  induction thresholds generalizing last with
  | nil =>
    obtain rfl := List.mem_singleton.1 mem
    exact ⟨x, List.mem_cons_self, itself⟩
  | cons threshold rest ih =>
    obtain ⟨number, others⟩ := List.forall_mem_cons.1 numbers
    obtain rfl | later := List.mem_cons.1 mem
    · exact ⟨x, List.mem_cons_self, itself⟩
    rw [dropRepeats.after]
    split
    case isTrue repeated =>
      obtain rfl | later := List.mem_cons.1 later
      · exact ⟨last, List.mem_cons_self, repeated⟩
      · exact ih (List.forall_mem_cons.2 ⟨number, (List.forall_mem_cons.1 others).2⟩)
          (List.mem_cons_of_mem _ later)
    case isFalse =>
      obtain ⟨y, here, equal⟩ := ih others later
      exact ⟨y, List.mem_cons_of_mem _ here, equal⟩

theorem exists_beq_dropRepeats (numbers : ∀ y ∈ thresholds, Scalar.isNaN y = false)
    (mem : x ∈ thresholds) : ∃ y ∈ dropRepeats thresholds, (y == x) = true := by
  cases thresholds with
  | nil => cases mem
  | cons threshold rest =>
    rw [dropRepeats]
    exact exists_beq_after numbers mem

end Values

/-- Thresholds that fall in the total order and differ from their neighbours are related as
neighbours are, by a transitive relation. -/
theorem pairwise_of_neighbours {r : κ → κ → Prop} (trans : ∀ {a b c}, r a b → r b c → r a c)
    {sorted : List κ}
    (falls : sorted.Pairwise fun looser tighter => Scalar.totalLe tighter looser = true)
    (apart : sorted.IsChain fun a b => (a == b) = false)
    (step : ∀ looser ∈ sorted, ∀ tighter ∈ sorted, Scalar.totalLe tighter looser = true →
      (looser == tighter) = false → r looser tighter) : sorted.Pairwise r := by
  have : Trans r r r := ⟨trans⟩
  rw [← List.isChain_iff_pairwise, List.isChain_iff_getElem]
  intro i inside
  apply step _ (List.getElem_mem _) _ (List.getElem_mem _)
  · exact List.pairwise_iff_getElem.1 falls i (i + 1) _ inside (by omega)
  · exact List.isChain_iff_getElem.1 apart i inside

/-! ### Normal form -/

theorem mem_of_mem_descending {thresholds : List κ} {x : κ} (mem : x ∈ descending thresholds) :
    x ∈ thresholds :=
  List.mem_mergeSort.1 ((dropRepeats_sublist _).subset mem)

section Normal

variable [LawfulScalar κ] {thresholds : List κ}

theorem pairwise_descending :
    (descending thresholds).Pairwise fun looser tighter => Scalar.totalLe tighter looser = true :=
  (Scalar.pairwise_mergeSort thresholds).sublist (dropRepeats_sublist _)

/-- The normal form is its own normal form. -/
theorem descending_descending : descending (descending thresholds) = descending thresholds := by
  have sorted : (descending thresholds).mergeSort (fun a b => Scalar.totalLe b a)
      = descending thresholds := List.mergeSort_of_pairwise pairwise_descending
  rw [descending, sorted]
  exact dropRepeats_eq_self (isChain_dropRepeats _)

variable (numbers : ∀ x ∈ thresholds, Scalar.isNaN x = false)

include numbers

theorem exists_beq_descending {x : κ} (mem : x ∈ thresholds) :
    ∃ y ∈ descending thresholds, (y == x) = true :=
  exists_beq_dropRepeats (fun y mem => numbers y (List.mem_mergeSort.1 mem))
    (List.mem_mergeSort.2 mem)

/-- The normal form falls strictly in the numeric order: neighbours fall in the total order, which
refines it, and are not equal. -/
theorem pairwise_lt_descending [NumericOrder κ] :
    (descending thresholds).Pairwise fun looser tighter => tighter < looser := by
  have number {x : κ} (mem : x ∈ descending thresholds) : Scalar.isNaN x = false :=
    numbers x (mem_of_mem_descending mem)
  apply pairwise_of_neighbours ?_ pairwise_descending (isChain_dropRepeats _)
  · intro looser mem tighter mem' le differ
    exact Scalar.lt_of_totalLe (number mem') (number mem) le differ
  · exact fun first second => Scalar.lt_trans second first

end Normal

/-! ### Acceptance -/

theorem find?_isNaN_eq_none {thresholds : List κ} :
    thresholds.find? Scalar.isNaN = none ↔ ∀ x ∈ thresholds, Scalar.isNaN x = false := by
  simp only [List.find?_eq_none, Bool.not_eq_true]

theorem firstAscent?_eq_none [NumericOrder κ] {thresholds : List κ}
    (falls : thresholds.Pairwise fun looser tighter => tighter < looser) :
    firstAscent? thresholds = none := by
  induction thresholds with
  | nil => rfl
  | cons first rest ih =>
    cases rest with
    | nil => rfl
    | cons second rest =>
      obtain ⟨below, falls⟩ := List.pairwise_cons.1 falls
      rw [firstAscent?, if_neg (Scalar.lt_asymm (below second List.mem_cons_self)), ih falls]

/-- Numbers that fall strictly are accepted. -/
theorem checkThresholds_eq_ok [NumericOrder κ] {thresholds : List κ}
    (numbers : ∀ x ∈ thresholds, Scalar.isNaN x = false)
    (falls : thresholds.Pairwise fun looser tighter => tighter < looser) :
    checkThresholds thresholds = .ok () := by
  rw [checkThresholds, find?_isNaN_eq_none.2 numbers, firstAscent?_eq_none falls]

/-! ### Sorting -/

/-- What sorted thresholds come from. -/
theorem sortThresholds_eq_ok_iff {thresholds sorted : List κ} :
    sortThresholds thresholds = .ok sorted ↔
      (∀ x ∈ thresholds, Scalar.isNaN x = false) ∧ checkThresholds sorted = .ok () ∧
        sorted = dropRepeats (thresholds.mergeSort fun a b => Scalar.totalLe b a) := by
  unfold sortThresholds
  cases undefined : thresholds.find? Scalar.isNaN with
  | some x =>
    refine iff_of_false (by simp [bind, Except.bind, throw, throwThe, MonadExceptOf.throw]) ?_
    rintro ⟨clear, -⟩
    rw [find?_isNaN_eq_none.2 clear] at undefined
    cases undefined
  | none =>
    change (checkThresholds _ >>= fun _ => Except.ok _) = Except.ok sorted ↔ _
    simp only [bind_eq_ok_iff, Except.ok.injEq]
    constructor
    · rintro ⟨_, usable, rfl⟩
      exact ⟨find?_isNaN_eq_none.1 undefined, usable, rfl⟩
    · rintro ⟨-, usable, rfl⟩
      exact ⟨(), usable, rfl⟩

section Sorted

variable {thresholds sorted : List κ}

theorem isNaN_of_mem_sortThresholds (ok : sortThresholds thresholds = .ok sorted) :
    ∀ x ∈ sorted, Scalar.isNaN x = false := by
  obtain ⟨clear, -, rfl⟩ := sortThresholds_eq_ok_iff.1 ok
  exact fun x mem => clear x (mem_of_mem_descending mem)

/-- Sorted thresholds strictly fall. -/
theorem pairwise_sortThresholds [LawfulScalar κ] (ok : sortThresholds thresholds = .ok sorted) :
    sorted.Pairwise fun looser tighter => Scalar.totalLt tighter looser = true := by
  have numbers := isNaN_of_mem_sortThresholds ok
  obtain ⟨-, -, rfl⟩ := sortThresholds_eq_ok_iff.1 ok
  apply pairwise_of_neighbours ?_ pairwise_descending (isChain_dropRepeats _)
  · intro looser mem tighter _ le differ
    refine Scalar.totalLt_iff.2 ⟨le, ?_⟩
    rintro rfl
    rw [LawfulScalar.beq_self tighter (numbers tighter mem)] at differ
    exact Bool.noConfusion differ
  · exact fun first second => Scalar.totalLt_trans second first

end Sorted

/-! ### Sorting in place -/

/-- What comes of sorting in place, and what is held after it. -/
theorem run_sortInPlace (thresholds : List κ) :
    sortInPlace.run.run thresholds = match thresholds.find? Scalar.isNaN with
      | some threshold => (.error (.invalidThreshold threshold), thresholds)
      | none => (checkThresholds (descending thresholds), descending thresholds) := by
  have start : sortInPlace.run.run thresholds = (match thresholds.find? Scalar.isNaN with
      | some threshold => throw (.invalidThreshold threshold)
      | none => do
        modify descending
        MonadExcept.ofExcept (checkThresholds (← get)) :
      ExceptT (PruneError κ) (StateM (List κ)) Unit).run.run thresholds := rfl
  rw [start]
  cases thresholds.find? Scalar.isNaN with
  | some threshold => rfl
  | none =>
    have sorted : (do modify descending; MonadExcept.ofExcept (checkThresholds (← get)) :
          ExceptT (PruneError κ) (StateM (List κ)) Unit).run.run thresholds
        = (MonadExcept.ofExcept (checkThresholds (descending thresholds)) :
          ExceptT (PruneError κ) (StateM (List κ)) Unit).run.run (descending thresholds) := rfl
    dsimp only
    rw [sorted]
    cases checkThresholds (descending thresholds) <;> rfl

/-- Sorting gives what is held after sorting in place, if that does not fail. -/
theorem sortThresholds_eq_run (thresholds : List κ) :
    sortThresholds thresholds = (sortInPlace.run.run thresholds).1.map
      fun _ => (sortInPlace.run.run thresholds).2 := by
  rw [run_sortInPlace, sortThresholds]
  cases thresholds.find? Scalar.isNaN with
  | some threshold => rfl
  | none =>
    change (checkThresholds (descending thresholds) >>= fun _ =>
      Except.ok (descending thresholds)) = _
    cases checkThresholds (descending thresholds) <;> rfl

/-- Sorting in place is a normal form of thresholds that are numbers: they fall strictly after it,
have the values that were given, are accepted, and do not change when they are sorted again. A value
that is no number is refused, and the thresholds stay as they were. -/
theorem sortThresholds_normalizes [LawfulScalar κ] [NumericOrder κ] (thresholds : List κ) :
    ((∀ x ∈ thresholds, Scalar.isNaN x = false) →
        ∃ sorted, sortThresholds thresholds = .ok sorted ∧
          sortInPlace.run.run thresholds = (.ok (), sorted) ∧
          sorted.Pairwise (fun looser tighter => tighter < looser) ∧
          (∀ y ∈ sorted, y ∈ thresholds) ∧ (∀ x ∈ thresholds, ∃ y ∈ sorted, (y == x) = true) ∧
          checkThresholds sorted = .ok () ∧ sortInPlace.run.run sorted = (.ok (), sorted)) ∧
      ((∃ x ∈ thresholds, Scalar.isNaN x = true) →
        ∃ x ∈ thresholds, Scalar.isNaN x = true ∧
          sortThresholds thresholds = .error (.invalidThreshold x) ∧
          sortInPlace.run.run thresholds = (.error (.invalidThreshold x), thresholds)) := by
  constructor
  · intro numbers
    have numbers' : ∀ x ∈ descending thresholds, Scalar.isNaN x = false :=
      fun x mem => numbers x (mem_of_mem_descending mem)
    have falls := pairwise_lt_descending numbers
    have accepted := checkThresholds_eq_ok numbers' falls
    refine ⟨descending thresholds, sortThresholds_eq_ok_iff.2 ⟨numbers, accepted, rfl⟩, ?_, falls,
      fun _ => mem_of_mem_descending, fun _ => exists_beq_descending numbers, accepted, ?_⟩
    · rw [run_sortInPlace, find?_isNaN_eq_none.2 numbers]
      exact Prod.ext accepted rfl
    · rw [run_sortInPlace, find?_isNaN_eq_none.2 numbers', descending_descending]
      exact Prod.ext accepted rfl
  · rintro ⟨x, mem, undefined⟩
    cases found : thresholds.find? Scalar.isNaN with
    | none =>
      rw [find?_isNaN_eq_none.1 found x mem] at undefined
      cases undefined
    | some first =>
      have run : sortInPlace.run.run thresholds = (.error (.invalidThreshold first), thresholds) := by
        rw [run_sortInPlace, found]
      refine ⟨first, List.mem_of_find?_eq_some found, List.find?_some found, ?_, run⟩
      rw [sortThresholds_eq_run, run]
      rfl

/-- Of two zeros the positive one is left, of two halves either, and infinities are numbers. -/
theorem sortThresholds_normalizes_zeros :
    (∀ x ∈ [-0.0, 0.5, 1 / 0, (0.0 : Float), 0.5, -1 / 0], Scalar.isNaN x = false) ∧
      sortInPlace.run.run [-0.0, 0.5, 1 / 0, (0.0 : Float), 0.5, -1 / 0]
        = (.ok (), [1 / 0, 0.5, 0.0, -1 / 0]) ∧
      (∃ x ∈ [0.5, 0 / 0, (2 : Float)], Scalar.isNaN x = true) ∧
      ∃ x : Float, x.isNaN = true ∧
        sortInPlace.run.run [0.5, 0 / 0, 2] = (.error (.invalidThreshold x), [0.5, 0 / 0, 2]) := by
  have numbers : ∀ x ∈ [-0.0, 0.5, 1 / 0, (0.0 : Float), 0.5, -1 / 0], Scalar.isNaN x = false := by
    decide +kernel
  have undefined : ∃ x ∈ [0.5, 0 / 0, (2 : Float)], Scalar.isNaN x = true := by
    decide +kernel
  have falls : [-0.0, 0.5, 1 / 0, (0.0 : Float), 0.5, -1 / 0].mergeSort
      (fun a b => Scalar.totalLe b a) = [1 / 0, 0.5, 0.5, 0.0, -0.0, -1 / 0] := by
    apply Scalar.mergeSort_eq
    · decide +kernel
    · decide +kernel
  have left : descending [-0.0, 0.5, 1 / 0, (0.0 : Float), 0.5, -1 / 0]
      = [1 / 0, 0.5, 0.0, -1 / 0] := by
    rw [descending, falls]
    decide +kernel
  obtain ⟨sorted, ok, run, -⟩ := (sortThresholds_normalizes _).1 numbers
  obtain ⟨-, -, rfl⟩ := sortThresholds_eq_ok_iff.1 ok
  obtain ⟨x, -, none, -, held⟩ := (sortThresholds_normalizes _).2 undefined
  refine ⟨numbers, ?_, undefined, x, none, held⟩
  rw [run]
  exact congrArg _ left

end SureCode
