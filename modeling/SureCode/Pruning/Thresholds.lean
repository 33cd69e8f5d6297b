import SureCode.Pruning.Basic

/-!
# Thresholds

A list of thresholds is usable when each of them is a number and none is larger than the one before
it: the loosest comes first.
-/

namespace SureCode

variable {κ : Type} [Scalar κ]

/-- The first two neighbours of which the second is larger. -/
def firstAscent? : List κ → Option (κ × κ)
  | previous :: next :: rest =>
    if previous < next then some (previous, next) else firstAscent? (next :: rest)
  | _ => none

/-- Accepts the usable lists of thresholds. -/
def checkThresholds (thresholds : List κ) : Except (PruneError κ) Unit :=
  match thresholds.find? Scalar.isNaN with
  | some threshold => .error (.invalidThreshold threshold)
  | none =>
    match firstAscent? thresholds with
    | some (previous, next) => .error (.unsortedThresholds previous next)
    | none => .ok ()

/-- Drops every threshold that equals the last one that was retained. -/
def dropRepeats : List κ → List κ
  | [] => []
  | threshold :: rest => threshold :: after threshold rest
where
  /-- What is retained of a list behind a threshold. -/
  after (last : κ) : List κ → List κ
    | [] => []
    | threshold :: rest =>
      if last == threshold then after last rest else threshold :: after threshold rest

/-- The thresholds from the loosest to the tightest, each numeric value once. -/
def sortThresholds (thresholds : List κ) : Except (PruneError κ) (List κ) := do
  if let some threshold := thresholds.find? Scalar.isNaN then
    throw (.invalidThreshold threshold)
  let sorted := dropRepeats (thresholds.mergeSort fun a b => Scalar.totalLe b a)
  checkThresholds sorted
  return sorted

/-! ### Sorting in place -/

/-- The thresholds from the loosest to the tightest without repeats. -/
def descending (thresholds : List κ) : List κ :=
  dropRepeats (thresholds.mergeSort fun a b => Scalar.totalLe b a)

/-- Sorts the thresholds that are held. They are looked through for what is no number before
anything is changed, and accepted after it. -/
def sortInPlace : ExceptT (PruneError κ) (StateM (List κ)) Unit := do
  match (← get).find? Scalar.isNaN with
  | some threshold => throw (.invalidThreshold threshold)
  | none =>
    modify descending
    MonadExcept.ofExcept (checkThresholds (← get))

end SureCode
