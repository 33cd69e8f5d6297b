import SureCode.Calibration.Coverage
import SureCode.Calibration.Tail

/-!
# Calibration

For every error rate the loosest threshold whose coverage is backed by the tail bound: with `k`
failures allowed among its samples, the coverage must reach the share of the other samples.
-/

namespace SureCode

variable {κ : Type}

/-- What was chosen for one error rate. -/
structure CalibrationPoint (κ : Type) where
  errorRate : κ
  /-- The loosest threshold that reached its target, if one did. -/
  threshold : Option (Coverage κ)
  /-- The coverage that it had to reach. -/
  target : Option κ
deriving Repr

/-- The document of a point. -/
def CalibrationPoint.toJson [Scalar κ] (p : CalibrationPoint κ) : Json κ :=
  .object
    [("epsilon", .ofScalar p.errorRate), ("threshold", .ofOption Coverage.toJson p.threshold),
     ("target_coverage", .ofOption .ofScalar p.target)]

/-- The confidence unless another is given. -/
def defaultConfidence [Scalar κ] : κ := ((1 : Nat) : κ) / ((10 : Nat) : κ)

/-- The coverage that a threshold must reach when it may fail for `failures` of its samples. -/
def targetCoverage [Scalar κ] (failures samples : Nat) : κ :=
  Tally.hundred - (failures : κ) / (samples : κ) * Tally.hundred

/-! ### Error rates -/

/-- So many evenly spaced values between two ends, both included. -/
def evenlySpaced [Scalar κ] (start stop : κ) (count : Nat) : List κ :=
  if count = 1 then [start]
  else
    let step := (stop - start) / ((count - 1 : Nat) : κ)
    (List.range count).map fun i : Nat => start + step * (i : κ)

/-- The error rates unless others are given: fifty from three to sixty-five per cent. -/
def defaultErrorRates [Scalar κ] : List κ :=
  evenlySpaced (((3 : Nat) : κ) / ((100 : Nat) : κ)) (((65 : Nat) : κ) / ((100 : Nat) : κ)) 50

/-! ### Points -/

variable [LogScalar κ]

/-- The first coverage that reaches its target, with that target. Coverages of too few samples are
passed over. -/
def firstBacked (rate confidence : κ) :
    List (Coverage κ) → Except (TailError κ) (Option (Coverage κ × κ))
  | [] => .ok none
  | c :: rest =>
    match Tail.bound c.samples rate confidence with
    | .error (.tooFewSamples _ _ _) => firstBacked rate confidence rest
    | .error e => .error e
    | .ok failures =>
      let target := targetCoverage failures c.samples
      if target ≤ c.coverage then .ok (some (c, target)) else firstBacked rate confidence rest

/-- The point of one error rate. -/
def calibrationPoint (coverages : List (Coverage κ)) (confidence rate : κ) :
    Except (TailError κ) (CalibrationPoint κ) := do
  let backed ← firstBacked rate confidence coverages
  return ⟨rate, backed.map (·.1), backed.map (·.2)⟩

/-- One point for every error rate, from coverages of which the loosest comes first. -/
def calibrate (coverages : List (Coverage κ)) (rates : List κ) (confidence : κ) :
    Except (TailError κ) (List (CalibrationPoint κ)) :=
  rates.mapM (calibrationPoint coverages confidence)

end SureCode
