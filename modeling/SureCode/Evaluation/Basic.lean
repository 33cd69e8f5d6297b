import SureCode.Attribution.Basic
import SureCode.Calibration.Coverage
import SureCode.Completion
import SureCode.Containment
import SureCode.Evaluation.Settings
import SureCode.Parse

/-!
# Evaluation

A sample is a target text and a completion that was generated for it. Evaluating it takes the
completion's tree, charges it with the completion's tokens, prunes it for every threshold, and asks
of each pruned tree whether it is found in the tree of the target.
-/

namespace SureCode

variable {κ : Type}

/-! ### Samples -/

/-- A target text and what was generated for it. -/
structure Sample (κ : Type) where
  id : String := ""
  target : String
  completion : Completion κ
deriving Repr, DecidableEq

/-- The sample in a document. -/
def Sample.ofJson? [Scalar κ] (json : Json κ) : Option (Sample κ) := do
  let fields ← json.toFields? ["id", "target", "completion"]
  let id ← fields.withDefault "id" "" Json.toString?
  let target ← fields.required "target" Json.toString?
  let completion ← fields.required "completion" Completion.ofJson?
  return { id, target, completion }

/-- Why a sample is passed over. -/
inductive SampleError (κ : Type) where
  | unparsablePrediction
  | unparsableTarget
  | smallTarget (nodes least : Nat)
  | attribution (e : AttributionError)
  | pruning (e : PruneError κ)
deriving DecidableEq, Repr

/-- The wording of an error, given the way to write a scalar. -/
def SampleError.message (write : κ → String) : SampleError κ → String
  | unparsablePrediction => "prediction does not parse"
  | unparsableTarget => "target does not parse"
  | smallTarget nodes least =>
    "target has " ++ toString nodes ++ " nodes, fewer than " ++ toString least
  | attribution e => e.message
  | pruning e => e.message write

/-! ### Records -/

/-- One sample under one threshold. -/
structure SampleRecord (κ : Type) where
  id : String
  maxHoles : Option Nat
  engine : Engine
  prediction : String
  target : String
  /-- Why the pruned prediction is not found in the target, if it is not. -/
  mismatch : Option Mismatch
  output : Pruning κ
deriving Repr

namespace SampleRecord

/-- Whether the pruned prediction is found in the target. -/
def contained (r : SampleRecord κ) : Bool := r.mismatch.isNone

/-- The part of a record that calibration looks at. -/
def outcome (r : SampleRecord κ) : Outcome κ where
  maxCost := r.output.maxCost
  contained := r.contained
  fracIncluded := r.output.fracIncluded

/-- The document of a containment check. -/
def verdictJson (mismatch : Option Mismatch) : Json κ :=
  match mismatch with
  | none => .object [("eval", .bool true)]
  | some m => .object [("eval", .bool false), ("reason", .string m.message)]

/-- The document of a record, given the document of its output. -/
def toJsonWith (output : Pruning κ → Json κ) (r : SampleRecord κ) : Json κ :=
  .object
    [("id", .string r.id), ("m", .ofOption .ofNat r.maxHoles), ("engine", .string r.engine.label),
     ("prediction", .string r.prediction), ("target", .string r.target),
     ("pred_in_target", verdictJson r.mismatch), ("output", output r.output)]

/-- The document of a record. -/
def toJson [Scalar κ] (r : SampleRecord κ) : Json κ := r.toJsonWith Pruning.toJson

end SampleRecord

/-! ### Evaluation -/

namespace Settings

/-- The completion that is evaluated. -/
def prepare (s : Settings κ) (c : Completion κ) : Completion κ :=
  if s.firstLineOnly then c.firstLine else c

/-- Prunes a tree for every threshold. With the exact engine one failure is the failure of all. -/
def prune [Scalar κ] (s : Settings κ) (t : Node κ) :
    Except (PruneError κ) (List (Except (PruneError κ) (Pruning κ))) :=
  match s.engine with
  | .exact => (t.pruneExact s.maxHoles s.searchLimit s.thresholds).map fun ps => ps.map .ok
  | .greedy => .ok (t.pruneGreedyAll s.maxHoles s.thresholds)

/-- Evaluates one sample: one record for every threshold that has an output. -/
def evaluate [Scalar κ] (s : Settings κ) (sample : Sample κ) :
    Except (SampleError κ) (List (SampleRecord κ)) := do
  let completion := s.prepare sample.completion
  let source := completion.text.toList
  let targetSource := Text.trimmed sample.target.toList
  let targetText := String.ofList targetSource
  let some prediction := Node.ofText? completion.text | throw .unparsablePrediction
  let some target := Node.ofText? (κ := κ) targetText | throw .unparsableTarget
  if target.size < s.minTargetNodes then
    throw (.smallTarget target.size s.minTargetNodes)
  let attributed := prediction.attribute source completion.tokens completion.logprobs
  let prediction ← attributed.toExcept.mapError .attribution
  let outputs ← (s.prune prediction).mapError .pruning
  return outputs.filterMap fun output =>
    match output with
    | .error _ => none
    | .ok output => some {
        id := sample.id, maxHoles := s.maxHoles, engine := s.engine
        prediction := completion.text, target := targetText
        mismatch := mismatch? targetSource target source output.pruned
        output }

end Settings

/-! ### Batches -/

/-- What evaluating many samples gives. -/
structure Batch (κ : Type) where
  records : List (SampleRecord κ)
  /-- The samples that were passed over, and why. -/
  skipped : List (String × SampleError κ)
deriving Repr

/-- Evaluates all samples in order. A sample that fails does not stop the others. -/
def Settings.evaluateAll [Scalar κ] (s : Settings κ) : List (Sample κ) → Batch κ
  | [] => ⟨[], []⟩
  | sample :: rest =>
    let batch := s.evaluateAll rest
    match s.evaluate sample with
    | .ok records => { batch with records := records ++ batch.records }
    | .error e => { batch with skipped := (sample.id, e) :: batch.skipped }

end SureCode
