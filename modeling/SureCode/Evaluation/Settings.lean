import SureCode.Pruning.Exact
import SureCode.Pruning.Greedy
import SureCode.Toml.Reader

/-!
# Settings

What an evaluation is run with. Every setting has a default, so a file without settings is a
complete one; a setting of another name is refused. The thresholds of a file are sorted when it is
read.
-/

namespace SureCode

variable {κ : Type}

/-- The settings of one evaluation. -/
structure Settings (κ : Type) where
  /-- The cost budgets, the loosest first. -/
  thresholds : List κ
  maxHoles : Option Nat
  engine : Engine
  /-- How far the exact search may go. -/
  searchLimit : Nat
  /-- Whether only the first line of a completion counts. -/
  firstLineOnly : Bool
  /-- Targets with fewer nodes are passed over. -/
  minTargetNodes : Nat
deriving Repr, DecidableEq

/-- Why there are no settings. -/
inductive SettingsError (κ : Type) where
  | malformed
  | thresholds (e : PruneError κ)
deriving DecidableEq, Repr

namespace Settings

/-- The thresholds unless others are given. -/
def defaultThresholds [Scalar κ] : List κ :=
  let half : κ := ((1 : Nat) : κ) / ((2 : Nat) : κ)
  [((8 : Nat) : κ), ((4 : Nat) : κ), ((2 : Nat) : κ), ((1 : Nat) : κ), half, half * half]

/-- The settings unless others are given. -/
def defaults [Scalar κ] : Settings κ where
  thresholds := defaultThresholds
  maxHoles := none
  engine := .exact
  searchLimit := defaultSearchLimit
  firstLineOnly := true
  minTargetNodes := 0

/-- The settings with their thresholds sorted. -/
def normalize [Scalar κ] (s : Settings κ) : Except (PruneError κ) (Settings κ) := do
  return { s with thresholds := ← sortThresholds s.thresholds }

/-- The names of the settings, in the order in which they are written. -/
def fieldNames : List String :=
  ["thresholds", "max_holes", "engine", "search_limit", "first_line_only", "min_target_nodes"]

/-- The settings in a document, given how engines and thresholds are read. -/
def decode? [Scalar κ] (readEngine : Json κ → Option Engine) (readThreshold : Json κ → Option κ)
    (json : Json κ) : Option (Settings κ) := do
  let fields ← json.toClosedFields? fieldNames
  let d : Settings κ := defaults
  let thresholds ← fields.withDefault "thresholds" d.thresholds (Json.toList? readThreshold)
  let maxHoles ← fields.withDefault "max_holes" d.maxHoles (Json.toOption? (Json.toWord? 64))
  let engine ← fields.withDefault "engine" d.engine readEngine
  let searchLimit ← fields.withDefault "search_limit" d.searchLimit (Json.toWord? 64)
  let firstLineOnly ← fields.withDefault "first_line_only" d.firstLineOnly Json.toBool?
  let minTargetNodes ← fields.withDefault "min_target_nodes" d.minTargetNodes (Json.toWord? 64)
  return { thresholds, maxHoles, engine, searchLimit, firstLineOnly, minTargetNodes }

/-- The settings in a document, as they are. -/
def ofJson? [Scalar κ] (json : Json κ) : Option (Settings κ) :=
  decode? (Json.toName? Engine.ofLabel?) Json.toScalar? json

/-- The document of some settings. -/
def toJson [Scalar κ] (s : Settings κ) : Json κ :=
  .object
    [("thresholds", .ofList .ofScalar s.thresholds), ("max_holes", .ofOption .ofNat s.maxHoles),
     ("engine", .string s.engine.label), ("search_limit", .ofNat s.searchLimit),
     ("first_line_only", .bool s.firstLineOnly), ("min_target_nodes", .ofNat s.minTargetNodes)]

/-! ### Files -/

/-- An engine in a file: its name, or a table with its name as the only key and nothing in it. -/
def engineInFile? : Json κ → Option Engine
  | .string name => Engine.ofLabel? name
  | .object [(name, .object [])] => Engine.ofLabel? name
  | .object [(name, .array [])] => Engine.ofLabel? name
  | _ => none

/-- A threshold in a file, which may be infinite or no number. -/
def thresholdInFile? [Scalar κ] : Json κ → Option κ
  | .int n => some (Json.scalarOfInt n)
  | .real x => some x
  | _ => none

/-- The settings in the text of a file. -/
def ofFile (text : String) : Except (SettingsError Float) (Settings Float) :=
  match (Toml.parse? text).bind (decode? engineInFile? thresholdInFile?) with
  | none => .error .malformed
  | some s =>
    match s.normalize with
    | .ok s => .ok s
    | .error e => .error (.thresholds e)

end Settings

end SureCode
