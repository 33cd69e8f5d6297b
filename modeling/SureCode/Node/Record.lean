import SureCode.Json.Basic
import SureCode.Node.Basic

/-!
# Node records

The flat form in which trees are stored. A record is a tree like the node it stands for, but its
offsets are plain numbers, so that a record can hold what no node can: ends out of order, or more
tokens than log-probabilities. `Record.toNode` refuses those and names the first violation in
preorder.
-/

namespace SureCode

/-- The fields of one stored node. -/
structure RecordFields (κ : Type) where
  kind : Kind := .unknown
  code : String
  start : Nat
  stop : Nat
  gaps : List (Nat × Nat) := []
  tokens : List String := []
  logprobs : List κ := []
  nll : Option κ := none
  deleted : Option Bool := none
  name : Option String := none
deriving Repr, Inhabited

/-- A stored tree. -/
abbrev Record (κ : Type) := Tree (RecordFields κ)

/-- What a record can hold and a node cannot. -/
inductive RecordFault where
  | invertedRange (start stop : Nat)
  | tokenCount (tokens logprobs : Nat)
deriving DecidableEq, Repr

/-- The wording of a fault. -/
def RecordFault.message : RecordFault → String
  | invertedRange start stop =>
    "inverted range " ++ toString start ++ ".." ++ toString stop
  | tokenCount tokens logprobs =>
    toString tokens ++ " tokens but " ++ toString logprobs ++ " logprobs"

namespace Record

open SureCode.Tree

variable {κ : Type}

/-- The span between two offsets in order. -/
def spanOf (start stop : Nat) : Except RecordFault Span :=
  match Span.ofEnds? start stop with
  | some span => .ok span
  | none => .error (.invertedRange start stop)

/-- The construct that some fields describe: first the range is checked, then the gaps in their
order, then the number of log-probabilities. -/
def toConstruct (r : RecordFields κ) : Except RecordFault (Construct κ) := do
  let span ← spanOf r.start r.stop
  let gaps ← r.gaps.mapM fun gap => spanOf gap.1 gap.2
  if r.tokens.length ≠ r.logprobs.length then
    throw (.tokenCount r.tokens.length r.logprobs.length)
  return {
    kind := r.kind, code := r.code, span, gaps, tokens := r.tokens, logprobs := r.logprobs,
    nll := r.nll, deleted := r.deleted, name := r.name }

mutual

/-- The node that a record describes. A node is checked before its children. -/
def toNode : Record κ → Except RecordFault (Node κ)
  | node r rs => do
    let a ← toConstruct r
    let ts ← toNodes rs
    return node a ts

/-- The nodes that sibling records describe. -/
def toNodes : List (Record κ) → Except RecordFault (List (Node κ))
  | [] => return []
  | r :: rs => do
    let t ← toNode r
    let ts ← toNodes rs
    return t :: ts

end

/-- The fields that store a construct. A likelihood that is not finite is left out. -/
def ofConstruct [Scalar κ] (a : Construct κ) : RecordFields κ where
  kind := a.kind
  code := a.code
  start := a.span.start
  stop := a.span.stop
  gaps := a.gaps.map fun gap => (gap.start, gap.stop)
  tokens := a.tokens
  logprobs := a.logprobs
  nll := a.nll.filter Scalar.isFinite
  deleted := a.deleted
  name := a.name

/-- The record of a node. -/
def ofNode [Scalar κ] (t : Node κ) : Record κ := t.map ofConstruct

/-! ### Documents -/

/-- A pair of offsets. -/
def gapOfJson? : Json κ → Option (Nat × Nat)
  | .array [low, high] => do return (← low.toWord? 32, ← high.toWord? 32)
  | _ => none

/-- The names of the fields, in the order in which they are written. -/
def fieldNames : List String :=
  ["kind", "code", "start", "end", "intervals", "tokens", "logprobs", "nll", "deleted",
   "colon_name", "children"]

/-- The record in a document of the given depth. -/
def ofJsonAt? [Scalar κ] : Nat → Json κ → Option (Record κ)
  | 0, _ => none
  | depth + 1, json => do
    let fields ← json.toFields? fieldNames
    let kind ← fields.withDefault "kind" Kind.unknown (Json.toName? Kind.ofLabel?)
    let code ← fields.required "code" Json.toString?
    let start ← fields.required "start" (Json.toWord? 32)
    let stop ← fields.required "end" (Json.toWord? 32)
    let gaps ← fields.withDefault "intervals" [] (Json.toList? gapOfJson?)
    let tokens ← fields.withDefault "tokens" [] (Json.toList? Json.toString?)
    let logprobs ← fields.withDefault "logprobs" [] (Json.toList? Json.toScalar?)
    let nll ← fields.withDefault "nll" none (Json.toOption? Json.toScalar?)
    let deleted ← fields.withDefault "deleted" none (Json.toOption? Json.toBool?)
    let name ← fields.withDefault "colon_name" none (Json.toOption? Json.toString?)
    let children ← fields.withDefault "children" [] (Json.toList? (ofJsonAt? depth))
    return node { kind, code, start, stop, gaps, tokens, logprobs, nll, deleted, name } children

/-- The record in a document. -/
def ofJson? [Scalar κ] (json : Json κ) : Option (Record κ) := ofJsonAt? json.depth json

/-- The document of one record with the documents of its children. -/
def jsonOfFields [Scalar κ] (r : RecordFields κ) (children : List (Json κ)) : Json κ :=
  .object <|
    [("kind", .string r.kind.label), ("code", .string r.code), ("start", .ofNat r.start),
     ("end", .ofNat r.stop),
     ("intervals", .ofList (fun gap => .array [.ofNat gap.1, .ofNat gap.2]) r.gaps),
     ("tokens", .ofList .string r.tokens), ("logprobs", .ofList .ofScalar r.logprobs),
     ("nll", .ofOption .ofScalar r.nll), ("deleted", .ofOption .bool r.deleted)]
    ++ (match r.name with | some name => [("colon_name", .string name)] | none => [])
    ++ [("children", .array children)]

mutual

/-- The document of a record. -/
def toJson [Scalar κ] : Record κ → Json κ
  | node r rs => jsonOfFields r (toJsonAll rs)

/-- The documents of sibling records. -/
def toJsonAll [Scalar κ] : List (Record κ) → List (Json κ)
  | [] => []
  | r :: rs => toJson r :: toJsonAll rs

end

end Record

/-- The document of a node's record. -/
def Node.toJson {κ : Type} [Scalar κ] (t : Node κ) : Json κ := (Record.ofNode t).toJson

end SureCode
