import SureCode.Scalar

/-!
# Documents

Values of the document format in which trees, samples, records and settings are exchanged. Whole
numbers and other numbers are kept apart, since a count must be written without point and exponent.
Objects keep their fields in the order in which they were written.

Reading a document into a domain type is partial: each decoder below is an `Option`. A record may be
given as an object or, shorter, as the array of its leading fields.
-/

namespace SureCode

/-- A document whose numbers that are not whole are scalars in `κ`. -/
inductive Json (κ : Type) where
  | null
  | bool (b : Bool)
  | int (n : Int)
  | real (x : κ)
  | string (text : String)
  /-- A string that is no text, because it names half of a surrogate pair, or an object with such a
  key. -/
  | untextual
  | array (items : List (Json κ))
  | object (fields : List (String × Json κ))
deriving Inhabited, Repr

namespace Json

variable {κ α : Type}

/-! ### Depth -/

mutual

/-- The depth of nesting; a value that holds no others has the depth one. -/
def depth : Json κ → Nat
  | .array items => depthItems items + 1
  | .object fields => depthFields fields + 1
  | _ => 1

/-- The greatest depth of some items. -/
def depthItems : List (Json κ) → Nat
  | [] => 0
  | item :: items => max (depth item) (depthItems items)

/-- The greatest depth of some fields. -/
def depthFields : List (String × Json κ) → Nat
  | [] => 0
  | (_, value) :: fields => max (depth value) (depthFields fields)

end

/-! ### Writing -/

def ofNat (n : Nat) : Json κ := .int n

/-- A count that may be absent. -/
def ofOption (write : α → Json κ) : Option α → Json κ
  | none => .null
  | some a => write a

def ofList (write : α → Json κ) (xs : List α) : Json κ := .array (xs.map write)

/-- A scalar, or `null` if it is not finite. -/
def ofScalar [Scalar κ] (x : κ) : Json κ := if Scalar.isFinite x then .real x else .null

/-! ### Reading single values -/

def toBool? : Json κ → Option Bool
  | .bool b => some b
  | _ => none

def toString? : Json κ → Option String
  | .string text => some text
  | _ => none

/-- A whole number that `width` bits can hold. -/
def toWord? (width : Nat) : Json κ → Option Nat
  | .int n => if 0 ≤ n ∧ n.toNat < Nat.pow 2 width then some n.toNat else none
  | _ => none

/-- A whole number as a scalar. -/
def scalarOfInt [Scalar κ] (n : Int) : κ :=
  if 0 ≤ n then (n.toNat : κ) else Scalar.zero - (n.natAbs : κ)

/-- A finite scalar. -/
def toScalar? [Scalar κ] : Json κ → Option κ
  | .int n => let x : κ := scalarOfInt n; if Scalar.isFinite x then some x else none
  | .real x => if Scalar.isFinite x then some x else none
  | _ => none

/-- An absent value is written `null`. -/
def toOption? (read : Json κ → Option α) : Json κ → Option (Option α)
  | .null => some none
  | json => (read json).map some

def toList? (read : Json κ → Option α) : Json κ → Option (List α)
  | .array items => items.mapM read
  | _ => none

/-- One of finitely many names, given as a string or as an object with that one key and no value. -/
def toName? (read : String → Option α) : Json κ → Option α
  | .string text => read text
  | .object [(key, .null)] => read key
  | _ => none

/-! ### Reading records -/

/-- The fields of a record by name. -/
abbrev Fields (κ : Type) := List (String × Json κ)

/-- Whether no name occurs twice. -/
def distinct : List String → Bool
  | [] => true
  | name :: names => !names.contains name && distinct names

/-- The fields of a record with the given field names; fields of other names are passed over. A
field that occurs twice is refused. -/
def toFields? (names : List String) : Json κ → Option (Fields κ)
  | .object fields =>
    let known := fields.filter fun field => names.contains field.1
    if distinct (known.map (·.1)) then some known else none
  | .array items => if items.length ≤ names.length then some (names.zip items) else none
  | _ => none

/-- Like `toFields?`, but fields of other names are refused. -/
def toClosedFields? (names : List String) (json : Json κ) : Option (Fields κ) :=
  match json with
  | .object fields =>
    if fields.all fun field => names.contains field.1 then json.toFields? names else none
  | _ => json.toFields? names

/-- A field that must be present. -/
def Fields.required (fields : Fields κ) (name : String) (read : Json κ → Option α) : Option α :=
  (fields.lookup name).bind read

/-- A field with a default for the case that it is absent. -/
def Fields.withDefault (fields : Fields κ) (name : String) (default : α)
    (read : Json κ → Option α) : Option α :=
  match fields.lookup name with
  | none => some default
  | some json => read json

/-! ### Small facts -/

theorem toScalar?_ofScalar [Scalar κ] {x : κ} (finite : Scalar.isFinite x = true) :
    toScalar? (ofScalar x) = some x := by
  simp [ofScalar, toScalar?, finite]

theorem toScalar?_ofScalar_eq_none [Scalar κ] {x : κ} (infinite : Scalar.isFinite x = false) :
    toScalar? (ofScalar x) = none := by
  simp [ofScalar, toScalar?, infinite]

end Json

end SureCode
