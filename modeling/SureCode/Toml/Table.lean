import SureCode.Json.Basic

/-!
# Tables of a settings file

The table that a settings file fills line by line. A key with points leads through tables that come
into being on the way. A value is never replaced, and a table has one heading at most.
-/

namespace SureCode.Toml

variable {κ : Type}

/-- How a table came into being. -/
inductive Origin where
  /-- It has a heading of its own. -/
  | headed
  /-- A longer heading leads through it. -/
  | implied
  /-- A key with points leads through it. -/
  | dotted
deriving DecidableEq, Repr

/-- What a key holds while the file is being read. -/
inductive Entry (κ : Type) where
  | value (json : Json κ)
  | table (origin : Origin) (entries : List (String × Entry κ))

/-- The entries of a table by key. -/
abbrev Entries (κ : Type) := List (String × Entry κ)

namespace Entries

/-- The entries with another entry at a key that is there. -/
def replace (entries : Entries κ) (key : String) (entry : Entry κ) : Entries κ :=
  entries.map fun (name, old) => (name, if name == key then entry else old)

/-- Changes the table that a path leads to. Tables on the way must be enterable; those that are not
there come into being. -/
def within? (enterable : Origin → Bool) (fresh : Origin) (change : Entries κ → Option (Entries κ)) :
    List String → Entries κ → Option (Entries κ)
  | [], entries => change entries
  | key :: path, entries =>
    match entries.lookup key with
    | none =>
      (within? enterable fresh change path []).map fun below =>
        entries ++ [(key, .table fresh below)]
    | some (.table origin below) =>
      if enterable origin then
        (within? enterable fresh change path below).map fun below =>
          replace entries key (.table origin below)
      else none
    | some (.value _) => none

/-- One more value, at a key with points. -/
def insert? (path : List String) (json : Json κ) (entries : Entries κ) : Option (Entries κ) := do
  let key ← path.getLast?
  let add (entries : Entries κ) : Option (Entries κ) :=
    if (entries.lookup key).isNone then some (entries ++ [(key, .value json)]) else none
  within? (fun origin => origin != .headed) .dotted add path.dropLast entries

/-- One more value, under a heading. -/
def insertUnder? (heading path : List String) (json : Json κ) (entries : Entries κ) :
    Option (Entries κ) :=
  within? (fun _ => true) .implied (insert? path json) heading entries

/-- One more heading. -/
def open? (heading : List String) (entries : Entries κ) : Option (Entries κ) := do
  let key ← heading.getLast?
  let add (entries : Entries κ) : Option (Entries κ) :=
    match entries.lookup key with
    | none => some (entries ++ [(key, .table .headed [])])
    | some (.table .implied below) => some (replace entries key (.table .headed below))
    | _ => none
  within? (fun _ => true) .implied add heading.dropLast entries

end Entries

mutual

/-- What a key holds, as a document. -/
def Entry.toJson : Entry κ → Json κ
  | .value json => json
  | .table _ entries => .object (Entry.fields entries)

/-- The fields of some entries. -/
def Entry.fields : List (String × Entry κ) → List (String × Json κ)
  | [] => []
  | (key, entry) :: entries => (key, Entry.toJson entry) :: Entry.fields entries

end

end SureCode.Toml
