import SureCode.Toml.Lexical
import SureCode.Toml.Table

/-!
# Reading settings files

`Toml.parse?` reads a settings file into a document. Date-times and arrays of tables, which no
setting has, are refused like all else that is not well formed.

Every step consumes a character, so the length of the text bounds the depth of the recursion.
-/

namespace SureCode.Toml

mutual

/-- The value at the start of a text. -/
def value? : Nat → List Char → Option (Json Float × List Char)
  | 0, _ => none
  | fuel + 1, cs =>
    match cs with
    | '[' :: cs => (items? fuel cs).map fun (items, rest) => (.array items, rest)
    | '\x7b' :: cs =>
      match skipSpaces cs with
      | '\x7d' :: rest => some (.object [], rest)
      | cs => (fields? fuel [] cs).map fun (entries, rest) => (.object (Entry.fields entries), rest)
    | 't' :: 'r' :: 'u' :: 'e' :: rest => some (.bool true, rest)
    | 'f' :: 'a' :: 'l' :: 's' :: 'e' :: rest => some (.bool false, rest)
    | cs =>
      match string? cs with
      | some (text, rest) => some (.string text, rest)
      | none => number? cs

/-- Items up to the closing bracket. A comma may follow the last. -/
def items? : Nat → List Char → Option (List (Json Float) × List Char)
  | 0, _ => none
  | fuel + 1, cs =>
    match skipLines (cs.length + 1) cs with
    | ']' :: rest => some ([], rest)
    | cs => do
      let (item, rest) ← value? fuel cs
      match skipLines (rest.length + 1) rest with
      | ']' :: rest => return ([item], rest)
      | ',' :: rest =>
        let (items, rest) ← items? fuel rest
        return (item :: items, rest)
      | _ => none

/-- Fields up to the closing brace, put among others. No comma follows the last. -/
def fields? : Nat → Entries Float → List Char → Option (Entries Float × List Char)
  | 0, _, _ => none
  | fuel + 1, entries, cs => do
    let (path, rest) ← key? (cs.length + 1) cs
    match rest with
    | '=' :: rest =>
      let (json, rest) ← value? fuel (skipSpaces rest)
      let entries ← entries.insert? path json
      match skipSpaces rest with
      | '\x7d' :: rest => return (entries, rest)
      | ',' :: rest => fields? fuel entries rest
      | _ => none
    | _ => none

end

/-- How far a file has been read: the heading of the current lines and all entries so far. -/
structure Progress where
  heading : List String
  entries : Entries Float

/-- The entry or heading at the start of a line, if there is one. -/
def expression? (p : Progress) (cs : List Char) : Option (Progress × List Char) :=
  match cs with
  | '[' :: cs => do
    let (heading, rest) ← key? (cs.length + 1) cs
    match rest with
    | ']' :: rest => return (⟨heading, ← p.entries.open? heading⟩, rest)
    | _ => none
  | cs =>
    if cs.isEmpty || cs.head? == some '#' || (lineBreak? cs).isSome then some (p, cs)
    else do
      let (path, rest) ← key? (cs.length + 1) cs
      match rest with
      | '=' :: rest =>
        let rest := skipSpaces rest
        let (json, rest) ← value? (rest.length + 1) rest
        return ({ p with entries := ← p.entries.insertUnder? p.heading path json }, rest)
      | _ => none

/-- Reads line by line to the end. -/
def lines? : Nat → Progress → List Char → Option (Entries Float)
  | 0, _, _ => none
  | fuel + 1, p, cs => do
    let (p, rest) ← expression? p (skipSpaces cs)
    match skipComment (skipSpaces rest) with
    | [] => return p.entries
    | rest => lines? fuel p (← lineBreak? rest)

/-- The document of a settings file. A mark of the byte order at its start is passed over. -/
def parse? (text : String) : Option (Json Float) :=
  let cs := match text.toList with
    | '\uFEFF' :: cs => cs
    | cs => cs
  (lines? (cs.length + 1) ⟨[], []⟩ cs).map fun entries => .object (Entry.fields entries)

end SureCode.Toml
