import SureCode.Json.Basic
import SureCode.Decimal.Style

/-!
# Written documents

Two layouts of one format: everything on one line without blanks, and one item a line with an
indentation of two blanks a level. Numbers are written in `NumberStyle.document`.
-/

namespace SureCode.Json

/-- A character inside a written string. -/
def escaped (c : Char) : List Char :=
  if c = '"' then ['\\', '"']
  else if c = '\\' then ['\\', '\\']
  else if c = '\n' then ['\\', 'n']
  else if c = '\r' then ['\\', 'r']
  else if c = '\t' then ['\\', 't']
  else if c.toNat = 8 then ['\\', 'b']
  else if c.toNat = 12 then ['\\', 'f']
  else if c.toNat < 32 then
    ['\\', 'u', '0', '0', Nat.digitChar (c.toNat / 16), Nat.digitChar (c.toNat % 16)]
  else [c]

/-- A string between double quotes. -/
def quoted (text : String) : String :=
  String.ofList ('"' :: text.toList.flatMap escaped ++ ['"'])

/-- A value that holds no other values. -/
def scalarText : Json Float → String
  | .null | .untextual => "null"
  | .bool b => if b then "true" else "false"
  | .int n => toString n
  | .real x => NumberStyle.document.render x
  | .string text => quoted text
  | .array _ => "[]"
  | .object _ => "\x7b\x7d"

mutual

/-- Appends a document on one line. -/
def writeCompact : Json Float → String → String
  | .array [], out => out ++ "[]"
  | .array (item :: items), out => writeItems items (writeCompact item (out ++ "["))
  | .object [], out => out ++ "\x7b\x7d"
  | .object ((key, value) :: fields), out =>
    writeFields fields (writeCompact value (out ++ "\x7b" ++ quoted key ++ ":"))
  | json, out => out ++ scalarText json

/-- Appends the items after the first and closes the array. -/
def writeItems : List (Json Float) → String → String
  | [], out => out ++ "]"
  | item :: items, out => writeItems items (writeCompact item (out ++ ","))

/-- Appends the fields after the first and closes the object. -/
def writeFields : List (String × Json Float) → String → String
  | [], out => out ++ "\x7d"
  | (key, value) :: fields, out =>
    writeFields fields (writeCompact value (out ++ "," ++ quoted key ++ ":"))

end

/-- The document on one line. -/
def compact (json : Json Float) : String := writeCompact json ""

/-- A new line at the given depth. -/
def newLine (depth : Nat) : String := "\n" ++ String.ofList (List.replicate (2 * depth) ' ')

mutual

/-- Appends a document that starts at the given depth, one item a line. -/
def writePretty (depth : Nat) : Json Float → String → String
  | .array [], out => out ++ "[]"
  | .array (item :: items), out =>
    prettyItems depth items (writePretty (depth + 1) item (out ++ "[" ++ newLine (depth + 1)))
  | .object [], out => out ++ "\x7b\x7d"
  | .object ((key, value) :: fields), out =>
    prettyFields depth fields
      (writePretty (depth + 1) value (out ++ "\x7b" ++ newLine (depth + 1) ++ quoted key ++ ": "))
  | json, out => out ++ scalarText json

/-- Appends the items after the first and closes the array. -/
def prettyItems (depth : Nat) : List (Json Float) → String → String
  | [], out => out ++ newLine depth ++ "]"
  | item :: items, out =>
    prettyItems depth items (writePretty (depth + 1) item (out ++ "," ++ newLine (depth + 1)))

/-- Appends the fields after the first and closes the object. -/
def prettyFields (depth : Nat) : List (String × Json Float) → String → String
  | [], out => out ++ newLine depth ++ "\x7d"
  | (key, value) :: fields, out =>
    prettyFields depth fields
      (writePretty (depth + 1) value (out ++ "," ++ newLine (depth + 1) ++ quoted key ++ ": "))

end

/-- The document with one item a line. -/
def pretty (json : Json Float) : String := writePretty 0 json ""

end SureCode.Json
