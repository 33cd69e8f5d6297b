import SureCode.Json.Basic
import SureCode.Decimal.Style

/-!
# Reading documents

`Json.parse?` reads a text that holds one document between blanks. A whole number keeps its value at
any size; other numbers become the nearest double, an infinite one if they are too large, which no
decoder of finite numbers accepts. Half of a surrogate pair leaves a well-formed document with a
place that is no text.

Every step consumes a character, so the length of the text bounds the depth of the recursion.
-/

namespace SureCode.Json

/-- Blanks between the parts of a document. -/
def skipBlanks (cs : List Char) : List Char :=
  cs.dropWhile fun c => c == ' ' || c == '\n' || c == '\r' || c == '\t'

/-! ### Strings -/

/-- The value of a hexadecimal digit. -/
def hexValue? (c : Char) : Option Nat :=
  if '0' ≤ c ∧ c ≤ '9' then some (c.toNat - '0'.toNat)
  else if 'a' ≤ c ∧ c ≤ 'f' then some (c.toNat - 'a'.toNat + 10)
  else if 'A' ≤ c ∧ c ≤ 'F' then some (c.toNat - 'A'.toNat + 10)
  else none

/-- The number of four hexadecimal digits. -/
def hexUnit? (a b c d : Char) : Option Nat := do
  let a ← hexValue? a
  let b ← hexValue? b
  let c ← hexValue? c
  let d ← hexValue? d
  return ((a * 16 + b) * 16 + c) * 16 + d

/-- The character that a backslash and this letter stand for. -/
def simpleEscape? : Char → Option Char
  | '"' => some '"'
  | '\\' => some '\\'
  | '/' => some '/'
  | 'b' => some '\x08'
  | 'f' => some '\x0c'
  | 'n' => some '\n'
  | 'r' => some '\r'
  | 't' => some '\t'
  | _ => none

/-- The contents of a string up to its closing quote, each unit a code point or half of a surrogate
pair, with what follows the quote. -/
def units? : List Char → Option (List Nat × List Char)
  | [] => none
  | '"' :: cs => some ([], cs)
  | '\\' :: 'u' :: a :: b :: c :: d :: cs => do
    let unit ← hexUnit? a b c d
    let (units, rest) ← units? cs
    return (unit :: units, rest)
  | '\\' :: letter :: cs => do
    let c ← simpleEscape? letter
    let (units, rest) ← units? cs
    return (c.toNat :: units, rest)
  | c :: cs => do
    guard (32 ≤ c.toNat)
    let (units, rest) ← units? cs
    return (c.toNat :: units, rest)

/-- The text of some units, with pairs of surrogates joined; none if a half is left over. -/
def textOfUnits? : List Nat → Option (List Char)
  | [] => some []
  | high :: rest =>
    if 0xD800 ≤ high ∧ high < 0xDC00 then
      match rest with
      | low :: rest =>
        if 0xDC00 ≤ low ∧ low < 0xE000 then
          (textOfUnits? rest).map
            (Char.ofNat (0x10000 + (high - 0xD800) * 0x400 + (low - 0xDC00)) :: ·)
        else none
      | [] => none
    else if 0xDC00 ≤ high ∧ high < 0xE000 then none
    else (textOfUnits? rest).map (Char.ofNat high :: ·)

/-- A string after its opening quote; the inner `none` is a string that is no text. -/
def string? (cs : List Char) : Option (Option String × List Char) := do
  let (units, rest) ← units? cs
  return ((textOfUnits? units).map String.ofList, rest)

/-! ### Numbers -/

/-- The number that some decimal digits spell. -/
def natOfDigits (digits : List Char) : Nat :=
  digits.foldl (fun n c => 10 * n + (c.toNat - '0'.toNat)) 0

/-- The digits at the start of a text. -/
def digitSpan (cs : List Char) : List Char × List Char := cs.span Char.isDigit

/-- A fraction, with the point if there is one. -/
def fraction? : List Char → Option (Option (List Char) × List Char)
  | '.' :: cs =>
    match digitSpan cs with
    | ([], _) => none
    | (digits, rest) => some (some digits, rest)
  | cs => some (none, cs)

/-- A decimal exponent, with the letter if there is one. -/
def exponent? : List Char → Option (Option Int × List Char)
  | c :: cs =>
    if c = 'e' ∨ c = 'E' then
      let (sign, cs) : Int × List Char := match cs with
        | '+' :: cs => (1, cs)
        | '-' :: cs => (-1, cs)
        | cs => (1, cs)
      match digitSpan cs with
      | ([], _) => none
      | (digits, rest) => some (some (sign * natOfDigits digits), rest)
    else some (none, c :: cs)
  | [] => some (none, [])

/-- A number without its sign. Its whole part has no leading zero. -/
def number? (negative : Bool) (cs : List Char) : Option (Json Float × List Char) := do
  let (whole, cs) := digitSpan cs
  guard (whole ≠ [] && (whole.length == 1 || whole.head? != some '0'))
  let (fraction, cs) ← fraction? cs
  let (exponent, cs) ← exponent? cs
  let digits := whole ++ fraction.getD []
  let coefficient := natOfDigits digits
  if fraction.isNone && exponent.isNone && !(negative && coefficient == 0) then
    return (.int (if negative then -coefficient else coefficient), cs)
  else
    let decimal : Decimal := ⟨coefficient, exponent.getD 0 - (fraction.getD []).length⟩
    return (.real (decimal.toDouble negative), cs)

/-! ### Values -/

/-- What follows `word`, if the text starts with it. -/
def after? (word : String) (cs : List Char) : Option (List Char) :=
  if word.toList.isPrefixOf cs then some (cs.drop word.length) else none

mutual

/-- The document at the start of a text, with what follows it. -/
def value? : Nat → List Char → Option (Json Float × List Char)
  | 0, _ => none
  | fuel + 1, cs =>
    match skipBlanks cs with
    | '"' :: cs => (string? cs).map fun (text, rest) => (text.elim .untextual .string, rest)
    | '[' :: cs =>
      match skipBlanks cs with
      | ']' :: rest => some (.array [], rest)
      | cs => (items? fuel cs).map fun (items, rest) => (.array items, rest)
    | '\x7b' :: cs =>
      match skipBlanks cs with
      | '\x7d' :: rest => some (.object [], rest)
      | cs => (fields? fuel cs).map fun (fields, rest) =>
        (match fields with | some fields => .object fields | none => .untextual, rest)
    | '-' :: cs => number? true cs
    | 'n' :: cs => (after? "ull" cs).map fun rest => (.null, rest)
    | 't' :: cs => (after? "rue" cs).map fun rest => (.bool true, rest)
    | 'f' :: cs => (after? "alse" cs).map fun rest => (.bool false, rest)
    | cs => number? false cs

/-- Items up to the closing bracket. -/
def items? : Nat → List Char → Option (List (Json Float) × List Char)
  | 0, _ => none
  | fuel + 1, cs => do
    let (item, cs) ← value? fuel cs
    match skipBlanks cs with
    | ']' :: rest => return ([item], rest)
    | ',' :: cs =>
      let (items, rest) ← items? fuel cs
      return (item :: items, rest)
    | _ => none

/-- Fields up to the closing brace; the inner `none` tells of a key that is no text. -/
def fields? : Nat → List Char → Option (Option (List (String × Json Float)) × List Char)
  | 0, _ => none
  | fuel + 1, cs =>
    match skipBlanks cs with
    | '"' :: cs => do
      let (key, cs) ← string? cs
      match skipBlanks cs with
      | ':' :: cs =>
        let (value, cs) ← value? fuel cs
        match skipBlanks cs with
        | '\x7d' :: rest => return (key.map fun key => [(key, value)], rest)
        | ',' :: cs =>
          let (fields, rest) ← fields? fuel cs
          return (do return ((← key), value) :: (← fields), rest)
        | _ => none
      | _ => none
    | _ => none

end

/-- The one document that a text holds. -/
def parse? (text : String) : Option (Json Float) :=
  let cs := text.toList
  match value? (cs.length + 1) cs with
  | some (json, rest) => if (skipBlanks rest).isEmpty then some json else none
  | none => none

end SureCode.Json
