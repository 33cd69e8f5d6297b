import SureCode.Json.Reader

/-!
# Words of settings files

The pieces that a settings file is made of: blanks, comments and line breaks, strings of four forms,
keys and numbers. Each reader takes a text and gives what it read with the rest, or nothing if the
text does not start with such a piece.
-/

namespace SureCode.Toml

open SureCode.Json (digitSpan hexValue? natOfDigits)

/-! ### Between values -/

/-- A space or a tab. -/
def isSpace (c : Char) : Bool := c == ' ' || c == '\t'

def skipSpaces (cs : List Char) : List Char := cs.dropWhile isSpace

/-- A character that may stand in comments and strings: no control character but the tab. -/
def isText (c : Char) : Bool := c == '\t' || 0x20 ≤ c.toNat && c.toNat != 0x7f

/-- The rest of a text after a comment, if it starts with one. -/
def skipComment : List Char → List Char
  | '#' :: cs => cs.dropWhile isText
  | cs => cs

/-- The rest of a text after a line break, if it starts with one. -/
def lineBreak? : List Char → Option (List Char)
  | '\n' :: cs => some cs
  | '\r' :: '\n' :: cs => some cs
  | _ => none

/-- Skips blanks, comments and line breaks, at most `fuel` lines. -/
def skipLines : Nat → List Char → List Char
  | 0, cs => cs
  | fuel + 1, cs =>
    let cs := skipComment (skipSpaces cs)
    match lineBreak? cs with
    | some cs => skipLines fuel cs
    | none => cs

/-! ### Strings -/

/-- The character whose number the first `digits` characters spell in hexadecimal. -/
def codePoint? (digits : Nat) (cs : List Char) : Option (Char × List Char) := do
  let values ← (cs.take digits).mapM hexValue?
  guard (values.length == digits)
  let n := values.foldl (fun n d => 16 * n + d) 0
  if h : n.isValidChar then some (Char.ofNatAux n h, cs.drop digits) else none

/-- The character of an escape after its backslash. -/
def escape? : List Char → Option (Char × List Char)
  | 'b' :: cs => some ('\x08', cs)
  | 't' :: cs => some ('\t', cs)
  | 'n' :: cs => some ('\n', cs)
  | 'f' :: cs => some ('\x0c', cs)
  | 'r' :: cs => some ('\r', cs)
  | '"' :: cs => some ('"', cs)
  | '\\' :: cs => some ('\\', cs)
  | 'u' :: cs => codePoint? 4 cs
  | 'U' :: cs => codePoint? 8 cs
  | _ => none

/-- The forms of strings. -/
structure StringForm where
  /-- The quote around it. -/
  quote : Char
  /-- Whether a backslash begins an escape. -/
  escapes : Bool
  /-- Whether it stands between three quotes and may hold line breaks. -/
  long : Bool

namespace StringForm

/-- Skips the blanks and the line breaks after a backslash at the end of a line. -/
def skipFold : Nat → List Char → List Char
  | 0, cs => cs
  | fuel + 1, cs =>
    match lineBreak? (skipSpaces cs) with
    | some cs => skipFold fuel cs
    | none => skipSpaces cs

/-- The contents of a string up to its closing quotes. Up to two more quotes before the closing ones
of a long string belong to it. -/
def contents? (form : StringForm) : Nat → List Char → Option (List Char × List Char)
  | 0, _ => none
  | fuel + 1, cs =>
    let after (c : Char) (rest : List Char) : Option (List Char × List Char) :=
      (contents? form fuel rest).map fun (text, rest) => (c :: text, rest)
    match cs with
    | [] => none
    | c :: rest =>
      if c = form.quote then
        if !form.long then some ([], rest)
        else
          let quotes := (cs.takeWhile (· == c)).length
          if quotes < 3 then after c rest
          else if quotes ≤ 5 then some (List.replicate (quotes - 3) c, cs.drop quotes)
          else none
      else if c = '\\' ∧ form.escapes then
        if form.long && (lineBreak? (skipSpaces rest)).isSome then
          contents? form fuel (skipFold fuel rest)
        else (escape? rest).bind fun (c, rest) => after c rest
      else if isText c then after c rest
      else if form.long then (lineBreak? cs).bind (after '\n')
      else none

end StringForm

/-- A string of one line. -/
def shortString? (cs : List Char) : Option (String × List Char) :=
  match cs with
  | quote :: cs =>
    if quote = '"' ∨ quote = '\'' then
      (StringForm.contents? ⟨quote, quote = '"', false⟩ (cs.length + 1) cs).map fun (text, rest) =>
        (String.ofList text, rest)
    else none
  | [] => none

/-- A string of any form. The line break right after three opening quotes does not count. -/
def string? (cs : List Char) : Option (String × List Char) :=
  match cs with
  | a :: b :: c :: rest =>
    if (a = '"' ∨ a = '\'') ∧ a = b ∧ b = c then
      let rest := (lineBreak? rest).getD rest
      (StringForm.contents? ⟨a, a = '"', true⟩ (rest.length + 1) rest).map fun (text, rest) =>
        (String.ofList text, rest)
    else shortString? cs
  | _ => shortString? cs

/-! ### Keys -/

/-- A character of a key without quotes. -/
def isKeyChar (c : Char) : Bool := c.isAlphanum || c == '_' || c == '-'

/-- One part of a key. -/
def keyPart? (cs : List Char) : Option (String × List Char) :=
  match cs.span isKeyChar with
  | ([], _) => shortString? cs
  | (name, rest) => some (String.ofList name, rest)

/-- A key: its parts between points. -/
def key? : Nat → List Char → Option (List String × List Char)
  | 0, _ => none
  | fuel + 1, cs => do
    let (part, rest) ← keyPart? (skipSpaces cs)
    match skipSpaces rest with
    | '.' :: cs =>
      let (parts, rest) ← key? fuel cs
      return (part :: parts, rest)
    | rest => return ([part], rest)

/-! ### Numbers -/

/-- Digits, with single underscores between them allowed. -/
def digits? (isDigit : Char → Bool) : List Char → Option (List Char × List Char)
  | [] => none
  | c :: '_' :: rest =>
    if isDigit c then
      (digits? isDigit rest).map fun (digits, rest) => (c :: digits, rest)
    else none
  | c :: cs =>
    if isDigit c then
      match digits? isDigit cs with
      | some (digits, rest) => some (c :: digits, rest)
      | none => some ([c], cs)
    else none

/-- The base that the letter after a zero names. -/
def radix? : Char → Option Nat
  | 'x' => some 16
  | 'o' => some 8
  | 'b' => some 2
  | _ => none

/-- Whether a character is a digit in a base. -/
def isDigitIn (base : Nat) (c : Char) : Bool :=
  match hexValue? c with
  | some d => d < base
  | none => false

/-- A whole number that fits a signed word of 64 bits. -/
def word? (n : Int) : Option (Json Float) :=
  if -0x8000000000000000 ≤ n ∧ n < 0x8000000000000000 then some (.int n) else none

/-- The fraction and the exponent of a number, each if it is there. -/
def fraction? (cs : List Char) : Option (List Char × List Char) :=
  match cs with
  | '.' :: cs => digits? Char.isDigit cs
  | _ => none

/-- The exponent of a number. -/
def exponent? (cs : List Char) : Option (Int × List Char) :=
  match cs with
  | c :: cs =>
    if c = 'e' ∨ c = 'E' then
      match cs with
      | '+' :: cs => (digits? Char.isDigit cs).map fun (ds, rest) => ((natOfDigits ds : Int), rest)
      | '-' :: cs => (digits? Char.isDigit cs).map fun (ds, rest) => (-(natOfDigits ds : Int), rest)
      | cs => (digits? Char.isDigit cs).map fun (ds, rest) => ((natOfDigits ds : Int), rest)
    else none
  | [] => none

/-- A decimal number without its sign. Its whole part has no leading zero; past the greatest double
only a negative number is taken, for the negative infinity. -/
def decimal? (negative : Bool) (cs : List Char) : Option (Json Float × List Char) := do
  let (whole, rest) ← digits? Char.isDigit cs
  guard (whole.length == 1 || whole.head? != some '0')
  let fraction := fraction? rest
  let rest := (fraction.map (·.2)).getD rest
  let exponent := exponent? rest
  let rest := (exponent.map (·.2)).getD rest
  if fraction.isNone && exponent.isNone then
    let n : Int := natOfDigits whole
    return (← word? (if negative then -n else n), rest)
  else
    let places := (fraction.map (·.1)).getD []
    let power := (exponent.map (·.1)).getD 0 - places.length
    let x := Decimal.toDouble negative ⟨natOfDigits (whole ++ places), power⟩
    guard (negative || x.isFinite)
    return (.real x, rest)

/-- A number that is not written in decimal digits or has a sign. -/
def number? (cs : List Char) : Option (Json Float × List Char) :=
  let signed (negative : Bool) (cs : List Char) : Option (Json Float × List Char) :=
    match cs with
    | 'i' :: 'n' :: 'f' :: rest => some (.real (if negative then -1.0 / 0.0 else 1.0 / 0.0), rest)
    | 'n' :: 'a' :: 'n' :: rest => some (.real (0.0 / 0.0), rest)
    | cs => decimal? negative cs
  match cs with
  | '+' :: cs => signed false cs
  | '-' :: cs => signed true cs
  | '0' :: letter :: rest =>
    match radix? letter with
    | some base => do
      let (digits, rest) ← digits? (isDigitIn base) rest
      let n := digits.foldl (fun n c => base * n + (hexValue? c).getD 0) 0
      return (← word? n, rest)
    | none => decimal? false cs
  | cs => signed false cs

end SureCode.Toml
