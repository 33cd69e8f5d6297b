import SureCode.Kind
import SureCode.Text.Letter
import SureCode.Text.Numeral
import SureCode.Token.Cursor

/-!
# Lexemes

The tokens with text: string literals, numbers, words and marks. `Lexeme.scan` reads the one at a
cursor. A mark is the longest spelling in a table. A character that begins no lexeme, and a string
literal without its closing quote, are of the kind `unknown`.
-/

namespace SureCode.Lexeme

open Cursor

/-! ### Numbers -/

/-- A digit of a number or the underscore that groups digits; with `hex` also the six letters. -/
def isDigit (hex : Bool) (ch : Char) : Bool :=
  ch.isDigit || ch == '_' ||
    hex && ('a' ≤ ch && ch ≤ 'f' || 'A' ≤ ch && ch ≤ 'F')

/-- Past the digits of a number. -/
def digits (hex : Bool) (c : Cursor) : Cursor := c.skipWhile (isDigit hex)

/-- Past a decimal exponent: a letter, an optional sign and at least one digit. -/
def exponent? (c : Cursor) : Option Cursor :=
  let signed := c.second.any fun ch => ch == '+' || ch == '-'
  if c.peek.any fun ch => ch == 'e' || ch == 'E' then
    if c.second.any Char.isDigit then some (digits false c.advance)
    else if signed && c.third.any Char.isDigit then some (digits false c.advance.advance)
    else none
  else none

/-- Past the suffix of an imaginary number, and whether there is one. -/
def imaginary (c : Cursor) : Bool × Cursor := c.eatIf fun ch => ch == 'j' || ch == 'J'

/-- What may follow the fraction of a number. -/
def floatTail (c : Cursor) : Kind × Cursor :=
  (.floatNumber, (imaginary ((exponent? c).getD c)).2)

/-- A number whose first digit has been read. -/
def number (first : Char) (c : Cursor) : Kind × Cursor :=
  if first == '0' && c.peek.any fun ch => "xXoObB".toList.contains ch then
    let hex := c.peek.any fun ch => ch == 'x' || ch == 'X'
    (.intNumber, digits hex c.advance)
  else
    let d := digits false c
    let (pointed, e) := d.eat '.'
    if pointed then floatTail (digits false e)
    else match exponent? d with
      | some e => floatTail e
      | none =>
        let (isImaginary, e) := imaginary d
        (if isImaginary then .floatNumber else .intNumber, e)

/-! ### String literals -/

def isQuote (ch : Char) : Bool := ch == '\'' || ch == '"'

/-- The letters that may stand before the opening quote. -/
def isStringLetter (ch : Char) : Bool := "rRbBuUfF".toList.contains ch

/-- Whether a string literal begins here: with a quote, or with one or two letters and a quote. -/
def startsString (c : Cursor) : Bool :=
  c.peek.any isQuote
    || c.peek.any isStringLetter && c.second.any isQuote
    || c.peek.any isStringLetter && c.second.any isStringLetter && c.third.any isQuote

/-- The contents of a string literal and its closing quote, and whether it is closed. A backslash
takes the next character with it. A literal between single quotes ends with its line. -/
def stringBody (quote : Char) (triple : Bool) : Nat → List Char → Bool × Cursor
  | offset, [] => (false, ⟨offset, []⟩)
  | offset, ['\\'] => (false, ⟨offset + 1, []⟩)
  | offset, '\\' :: ch :: cs => stringBody quote triple (offset + 1 + ch.utf8Size) cs
  | offset, ch :: cs =>
    let after := offset + ch.utf8Size
    if isBreak ch && !triple then (false, ⟨after, cs⟩)
    else if ch == quote then
      if !triple then (true, ⟨after, cs⟩)
      else match cs with
        | second :: third :: rest =>
          if second == quote && third == quote then
            (true, ⟨after + second.utf8Size + third.utf8Size, rest⟩)
          else stringBody quote triple after (second :: third :: rest)
        | cs => stringBody quote triple after cs
    else stringBody quote triple after cs

/-- The kind of a literal whose opening quote has been read. -/
def quotedString (quote : Char) (c : Cursor) : Kind × Cursor :=
  let triple := c.peek == some quote && c.second == some quote
  let c := if triple then c.advance.advance else c
  let (closed, d) := stringBody quote triple c.offset c.rest
  (if closed then .string else .unknown, d)

/-- A string literal whose first character has been read. -/
def string (first : Char) (c : Cursor) : Kind × Cursor :=
  if isQuote first then quotedString first c
  else
    let c := c.skipWhile fun ch => !isQuote ch
    match c.peek with
    | some quote => quotedString quote c.advance
    | none => (.unknown, c)

/-! ### Words -/

def startsWord (ch : Char) : Bool := Text.isLetter ch || ch == '_'

def continuesWord (ch : Char) : Bool :=
  Text.isLetter ch || Text.isNumeral ch || ch == '_'

/-- A word whose first character has been read: a keyword, or else a name. -/
def word (first : Char) (c : Cursor) : Kind × Cursor :=
  let text := String.ofList (first :: c.rest.takeWhile continuesWord)
  ((Kind.ofKeyword? text).getD .name, c.skipWhile continuesWord)

/-! ### Marks -/

/-- The operators that assign to their left side. -/
def augmentedMarks : List String :=
  ["**=", "//=", "<<=", ">>=", "+=", "-=", "*=", "/=", "%=", "@=", "&=", "|=", "^="]

/-- All marks with their kinds. -/
def marks : List (List Char × Kind) :=
  augmentedMarks.map (fun text => (text.toList, .augOp))
    ++ Kind.all.filterMap fun kind => kind.markText?.map fun text => (text.toList, kind)

/-- All marks with their kinds, longer ones first. -/
def marksByLength : List (List Char × Kind) :=
  marks.filter (·.1.length == 3) ++ marks.filter (·.1.length == 2)
    ++ marks.filter (·.1.length == 1)

/-- The longest mark that a text starts with. -/
def mark? (cs : List Char) : Option (List Char × Kind) :=
  marksByLength.find? fun entry => entry.1.isPrefixOf cs

/-- The mark at a cursor whose first character, already read, is `first`. -/
def mark (first : Char) (c : Cursor) : Kind × Cursor :=
  match mark? (first :: c.rest) with
  | some (text, kind) =>
    (kind, if text.length = 3 then c.advance.advance else if text.length = 2 then c.advance else c)
  | none => (.unknown, c)

/-! ### Any lexeme -/

/-- The lexeme at a cursor that is not at the end. -/
def scan (c : Cursor) : Kind × Cursor :=
  match c.peek with
  | none => (.eof, c)
  | some first =>
    if startsString c then string first c.advance
    else if first.isDigit then number first c.advance
    else if first == '.' && c.second.any Char.isDigit then floatTail (digits false c.advance)
    else if startsWord first then word first c.advance
    else mark first c.advance

/-! ### Going forward -/

theorem length_digits_le (hex : Bool) (c : Cursor) :
    (digits hex c).rest.length ≤ c.rest.length :=
  c.length_skipWhile_le _

theorem length_exponent?_le {c d : Cursor} (found : exponent? c = some d) :
    d.rest.length ≤ c.rest.length := by
  have once := c.length_advance_le
  have twice := c.advance.length_advance_le
  have first := length_digits_le false c.advance
  have second := length_digits_le false c.advance.advance
  unfold exponent? at found
  dsimp only at found
  repeat' split at found
  all_goals first
    | (cases found; omega)
    | cases found

theorem length_imaginary_le (c : Cursor) : (imaginary c).2.rest.length ≤ c.rest.length :=
  length_eatIf_le _ c

theorem length_floatTail_le (c : Cursor) : (floatTail c).2.rest.length ≤ c.rest.length := by
  unfold floatTail
  refine Nat.le_trans (length_imaginary_le _) ?_
  cases found : exponent? c with
  | none => exact Nat.le_refl _
  | some d => exact length_exponent?_le found

theorem length_number_le (first : Char) (c : Cursor) :
    (number first c).2.rest.length ≤ c.rest.length := by
  unfold number
  split
  · exact Nat.le_trans (length_digits_le _ _) c.length_advance_le
  · have run := length_digits_le false c
    have point := length_eatIf_le (· == '.') (digits false c)
    dsimp only [eat]
    split
    · have fraction := length_digits_le false ((digits false c).eatIf (· == '.')).2
      exact Nat.le_trans (length_floatTail_le _) (by omega)
    · split
      · rename_i found
        exact Nat.le_trans (length_floatTail_le _)
          (Nat.le_trans (length_exponent?_le found) run)
      · exact Nat.le_trans (length_imaginary_le _) run

theorem length_stringBody_le (quote : Char) (triple : Bool) (offset : Nat) (cs : List Char) :
    (stringBody quote triple offset cs).2.rest.length ≤ cs.length := by
  fun_induction stringBody quote triple offset cs <;> simp_all <;> omega

theorem length_quotedString_le (quote : Char) (c : Cursor) :
    (quotedString quote c).2.rest.length ≤ c.rest.length := by
  unfold quotedString
  refine Nat.le_trans (length_stringBody_le _ _ _ _) ?_
  split
  · exact Nat.le_trans c.advance.length_advance_le c.length_advance_le
  · exact Nat.le_refl _

theorem length_string_le (first : Char) (c : Cursor) :
    (string first c).2.rest.length ≤ c.rest.length := by
  unfold string
  split
  · exact length_quotedString_le first c
  · have skipped := c.length_skipWhile_le fun ch => !isQuote ch
    dsimp only
    split
    · exact Nat.le_trans (length_quotedString_le _ _)
        (Nat.le_trans (length_advance_le _) skipped)
    · exact skipped

theorem length_mark_le (first : Char) (c : Cursor) :
    (mark first c).2.rest.length ≤ c.rest.length := by
  have once := c.length_advance_le
  have twice := c.advance.length_advance_le
  unfold mark
  repeat' split
  all_goals simp only
  all_goals omega

/-- A lexeme has at least one character. -/
theorem length_scan_lt {c : Cursor} (more : c.rest ≠ []) :
    (scan c).2.rest.length < c.rest.length := by
  have step := length_advance_lt more
  unfold scan
  split
  · rename_i none
    simp [peek, more] at none
  · split
    · exact Nat.lt_of_le_of_lt (length_string_le _ _) step
    split
    · exact Nat.lt_of_le_of_lt (length_number_le _ _) step
    split
    · exact Nat.lt_of_le_of_lt
        (Nat.le_trans (length_floatTail_le _) (length_digits_le _ _)) step
    split
    · exact Nat.lt_of_le_of_lt (length_skipWhile_le _ _) step
    · exact Nat.lt_of_le_of_lt (length_mark_le _ _) step

end SureCode.Lexeme
