import SureCode.Text.Combining
import SureCode.Text.Printable

/-!
# Quoted text

Texts and characters as messages and tree dumps show them: between quotes, on one line, with every
character that has no form of its own spelled by an escape. The quote that encloses the text is
escaped and the other one is not.
-/

namespace SureCode.Text

/-- A code point spelled by its number, in lower-case hexadecimal without padding. -/
def codeEscape (c : Char) : List Char :=
  ['\\', 'u', '\x7b'] ++ Nat.toDigits 16 c.toNat ++ ['\x7d']

/-- The spelling of one character between two copies of `mark`. -/
def escaped (mark c : Char) : List Char :=
  if c = '\n' then ['\\', 'n']
  else if c = '\r' then ['\\', 'r']
  else if c = '\t' then ['\\', 't']
  else if c = '\x00' then ['\\', '0']
  else if c = '\\' ∨ c = mark then ['\\', c]
  else if isCombining c || !isPrintable c then codeEscape c
  else [c]

/-- A text between double quotes. -/
def quoted (text : String) : String :=
  String.ofList ('"' :: text.toList.flatMap (escaped '"') ++ ['"'])

/-- A character between single quotes. -/
def quotedChar (c : Char) : String :=
  String.ofList ('\'' :: escaped '\'' c ++ ['\''])

end SureCode.Text
