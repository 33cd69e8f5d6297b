import SureCode.Decimal.Style

/-!
# Number words

Numbers as they are typed as one word: counts in decimal digits, and doubles with point and exponent
where wanted, which may also be infinite or no number.
-/

namespace SureCode.Decimal

/-- The number that some decimal digits spell. -/
def ofDigits (digits : List Char) : Nat :=
  digits.foldl (fun n c => 10 * n + (c.toNat - '0'.toNat)) 0

/-- A whole number that a word of 64 bits can hold. A plus may precede it. -/
def countOfWord? (word : String) : Option Nat :=
  let digits := match word.toList with
    | '+' :: cs => cs
    | cs => cs
  if digits.isEmpty || !digits.all Char.isDigit then none
  else
    let n := ofDigits digits
    if n < Nat.pow 2 64 then some n else none

/-- What an exponent adds to the power of ten; nothing is added where there is none. -/
def powerOfWord? : List Char → Option Int
  | [] => some 0
  | c :: cs =>
    if c = 'e' ∨ c = 'E' then
      let (sign, digits) : Int × List Char := match cs with
        | '+' :: cs => (1, cs)
        | '-' :: cs => (-1, cs)
        | cs => (1, cs)
      if digits.isEmpty || !digits.all Char.isDigit then none
      else some (sign * ofDigits digits)
    else none

/-- A number without its sign. There is a digit on one side of the point at least. -/
def magnitudeOfWord? (cs : List Char) : Option Decimal :=
  let (whole, rest) := cs.span Char.isDigit
  let (places, rest) := match rest with
    | '.' :: cs => cs.span Char.isDigit
    | cs => ([], cs)
  let digits := whole ++ places
  if digits.isEmpty then none
  else (powerOfWord? rest).map fun power => ⟨ofDigits digits, power - places.length⟩

/-- A double. -/
def doubleOfWord? (word : String) : Option Float :=
  let (negative, cs) : Bool × List Char := match word.toList with
    | '+' :: cs => (false, cs)
    | '-' :: cs => (true, cs)
    | cs => (false, cs)
  let name := String.ofList (cs.map Char.toLower)
  if name = "inf" ∨ name = "infinity" then some (if negative then -1.0 / 0.0 else 1.0 / 0.0)
  else if name = "nan" then some (0.0 / 0.0)
  else (magnitudeOfWord? cs).map (toDouble negative)

end SureCode.Decimal
