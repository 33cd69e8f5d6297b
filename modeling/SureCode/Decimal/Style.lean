import SureCode.Decimal.Shortest

/-!
# Number texts

How the shortest decimal of a double is put into characters. A `NumberStyle` holds the decisions of
one format: the written documents use `NumberStyle.document`, messages use `NumberStyle.message`.
-/

namespace SureCode

/-- The decisions of one way to write numbers. -/
structure NumberStyle where
  /-- Which of two equally near shortest decimals is written. -/
  tie : Decimal.Tie
  /-- Whether a number whose decimal point stands after so many digits is written without exponent.
  -/
  positional : Int → Bool
  /-- What follows the last digit of a whole number written without exponent. -/
  wholeMark : String
  nan : String
  infinity : String

namespace NumberStyle

/-- Numbers in written documents: without exponent from `0.00001` up to sixteen digits before the
point, whole numbers marked by `.0`, and nothing but `null` for what is no finite number. -/
def document : NumberStyle where
  tie := .toEven
  positional point := -5 < point && point ≤ 16
  wholeMark := ".0"
  nan := "null"
  infinity := "null"

/-- Numbers in messages: never an exponent, and whole numbers without a point. -/
def message : NumberStyle where
  tie := .up
  positional _ := true
  wholeMark := ""
  nan := "NaN"
  infinity := "inf"

/-- Digits with the decimal point after `point` of them. -/
def placed (style : NumberStyle) (digits : List Char) (point : Int) : List Char :=
  if point ≤ 0 then '0' :: '.' :: List.replicate (-point).toNat '0' ++ digits
  else if point < digits.length then
    digits.take point.toNat ++ '.' :: digits.drop point.toNat
  else digits ++ List.replicate (point.toNat - digits.length) '0' ++ style.wholeMark.toList

/-- Digits with the decimal point after the first of them, and an exponent. -/
def withExponent (digits : List Char) (point : Int) : List Char :=
  digits.take 1 ++ (if digits.length ≤ 1 then [] else '.' :: digits.drop 1)
    ++ 'e' :: (toString (point - 1)).toList

/-- The magnitude of a nonzero number. -/
def magnitude (style : NumberStyle) (d : Decimal) : List Char :=
  let digits := d.digits
  let point := digits.length + d.exponent
  if style.positional point then style.placed digits point else withExponent digits point

/-- The place of the sign among the bits of a double. -/
def signBit : Nat := 0x8000000000000000

/-- The text of a double. -/
def render (style : NumberStyle) (x : Float) : String :=
  let bits := x.toBits.toNat
  let signed (text : String) : String := if signBit ≤ bits then "-" ++ text else text
  if x.isNaN then style.nan
  else if !x.isFinite then
    if style.infinity == style.nan then style.infinity else signed style.infinity
  else if bits % signBit = 0 then signed ("0" ++ style.wholeMark)
  else signed (String.ofList (style.magnitude (Decimal.shortest style.tie (.ofBits bits))))

end NumberStyle

/-! ### Reading -/

namespace Decimal

/-- The double nearest to a decimal, ties to even. A decimal far outside the range of doubles is
settled by its size alone. -/
def toDouble (negative : Bool) (d : Decimal) : Float :=
  let size := (Nat.log2 d.coefficient : Int) * 1233 / 4096 + d.exponent
  let magnitude : Float :=
    if d.coefficient = 0 ∨ size < -350 then 0.0
    else if 320 < size then 1.0 / 0.0
    else Float.ofScientific d.coefficient (d.exponent < 0) d.exponent.natAbs
  if negative then -magnitude else magnitude

end Decimal

end SureCode
