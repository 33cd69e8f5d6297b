/-!
# Shortest decimals

A double stands for all reals that round to it. Of the decimals in that interval `shortest` takes
one with the fewest digits, and of those the one nearest to the double.

A double is `mantissa * 2 ^ exponent`. In quarters of the last binary place the double is at `4 *
mantissa` and its interval reaches from `Binary.low` to `Binary.high`, both ends included when the
mantissa is even. A decimal with the exponent `e` is a point of the grid of multiples of `10 ^ e`;
if any point of a grid lies in the interval, then so does one of the two neighbours of the double.
So it is enough to test two neighbours on the grids for one digit, two digits, and so on.
-/

namespace SureCode

/-- The decimal `coefficient * 10 ^ exponent`. -/
structure Decimal where
  coefficient : Nat
  exponent : Int
deriving DecidableEq, Repr

namespace Decimal

/-- Which of two equally near decimals to take. -/
inductive Tie where
  | toEven
  | up
deriving DecidableEq, Repr

/-- The magnitude of a finite double: `mantissa * 2 ^ exponent`, with the flag that the gap below it
is half as wide as the gap above it. -/
structure Binary where
  mantissa : Nat
  exponent : Int
  narrowBelow : Bool
deriving DecidableEq, Repr

namespace Binary

/-- The magnitude with the given bit pattern. -/
def ofBits (bits : Nat) : Binary :=
  let field : Nat := bits / Nat.pow 2 52 % Nat.pow 2 11
  let fraction : Nat := bits % Nat.pow 2 52
  if field = 0 then ⟨fraction, -1074, false⟩
  else ⟨Nat.pow 2 52 + fraction, (field : Int) - 1075, fraction == 0 && 1 < field⟩

/-- The lower end of the interval that rounds to the double, in quarters of the last place. -/
def low (b : Binary) : Nat := 4 * b.mantissa - (if b.narrowBelow then 1 else 2)

/-- The upper end of the interval that rounds to the double, in quarters of the last place. -/
def high (b : Binary) : Nat := 4 * b.mantissa + 2

/-- The binary unit, a quarter of the last place, and the unit of the grid of multiples of
`10 ^ exponent`, both multiplied by one common factor that makes them whole. -/
def units (b : Binary) (exponent : Int) : Nat × Nat :=
  let power := b.exponent - 2
  (Nat.pow 2 power.toNat * Nat.pow 10 (-exponent).toNat,
   Nat.pow 10 exponent.toNat * Nat.pow 2 (-power).toNat)

/-- Whether the double is below `10 ^ exponent`. -/
def isBelow (b : Binary) (exponent : Int) : Bool :=
  let (binary, grid) := b.units exponent
  4 * b.mantissa * binary < grid

/-- The least of the next few exponents whose power of ten exceeds the double. -/
def pointFrom (b : Binary) : Nat → Int → Int
  | 0, guess => guess
  | tries + 1, guess => if b.isBelow guess then guess else b.pointFrom tries (guess + 1)

/-- The exponent of the least power of ten above the double. The guess comes from the binary
logarithm and is at most two too small. -/
def point (b : Binary) : Int :=
  b.pointFrom 3 ((Nat.log2 (4 * b.mantissa) + b.exponent - 2) * 1233 / 4096)

/-- The neighbour of the double on the grid of multiples of `10 ^ exponent` to write it with, if one
of the two rounds to the double. -/
def neighbour? (tie : Tie) (b : Binary) (exponent : Int) : Option Nat :=
  let (binary, grid) := b.units exponent
  let value := 4 * b.mantissa * binary
  let below := value / grid
  let closed := b.mantissa % 2 == 0
  let lowIn := b.low * binary < below * grid || closed && b.low * binary == below * grid
  let above := (below + 1) * grid
  let highIn := above < b.high * binary || closed && above == b.high * binary
  let rest := 2 * (value - below * grid)
  match lowIn, highIn with
  | false, false => none
  | true, false => some below
  | false, true => some (below + 1)
  | true, true =>
    if rest < grid then some below
    else if grid < rest then some (below + 1)
    else match tie with
      | .up => some (below + 1)
      | .toEven => some (if below % 2 == 0 then below else below + 1)

/-- The first grid with a hit, from coarse to fine. -/
def firstHit (tie : Tie) (b : Binary) : Nat → Int → Decimal
  | 0, exponent => ⟨(b.neighbour? tie exponent).getD 0, exponent⟩
  | finer + 1, exponent =>
    match b.neighbour? tie exponent with
    | some coefficient => ⟨coefficient, exponent⟩
    | none => b.firstHit tie finer (exponent - 1)

end Binary

/-- The same number without trailing zeros, which a carry can leave. -/
def trimmed : Nat → Decimal → Decimal
  | 0, d => d
  | steps + 1, d =>
    if d.coefficient ≠ 0 ∧ d.coefficient % 10 = 0 then
      trimmed steps ⟨d.coefficient / 10, d.exponent + 1⟩
    else d

/-- The nearest of the shortest decimals that round to a nonzero finite double. Seventeen digits
always suffice. -/
def shortest (tie : Tie) (b : Binary) : Decimal :=
  trimmed 17 (b.firstHit tie 16 (b.point - 1))

/-- The digits of the coefficient. -/
def digits (d : Decimal) : List Char := Nat.toDigits 10 d.coefficient

end Decimal

end SureCode
