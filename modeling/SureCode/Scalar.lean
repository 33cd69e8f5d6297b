/-!
# Scalars

Log-probabilities, costs, thresholds and error rates are scalars. `Scalar` lists what the library
asks of them, so that every engine can be read in two ways: over doubles it is the program that
runs, and over an ordered field it is the same algorithm with exact sums.

Doubles decide the shape of the class. They have values that are no number, zeros of two signs that
compare equal, and two infinities; so besides the numeric comparisons there is a total order on the
values themselves (`totalLe`), and sums start from the neutral element of addition, which for
doubles is the negative zero.
-/

namespace SureCode

/-- Numbers that costs are measured in. -/
class Scalar (κ : Type) extends Add κ, Sub κ, Mul κ, Div κ, NatCast κ, LE κ, LT κ, BEq κ where
  decidableLE : DecidableLE κ
  decidableLT : DecidableLT κ
  /-- Adding it changes no value, not even the sign of a zero. -/
  neutral : κ
  /-- The value is no number. -/
  isNaN : κ → Bool
  /-- The value is a number and not infinite. -/
  isFinite : κ → Bool
  /-- A total order on values. It refines the numeric order and separates values that only compare
  equal. -/
  totalLe : κ → κ → Bool

namespace Scalar

variable {κ : Type} [Scalar κ]

instance : DecidableLE κ := decidableLE
instance : DecidableLT κ := decidableLT

/-- The scalar zero. -/
def zero : κ := ((0 : Nat) : κ)

/-- The scalar one. -/
def one : κ := ((1 : Nat) : κ)

/-- Strictly below in the total order. -/
def totalLt (a b : κ) : Bool := totalLe a b && !totalLe b a

/-- The very same value, which for doubles says more than `==`. -/
def same (a b : κ) : Bool := totalLe a b && totalLe b a

/-- The sum of a list, added up from the left. -/
def sum (xs : List κ) : κ := xs.foldl (· + ·) neutral

/-- The smaller of two numbers, the first where they are equal. -/
def least (a b : κ) : κ := if b < a then b else a

@[simp] theorem sum_nil : sum ([] : List κ) = neutral := rfl

end Scalar

/-! ### Doubles -/

/-- The place of a double in the total order of doubles: negative numbers by falling magnitude below
the negative zero, then the positive zero and the positive numbers, and past the infinities what is
no number. -/
def doubleRank (x : Float) : Int :=
  let bits := x.toBits.toNat
  if bits < 0x8000000000000000 then bits else 0x7fffffffffffffff - (bits : Int)

instance : Scalar Float where
  natCast := Float.ofNat
  decidableLE := inferInstance
  decidableLT := inferInstance
  neutral := -0.0
  isNaN := Float.isNaN
  isFinite := Float.isFinite
  totalLe a b := doubleRank a ≤ doubleRank b

/-! ### Logarithms -/

/-- Scalars with natural logarithm and exponential. -/
class LogScalar (κ : Type) extends Scalar κ where
  log : κ → κ
  exp : κ → κ

instance : LogScalar Float where
  log := Float.log
  exp := Float.exp

end SureCode
