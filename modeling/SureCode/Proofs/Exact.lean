import Mathlib
import SureCode.Node.Basic
import SureCode.Pruning.Thresholds

/-!
# Exact scalars

`Exact` has the values of doubles without their rounding: every rational number, the two infinities
and one value that is no number. Operations on numbers are those of the rationals, and the other
values follow the usual rules, such as `∞ - ∞` being no number and every comparison with it being
false. Only the sign of a zero is lost.

The pruning engines add, compare and store costs that are numbers; `cost?_eq_number` says that every
usable cost is one, between zero and the most that one construct counts. What a budget may be beside
a number matters in two places only: `fits_mono` and `fits_sub`.
-/

namespace SureCode

/-- A scalar with exact arithmetic. -/
inductive Exact where
  | undefined
  | minusInfinity
  | number (value : ℚ)
  | plusInfinity
deriving DecidableEq, Repr

namespace Exact

/-! ### Arithmetic -/

/-- The sign as a number; zero for what has none. -/
def sign : Exact → ℤ
  | undefined => 0
  | minusInfinity => -1
  | number x => if 0 < x then 1 else if x < 0 then -1 else 0
  | plusInfinity => 1

/-- The infinity of a sign. There is none without a sign. -/
def infinity (sign : ℤ) : Exact :=
  if 0 < sign then plusInfinity else if sign < 0 then minusInfinity else undefined

protected def neg : Exact → Exact
  | undefined => undefined
  | minusInfinity => plusInfinity
  | number x => number (-x)
  | plusInfinity => minusInfinity

protected def add : Exact → Exact → Exact
  | undefined, _ => undefined
  | _, undefined => undefined
  | number x, number y => number (x + y)
  | number _, y => y
  | x, number _ => x
  | x, y => if x = y then x else undefined

protected def mul : Exact → Exact → Exact
  | undefined, _ => undefined
  | _, undefined => undefined
  | number x, number y => number (x * y)
  | x, y => infinity (x.sign * y.sign)

/-- Division. A number over zero is infinite, and a zero divides as if it were positive. -/
protected def div : Exact → Exact → Exact
  | undefined, _ => undefined
  | _, undefined => undefined
  | number x, number y => if y = 0 then infinity (number x).sign else number (x / y)
  | number _, _ => number 0
  | x, number y => infinity (x.sign * if y < 0 then -1 else 1)
  | _, _ => undefined

/-! ### Comparison -/

/-- The numeric order. -/
protected def le : Exact → Exact → Bool
  | undefined, _ => false
  | _, undefined => false
  | minusInfinity, _ => true
  | _, plusInfinity => true
  | number x, number y => x ≤ y
  | _, _ => false

/-- The order on all values: what is no number comes last. -/
protected def totalLe : Exact → Exact → Bool
  | _, undefined => true
  | undefined, _ => false
  | x, y => Exact.le x y

def isNumber : Exact → Bool
  | number _ => true
  | _ => false

instance : Scalar Exact where
  add := Exact.add
  sub x y := Exact.add x y.neg
  mul := Exact.mul
  div := Exact.div
  natCast n := number n
  le x y := Exact.le x y = true
  lt x y := (Exact.le x y && !Exact.le y x) = true
  beq x y := Exact.le x y && Exact.le y x
  decidableLE _ _ := inferInstanceAs (Decidable (_ = true))
  decidableLT _ _ := inferInstanceAs (Decidable (_ = true))
  neutral := number 0
  isNaN x := x == undefined
  isFinite := isNumber
  totalLe := Exact.totalLe

variable {x y : ℚ}

@[simp] theorem number_add_number : number x + number y = number (x + y) := rfl

@[simp] theorem number_sub_number : number x - number y = number (x - y) :=
  congrArg number (sub_eq_add_neg x y).symm

@[simp] theorem natCast_eq_number (n : ℕ) : ((n : ℕ) : Exact) = number n := rfl

@[simp] theorem number_le_number : number x ≤ number y ↔ x ≤ y :=
  show decide (x ≤ y) = true ↔ x ≤ y by simp

@[simp] theorem number_lt_number : number x < number y ↔ x < y :=
  show (decide (x ≤ y) && !decide (y ≤ x)) = true ↔ x < y by
    simpa using le_of_lt

@[simp] theorem number_beq_number : (number x == number y) = decide (x = y) :=
  show (decide (x ≤ y) && decide (y ≤ x)) = decide (x = y) by
    simp [le_antisymm_iff]

@[simp] theorem totalLt_number : Scalar.totalLt (number x) (number y) = decide (x < y) :=
  show (decide (x ≤ y) && !decide (y ≤ x)) = decide (x < y) by
    rw [Bool.eq_iff_iff]
    simp only [Bool.and_eq_true, decide_eq_true_eq, Bool.not_eq_true', decide_eq_false_iff_not,
      not_le, and_iff_right_iff_imp]
    exact le_of_lt

@[simp] theorem least_number : Scalar.least (number x) (number y) = number (min x y) := by
  unfold Scalar.least
  by_cases less : y < x
  · simp [less, le_of_lt less]
  · simp [less, not_lt.1 less]

@[simp] theorem zero_eq_number : (Scalar.zero : Exact) = number 0 := by
  simp [Scalar.zero]

/-- Numbers are added up as rationals. -/
theorem foldl_add_number (x : ℚ) (xs : List ℚ) :
    (xs.map number).foldl (· + ·) (number x) = number (x + xs.sum) := by
  induction xs generalizing x with
  | nil => simp
  | cons y xs ih => simp [ih, add_assoc]

/-- Numbers are taken off as rationals. -/
theorem foldl_sub_number (x : ℚ) (xs : List ℚ) :
    (xs.map number).foldl (· - ·) (number x) = number (x - xs.sum) := by
  induction xs generalizing x with
  | nil => simp
  | cons y xs ih => simp [ih, sub_sub]

protected theorem le_trans {a b c : Exact} (ab : a ≤ b) (bc : b ≤ c) : a ≤ c := by
  change Exact.le a b = true at ab
  change Exact.le b c = true at bc
  change Exact.le a c = true
  cases a <;> cases b <;> cases c <;> simp_all [Exact.le]
  exact le_trans ab bc

theorem le_of_not_lt {a b : Exact} (a_defined : a ≠ undefined) (b_defined : b ≠ undefined)
    (not_lt : ¬ a < b) : b ≤ a := by
  change ¬ (Exact.le a b && !Exact.le b a) = true at not_lt
  change Exact.le b a = true
  cases a <;> cases b <;> simp_all [Exact.le]
  exact (le_total _ _).elim not_lt id

end Exact

open Exact

/-! ### Budgets -/

/-- The slack as a rational number. -/
def slackValue : ℚ := 1 / 1000000000

@[simp] theorem slack_eq_number : (slack : Exact) = number slackValue := by
  show Exact.div (number (1 : ℕ)) (number (1000000000 : ℕ)) = number slackValue
  norm_num [Exact.div, slackValue]

@[simp] theorem fits_number {budget cost : ℚ} :
    fits (number budget) (number cost) = decide (cost ≤ budget + slackValue) := by
  simp [fits]

/-- A smaller cost fits every budget that a larger one fits. -/
theorem fits_mono {budget : Exact} {x y : ℚ} (le : x ≤ y) (fit : fits budget (number y) = true) :
    fits budget (number x) = true := by
  simp only [fits, decide_eq_true_eq] at fit ⊢
  exact Exact.le_trans (number_le_number.2 le) fit

/-- What is paid beforehand may be taken off the budget or put to the cost. -/
theorem fits_sub {budget : Exact} {paid cost : ℚ} :
    fits (budget - number paid) (number cost) = fits budget (number (paid + cost)) := by
  cases budget with
  | number budget =>
    have : cost ≤ budget - paid + slackValue ↔ paid + cost ≤ budget + slackValue := by
      constructor <;> intro le <;> linarith
    simp [this]
  | undefined => rfl
  | minusInfinity => rfl
  | plusInfinity => rfl

/-- A cost that fits a budget fits every looser one. -/
theorem fits_of_le {tighter looser cost : Exact} (le : tighter ≤ looser)
    (fit : fits tighter cost = true) : fits looser cost = true := by
  simp only [fits, decide_eq_true_eq] at fit ⊢
  refine Exact.le_trans fit ?_
  rw [slack_eq_number]
  change Exact.le (Exact.add tighter _) (Exact.add looser _) = true
  change Exact.le tighter looser = true at le
  cases tighter <;> cases looser <;> simp_all [Exact.le, Exact.add]

/-! ### Costs -/

namespace Construct

/-- A usable cost is a number between zero and the most that one construct counts. -/
theorem cost?_eq_number {a : Construct Exact} {cost : Exact} (usable : a.cost? = some cost) :
    ∃ x : ℚ, 0 ≤ x ∧ x ≤ 10 ∧ cost = number x := by
  have clamped (x : ℚ) : ∃ y : ℚ, 0 ≤ y ∧ y ≤ 10 ∧
      clamp Scalar.zero maxCost (number x) = number y := by
    unfold clamp maxCost
    simp only [zero_eq_number, natCast_eq_number, number_lt_number]
    split_ifs with low high
    · exact ⟨0, by norm_num, by norm_num, rfl⟩
    · exact ⟨10, by norm_num, by norm_num, by norm_num⟩
    · exact ⟨x, not_lt.1 low, by simpa using high, rfl⟩
  unfold cost? at usable
  split at usable
  case h_2 => simp at usable
  case h_1 value _ =>
    cases value with
    | undefined => simp [Scalar.isNaN] at usable
    | minusInfinity =>
      exact ⟨0, by norm_num, by norm_num, (Option.some.inj usable).symm⟩
    | plusInfinity =>
      exact ⟨10, by norm_num, by norm_num, (Option.some.inj usable).symm⟩
    | number x =>
      obtain ⟨y, nonneg, le, eq⟩ := clamped x
      exact ⟨y, nonneg, le, (Option.some.inj usable).symm.trans eq⟩

end Construct

end SureCode
