import Mathlib
import SureCode.Proofs.Scalar

/-!
# Doubles beside exact shares

`Hybrid` reads the shares of outcomes, and what is computed from them, as rational numbers, and all
else as the doubles that they are, bit by bit. So sums of shares have no rounding, while thresholds
still are told apart as the program does it: zeros of two signs are two values, and so are two values
that are no number if their bits differ. Counts go with either: next to a share they are rational
numbers, and among themselves doubles.
-/

namespace SureCode

/-- A scalar with exact shares. -/
inductive Hybrid where
  | double (bits : UInt64)
  | count (n : ℕ)
  | share (value : ℚ)

namespace Hybrid

/-- The scalar as a double. -/
def toDouble : Hybrid → Float
  | double bits => Float.ofBits bits
  | count n => Float.ofNat n
  | share value => value.toFloat

/-- The scalar of a double. -/
def ofDouble (x : Float) : Hybrid := double x.toBits

@[simp] theorem toDouble_ofDouble (x : Float) : (ofDouble x).toDouble = x :=
  Float.ofBits_toBits x

/-- An operation that is exact where a share meets a share or a count, and one on doubles
elsewhere. -/
def combine {α : Type} (exact : ℚ → ℚ → α) (rounded : Float → Float → α) : Hybrid → Hybrid → α
  | share x, share y => exact x y
  | share x, count n => exact x n
  | count n, share y => exact n y
  | x, y => rounded x.toDouble y.toDouble

/-- Arithmetic by an operation on rational numbers and one on doubles. -/
def arithmetic (exact : ℚ → ℚ → ℚ) (rounded : Float → Float → Float) : Hybrid → Hybrid → Hybrid :=
  combine (fun x y => share (exact x y)) fun x y => ofDouble (rounded x y)

/-- The place in the total order: doubles by their bits, then counts, then shares. -/
def place : Hybrid → ℕ ×ₗ ℚ
  | double bits => toLex (0, bitsRank bits.toNat)
  | count n => toLex (1, n)
  | share value => toLex (2, value)

instance : LogScalar Hybrid where
  add := arithmetic (· + ·) (· + ·)
  sub := arithmetic (· - ·) (· - ·)
  mul := arithmetic (· * ·) (· * ·)
  div := arithmetic (· / ·) (· / ·)
  natCast := count
  le x y := combine (fun x y => decide (x ≤ y)) (fun x y => decide (x ≤ y)) x y = true
  lt x y := combine (fun x y => decide (x < y)) (fun x y => decide (x < y)) x y = true
  beq := combine (fun x y => decide (x = y)) (· == ·)
  decidableLE _ _ := inferInstanceAs (Decidable (_ = true))
  decidableLT _ _ := inferInstanceAs (Decidable (_ = true))
  neutral := share 0
  isNaN
    | share _ => false
    | x => x.toDouble.isNaN
  isFinite
    | share _ => true
    | x => x.toDouble.isFinite
  totalLe x y := decide (x.place ≤ y.place)
  log x := ofDouble x.toDouble.log
  exp x := ofDouble x.toDouble.exp

theorem place_injective : Function.Injective place := by
  intro a b eq
  cases a <;> cases b <;> simp [place] at eq
  · rw [bitsRank_injective eq]
  · rw [eq]
  · rw [eq]

theorem totalLt_iff_place {a b : Hybrid} : Scalar.totalLt a b = true ↔ a.place < b.place := by
  change (decide (a.place ≤ b.place) && !decide (b.place ≤ a.place)) = true ↔ _
  rw [Bool.and_eq_true, Bool.not_eq_true', decide_eq_true_eq, decide_eq_false_iff_not,
    lt_iff_le_not_ge]

/-- Of doubles the bits decide. -/
theorem totalLt_double {a b : UInt64} :
    Scalar.totalLt (double a) (double b) = true ↔ bitsRank a.toNat < bitsRank b.toNat := by
  rw [totalLt_iff_place, place, place, Prod.Lex.toLex_lt_toLex]
  simp

instance : LawfulScalar Hybrid :=
  .of_place place place_injective (fun _ _ => rfl) fun a number => by
    cases a with
    | share value => exact decide_eq_true rfl
    | double bits => exact beq_self_of_isNaN_eq_false number
    | count n => exact beq_self_of_isNaN_eq_false number

/-- Bits have just one order in which their ranks fall strictly. -/
theorem eq_of_falls {keys keys' : List UInt64}
    (falls : keys.Pairwise fun a b => bitsRank b.toNat < bitsRank a.toNat)
    (falls' : keys'.Pairwise fun a b => bitsRank b.toNat < bitsRank a.toNat)
    (same : ∀ bits, bits ∈ keys ↔ bits ∈ keys') : keys = keys' := by
  have injective : Function.Injective double := fun _ _ => double.inj
  refine List.map_injective_iff.2 injective (Scalar.eq_of_falls ?_ ?_ fun c => ?_)
  · exact List.pairwise_map.2 (falls.imp totalLt_double.2)
  · exact List.pairwise_map.2 (falls'.imp totalLt_double.2)
  · simp only [List.mem_map, same]

/-- Shares are added up as rational numbers. -/
theorem foldl_add_share (x : ℚ) (xs : List ℚ) :
    (xs.map share).foldl (· + ·) (share x) = share (x + xs.sum) := by
  induction xs generalizing x with
  | nil => rw [List.map_nil, List.foldl_nil, List.sum_nil, add_zero]
  | cons y xs ih =>
    change (xs.map share).foldl (· + ·) (share (x + y)) = _
    rw [ih, List.sum_cons, add_assoc]

/-- The sum of some shares does not depend on where it starts from. -/
theorem foldl_add_zero {xs : List ℚ} (some : xs ≠ []) :
    (xs.map share).foldl (· + ·) Scalar.zero = share xs.sum := by
  cases xs with
  | nil => exact absurd rfl some
  | cons x xs =>
    change (xs.map share).foldl (· + ·) (share ((0 : ℕ) + x)) = _
    rw [foldl_add_share, Nat.cast_zero, zero_add, List.sum_cons]

end Hybrid

end SureCode
