import Mathlib
import SureCode.Proofs.Doubles.Packing

/-!
# Rounding to doubles

Finite doubles are multiples of the least positive one. In units of it, rounding takes a whole
number to a whole number (`nearest`): the mantissa is the number shifted right until it fits, with
the bits shifted out telling how to round. Shifting and rounding never change the order of numbers
(`roundedMantissa_mono`), and neither does the change to a wider shift where the numbers get longer,
so `nearest` is monotone (`nearest_mono`). What has few enough bits stays as it is
(`nearest_of_lt`). The doubles that `round` and `normalize` give are canonical and have these values
(`rounds_round`, `rounds_normalize`).
-/

namespace SureCode

open Float.Model Float.Model.UnpackedFloat

/-! ### Shifting -/

section Shifting

theorem mantissa_shiftRight (m : ExtendedMantissa) (n : Nat) :
    (m >>> n).mantissa = m.mantissa / 2 ^ n := by
  induction n with
  | zero => exact (Nat.div_one m.mantissa).symm
  | succ n ih =>
    change (m >>> n).mantissa / 2 = _
    rw [ih, Nat.div_div_eq_div_mul, Nat.pow_succ]

theorem roundedMantissa_cases (m : ExtendedMantissa) :
    m.roundedMantissa = m.mantissa ∨ m.roundedMantissa = m.mantissa + 1 := by
  obtain ⟨mantissa, round, sticky⟩ := m
  cases round <;> cases sticky <;>
    simp only [ExtendedMantissa.roundedMantissa, ExtendedMantissa.accuracy,
      Accuracy.roundToNearestEven, true_or, or_true]
  omega

/-- A mantissa with its two residual bits behind it. -/
def residual (m : ExtendedMantissa) : Nat :=
  4 * m.mantissa + 2 * m.roundBit.toNat + m.stickyBit.toNat

variable {m n : ExtendedMantissa}

theorem residual_shiftRightOne (m : ExtendedMantissa) :
    residual m.shiftRightOne = 2 * (residual m / 4) + min 1 (residual m % 4) := by
  obtain ⟨mantissa, round, sticky⟩ := m
  have parity : (mantissa % 2 != 0).toNat = mantissa % 2 := by
    obtain even | odd := Nat.mod_two_eq_zero_or_one mantissa
    · rw [even]
      rfl
    · rw [odd]
      rfl
  simp only [residual, ExtendedMantissa.shiftRightOne, parity]
  cases round <;> cases sticky <;>
    simp only [Bool.toNat_true, Bool.toNat_false, Bool.or_true, Bool.or_false] <;> omega

theorem residual_shiftRight_mono (le : residual m ≤ residual n) (shift : Nat) :
    residual (m >>> shift) ≤ residual (n >>> shift) := by
  induction shift with
  | zero => exact le
  | succ shift ih =>
    change residual (m >>> shift).shiftRightOne ≤ residual (n >>> shift).shiftRightOne
    rw [residual_shiftRightOne, residual_shiftRightOne]
    omega

/-- To round is to add something less than a half, or a half to an odd mantissa, and to cut. -/
theorem roundedMantissa_eq (m : ExtendedMantissa) :
    m.roundedMantissa = (residual m + 1 + residual m / 4 % 2) / 4 := by
  have cut : residual m / 4 = m.mantissa := by
    unfold residual
    have := m.roundBit.toNat_le
    have := m.stickyBit.toNat_le
    omega
  rw [cut]
  obtain ⟨mantissa, round, sticky⟩ := m
  cases round <;> cases sticky <;>
    simp only [ExtendedMantissa.roundedMantissa, ExtendedMantissa.accuracy,
      Accuracy.roundToNearestEven, residual, Bool.toNat_true, Bool.toNat_false] <;> omega

/-- Rounding keeps the order of mantissas with their residual bits. -/
theorem roundedMantissa_mono (le : residual m ≤ residual n) :
    m.roundedMantissa ≤ n.roundedMantissa := by
  rw [roundedMantissa_eq, roundedMantissa_eq]
  obtain less | same : residual m / 4 < residual n / 4 ∨ residual m / 4 = residual n / 4 := by omega
  · omega
  · rw [same]
    omega

theorem shiftRight_add (m : ExtendedMantissa) (first second : Nat) :
    m >>> (first + second) = (m >>> first) >>> second := by
  induction second with
  | zero => rfl
  | succ second ih => exact congrArg ExtendedMantissa.shiftRightOne ih

/-- A mantissa without residual bits. -/
def whole (m : Nat) : ExtendedMantissa := .ofMantissaAndAccuracy m .exact

theorem roundedMantissa_whole (m : Nat) : (whole m).roundedMantissa = m := rfl

theorem residual_whole (m : Nat) : residual (whole m) = 4 * m := rfl

/-- Zeros that are shifted out leave no residual bits. -/
theorem whole_mul_shiftRight (m shift : Nat) : whole (m * 2 ^ shift) >>> shift = whole m := by
  induction shift generalizing m with
  | zero => exact congrArg whole (Nat.mul_one m)
  | succ shift ih =>
    have split : m * 2 ^ (shift + 1) = m * 2 * 2 ^ shift := by ring
    change (whole (m * 2 ^ (shift + 1)) >>> shift).shiftRightOne = _
    rw [split, ih]
    have half : m * 2 / 2 = m := by omega
    have even : m * 2 % 2 = 0 := by omega
    simp [whole, ExtendedMantissa.ofMantissaAndAccuracy, ExtendedMantissa.shiftRightOne, half, even]

end Shifting

/-! ### Numbers of units -/

section Nearest

variable {m n shift : Nat}

/-- By how many bits a number is too long for a mantissa. -/
def excess (n : Nat) : Nat := n.log2 - 52

/-- The mantissa that a number is rounded to, which may be one bit too long. -/
def significand (n : Nat) : Nat := (whole n >>> excess n).roundedMantissa

/-- The number that a number is rounded to. -/
def nearest (n : Nat) : Nat := significand n * 2 ^ excess n

theorem log2_div_two_pow {m : Nat} (wide : 52 ≤ m.log2) : (m / 2 ^ (m.log2 - 52)).log2 = 52 := by
  rw [Nat.log2_eq_log_two, Nat.log_div_base_pow, ← Nat.log2_eq_log_two]
  omega

theorem log2_mul_two_pow {n : Nat} (pos : 0 < n) (k : Nat) : (n * 2 ^ k).log2 = n.log2 + k := by
  induction k with
  | zero => rw [Nat.pow_zero, Nat.mul_one, Nat.add_zero]
  | succ k ih =>
    rw [Nat.pow_succ, ← Nat.mul_assoc, Nat.mul_comm, Nat.log2_two_mul (by positivity), ih,
      Nat.add_assoc]

theorem significand_of_excess_eq_zero (short : excess n = 0) : significand n = n := by
  rw [significand, short]
  exact roundedMantissa_whole n

theorem significand_bounds (long : excess n ≠ 0) :
    2 ^ 52 ≤ significand n ∧ significand n ≤ 2 ^ 53 := by
  have wide : 52 ≤ n.log2 := by
    unfold excess at long
    omega
  have width := log2_div_two_pow wide
  have nonzero : n / 2 ^ excess n ≠ 0 := by
    intro zero
    rw [← excess, zero] at width
    exact absurd width (by decide)
  obtain ⟨least, most⟩ := (Nat.log2_eq_iff nonzero).1 width
  have cut : (whole n >>> excess n).mantissa = n / 2 ^ excess n := mantissa_shiftRight _ _
  obtain same | up := roundedMantissa_cases (whole n >>> excess n)
  · rw [significand, same, cut]
    omega
  · rw [significand, up, cut]
    omega

theorem significand_le (n : Nat) : significand n ≤ 2 ^ 53 := by
  by_cases long : excess n = 0
  · rw [significand_of_excess_eq_zero long]
    by_cases zero : n = 0
    · omega
    · have : n.log2 < 53 := by
        unfold excess at long
        omega
      exact ((Nat.log2_lt zero).1 this).le
  · exact (significand_bounds long).2

theorem significand_pos (pos : 0 < n) : 0 < significand n := by
  by_cases long : excess n = 0
  · rwa [significand_of_excess_eq_zero long]
  · have := (significand_bounds long).1
    omega

theorem significand_mono (le : m ≤ n) (same : excess m = excess n) :
    significand m ≤ significand n := by
  rw [significand, significand, same]
  apply roundedMantissa_mono
  apply residual_shiftRight_mono
  rw [residual_whole, residual_whole]
  omega

theorem excess_mono (le : m ≤ n) : excess m ≤ excess n := by
  have : m.log2 ≤ n.log2 := by
    rw [Nat.log2_eq_log_two, Nat.log2_eq_log_two]
    exact Nat.log_mono_right le
  unfold excess
  omega

/-- Rounding keeps the order of numbers. Where the larger one is shifted further, a power of two lies
between the two and is not rounded. -/
theorem nearest_mono (le : m ≤ n) : nearest m ≤ nearest n := by
  obtain same | further := (excess_mono le).eq_or_lt
  · rw [nearest, nearest, same]
    exact Nat.mul_le_mul_right _ (significand_mono le same)
  · have least := (significand_bounds (Nat.ne_zero_of_lt further)).1
    calc nearest m ≤ 2 ^ 53 * 2 ^ excess m := Nat.mul_le_mul_right _ (significand_le m)
      _ = 2 ^ 52 * 2 ^ (excess m + 1) := by ring
      _ ≤ 2 ^ 52 * 2 ^ excess n := Nat.mul_le_mul_left _ (Nat.pow_le_pow_right (by decide) further)
      _ ≤ nearest n := Nat.mul_le_mul_right _ least

theorem nearest_zero : nearest 0 = 0 := rfl

theorem excess_mul_two_pow (pos : 0 < m) : excess (m * 2 ^ shift) = m.log2 + shift - 52 := by
  rw [excess, log2_mul_two_pow pos]

/-- A number whose leading bits fit a mantissa is not rounded. -/
theorem nearest_of_lt (small : m < 2 ^ 53) (shift : Nat) :
    nearest (m * 2 ^ shift) = m * 2 ^ shift := by
  by_cases zero : m = 0
  · rw [zero, Nat.zero_mul, nearest_zero]
  · have le : excess (m * 2 ^ shift) ≤ shift := by
      have : m.log2 < 53 := (Nat.log2_lt zero).2 small
      rw [excess_mul_two_pow (Nat.pos_of_ne_zero zero)]
      omega
    obtain ⟨rest, eq⟩ := Nat.exists_eq_add_of_le le
    have split : m * 2 ^ shift = m * 2 ^ rest * 2 ^ excess (m * 2 ^ shift) := by
      rw [Nat.mul_assoc, ← Nat.pow_add, Nat.add_comm rest, ← eq]
    have cut : significand (m * 2 ^ shift) = m * 2 ^ rest := by
      rw [significand]
      conv_lhs => rw [show whole (m * 2 ^ shift) = whole (m * 2 ^ rest * 2 ^ excess (m * 2 ^ shift))
        from congrArg whole split]
      rw [whole_mul_shiftRight, roundedMantissa_whole]
    rw [nearest, cut, ← split]

end Nearest

/-! ### Negative numbers of units -/

/-- The number that a negative or positive number is rounded to. -/
def nearestInt (x : ℤ) : ℤ := x.sign * nearest x.natAbs

theorem nearestInt_natCast (n : Nat) : nearestInt n = nearest n := by
  rw [nearestInt, Int.natAbs_natCast]
  obtain rfl | pos := Nat.eq_zero_or_pos n
  · rfl
  · rw [Int.sign_natCast_of_ne_zero pos.ne', Int.one_mul]

theorem nearestInt_neg (x : ℤ) : nearestInt (-x) = -nearestInt x := by
  rw [nearestInt, nearestInt, Int.natAbs_neg, Int.sign_neg, Int.neg_mul]

theorem nearestInt_apply (s : Sign) (n : Nat) : nearestInt (s.apply n) = s.apply (nearest n) := by
  cases s with
  | positive => exact nearestInt_natCast n
  | negative => exact (nearestInt_neg n).trans (congrArg _ (nearestInt_natCast n))

theorem nearestInt_nonneg {x : ℤ} (nonneg : 0 ≤ x) : 0 ≤ nearestInt x := by
  obtain ⟨n, rfl⟩ := Int.eq_ofNat_of_zero_le nonneg
  rw [nearestInt_natCast]
  exact Int.natCast_nonneg _

/-- Rounding keeps the order of negative numbers as well. -/
theorem nearestInt_mono {x y : ℤ} (le : x ≤ y) : nearestInt x ≤ nearestInt y := by
  have natCase {m n : Nat} (le : m ≤ n) : nearestInt m ≤ nearestInt n := by
    rw [nearestInt_natCast, nearestInt_natCast]
    exact_mod_cast nearest_mono le
  by_cases nonneg : 0 ≤ x
  · obtain ⟨m, rfl⟩ := Int.eq_ofNat_of_zero_le nonneg
    obtain ⟨n, rfl⟩ := Int.eq_ofNat_of_zero_le (nonneg.trans le)
    exact natCase (by exact_mod_cast le)
  · obtain ⟨m, rfl⟩ := Int.exists_eq_neg_ofNat (by omega : x ≤ 0)
    rw [nearestInt_neg]
    by_cases nonneg' : 0 ≤ y
    · have := nearestInt_nonneg (Int.natCast_nonneg m)
      have := nearestInt_nonneg nonneg'
      omega
    · obtain ⟨n, rfl⟩ := Int.exists_eq_neg_ofNat (by omega : y ≤ 0)
      rw [nearestInt_neg]
      have := natCase (show n ≤ m by omega)
      omega

/-! ### Rounded doubles -/

/-- The number of units that a mantissa stands for with an exponent. The unit is the least positive
double. -/
def magnitude (m : Nat) (e : Int) : Nat := m * 2 ^ (e + 1074).toNat

/-- The least number of units that is too large for a finite double. -/
def tooLarge : ℤ := magnitude (2 ^ 52) 972

/-- The value of a double in units, with infinite doubles just past all finite ones. -/
def units : UnpackedFloat → ℤ
  | .infinity s => s.apply tooLarge
  | .finite s m e _ => s.apply (magnitude m e)
  | _ => 0

/-- A double that is a number, in canonical form, and has some value. -/
structure Rounds (u : UnpackedFloat) (x : ℤ) : Prop where
  canonical : Canonical u
  number : u.isNaN = false
  value : units u = x

section Rounds

variable {m : Nat} {e : Int}

theorem magnitude_natCast_sub (m k : Nat) : magnitude m ((k : Int) - 1074) = m * 2 ^ k := by
  rw [magnitude, Int.sub_add_cancel, Int.toNat_natCast]

theorem magnitude_pos (pos : 0 < m) : 0 < magnitude m e := Nat.mul_pos pos (Nat.two_pow_pos _)

/-- To shift a mantissa left and to lower the exponent by as much changes nothing. -/
theorem magnitude_shiftLeft (shift : Nat) (least : -1074 ≤ e - shift) :
    magnitude (m <<< shift) (e - shift) = magnitude m e := by
  have split : shift + (e - shift + 1074).toNat = (e + 1074).toNat := by omega
  rw [magnitude, magnitude, Nat.shiftLeft_eq, Nat.mul_assoc, ← Nat.pow_add, split]

theorem targetExponent_binary64 (total : Int) :
    Format.binary64.targetExponent total = max (total - 53) (-1074) := rfl

/-- The format fixes the exponent by the number of units. -/
theorem targetExponent_units (pos : 0 < m) (least : -1074 ≤ e) :
    Format.binary64.targetExponent (totalExponent m e)
      = excess (magnitude m e) - 1074 := by
  rw [targetExponent_binary64, totalExponent, magnitude, excess_mul_two_pow pos]
  omega

theorem shiftToTargetExponent_units (pos : 0 < m) (least : -1074 ≤ e)
    (le : e ≤ excess (magnitude m e) - 1074) :
    shiftToTargetExponent Format.binary64 m e .exact
      = (whole (magnitude m e) >>> excess (magnitude m e), (excess (magnitude m e) : Int) - 1074) := by
  rw [shiftToTargetExponent, targetExponent_units pos least, shiftToExponent]
  generalize cut : excess (magnitude m e) = excess at le ⊢
  have split : excess = (e + 1074).toNat + (excess - 1074 - e).toNat := by omega
  refine Prod.ext ?_ ?_
  · change whole m >>> (excess - 1074 - e).toNat = _
    rw [magnitude, split, shiftRight_add, whole_mul_shiftRight, ← split]
  · change e + ((excess - 1074 - e).toNat : Int) = _
    omega

/-- A mantissa that is at most one bit too long is shifted by that bit. -/
theorem shiftToTargetExponent_again {k : Nat} (pos : 0 < m) (most : m ≤ 2 ^ 53) :
    shiftToTargetExponent Format.binary64 m ((k : Int) - 1074) .exact
      = if m = 2 ^ 53 then (whole (2 ^ 52), (k : Int) - 1073) else (whole m, (k : Int) - 1074) := by
  rw [shiftToTargetExponent, targetExponent_binary64, totalExponent, shiftToExponent]
  split
  case isTrue full =>
    have one : (max ((m.log2 : Int) + 1 + (k - 1074) - 53) (-1074) - (k - 1074)).toNat = 1 := by
      rw [full, Nat.log2_two_pow]
      omega
    rw [one, full]
    refine Prod.ext ?_ ?_
    · exact whole_mul_shiftRight (2 ^ 52) 1
    · change (k : Int) - 1074 + 1 = _
      omega
  case isFalse short =>
    have width : m.log2 < 53 := (Nat.log2_lt pos.ne').2 (lt_of_le_of_ne most short)
    have none : (max ((m.log2 : Int) + 1 + (k - 1074) - 53) (-1074) - (k - 1074)).toNat = 0 := by
      omega
    rw [none]
    exact Prod.ext rfl (Int.add_zero _)

theorem rounds_finite {s : Sign} {pos : 0 < m} (most : m < 2 ^ 53) (least : -1074 ≤ e)
    (normal : 2 ^ 52 ≤ m ∨ e = -1074) :
    Rounds (.finite s m e pos) (s.apply (magnitude m e)) :=
  ⟨⟨most, least, normal⟩, rfl, rfl⟩

theorem rounds_roundWithAccuracy (s : Sign) (pos : 0 < m) (least : -1074 ≤ e)
    (le : e ≤ excess (magnitude m e) - 1074) :
    Rounds (roundWithAccuracy Format.binary64 s m e .exact)
      (s.apply (nearest (magnitude m e))) := by
  have first := shiftToTargetExponent_units pos least le
  have positive : 0 < magnitude m e := magnitude_pos pos
  generalize magnitude m e = n at first positive
  have again := shiftToTargetExponent_again (k := excess n) (significand_pos positive)
    (significand_le n)
  rw [roundWithAccuracy, first]
  dsimp only
  rw [← significand, again]
  split
  case isTrue full =>
    have value : nearest n = magnitude (2 ^ 52) ((excess n : Int) - 1073) := by
      have next : (excess n : Int) - 1073 = ((excess n + 1 : Nat) : Int) - 1074 := by omega
      rw [nearest, full, next, magnitude_natCast_sub]
      ring
    have nonzero : (whole (2 ^ 52)).mantissa ≠ 0 := by decide
    rw [value, dif_neg nonzero]
    exact rounds_finite (show 2 ^ 52 < 2 ^ 53 by decide) (by omega) (.inl (le_refl _))
  case isFalse short =>
    have value : nearest n = magnitude (significand n) ((excess n : Int) - 1074) :=
      (magnitude_natCast_sub _ _).symm
    have nonzero : (whole (significand n)).mantissa ≠ 0 := (significand_pos positive).ne'
    rw [value, dif_neg nonzero]
    refine rounds_finite (lt_of_le_of_ne (significand_le n) short) (by omega) ?_
    by_cases long : excess n = 0
    · right
      omega
    · exact .inl (significand_bounds long).1

/-- Rounding gives a canonical double of the value that the number of units is rounded to. -/
theorem rounds_round (s : Sign) (pos : 0 < m) (least : -1074 ≤ e) :
    Rounds (round Format.binary64 s m e) (s.apply (nearest (magnitude m e))) := by
  rw [UnpackedFloat.round, targetExponent_units pos least, decreaseExponent]
  generalize cut : excess (magnitude m e) = k
  have longer : 0 < m <<< (e - (k - 1074)).toNat := by
    rw [Nat.shiftLeft_eq]
    exact Nat.mul_pos pos (Nat.two_pow_pos _)
  have same := magnitude_shiftLeft (m := m) (e := e) (e - (k - 1074)).toNat (by omega)
  have rounds := rounds_roundWithAccuracy s longer (e := e - (e - (k - 1074)).toNat) (by omega)
    (by rw [same, cut]; omega)
  rwa [same] at rounds

/-- A sum is rounded to the nearest value. -/
theorem rounds_normalize (m : ℤ) (least : -1074 ≤ e) (zeroSign : Sign) :
    Rounds (normalize Format.binary64 m e zeroSign)
      (nearestInt (m * (2 ^ (e + 1074).toNat : ℕ))) := by
  rw [UnpackedFloat.normalize]
  split
  · rename_i less
    rw [Int.compare_eq_lt] at less
    obtain ⟨n, rfl⟩ := Int.exists_eq_neg_ofNat less.le
    have rounds := rounds_round .negative (m := n) (by omega) least
    rw [← nearestInt_apply, Sign.apply, magnitude, Nat.cast_mul, ← Int.neg_mul] at rounds
    rwa [Int.neg_neg, Int.toNat_natCast]
  · rename_i zero
    rw [Int.compare_eq_eq] at zero
    rw [zero, Int.zero_mul]
    exact ⟨trivial, rfl, rfl⟩
  · rename_i greater
    rw [Int.compare_eq_gt] at greater
    obtain ⟨n, rfl⟩ := Int.eq_ofNat_of_zero_le greater.le
    have rounds := rounds_round .positive (m := n) (by omega) least
    rwa [← nearestInt_apply, Sign.apply, magnitude, Nat.cast_mul] at rounds

end Rounds

end SureCode
