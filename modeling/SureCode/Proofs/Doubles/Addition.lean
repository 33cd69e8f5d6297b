import Mathlib
import SureCode.Proofs.Doubles.Rounding

/-!
# Order and addition of doubles

Doubles that are numbers compare as their values do (`le_iff_units`), so their order is transitive
(`double_le_trans`). The value of a sum is the sum of the values, rounded and kept within the range
(`rounds_add`, `rounds_packed`), and both keep the order. Hence adding the same finite double
keeps the order (`double_add_le_add_right`), and a sum of doubles from zero on is one of them
(`double_add_nonneg`), no smaller than its first term (`double_le_add`) and in order with the first
term (`double_add_le_add`).
-/

namespace SureCode

open Float.Model Float.Model.UnpackedFloat

/-! ### Order -/

section Order

variable {m m' : Nat} {e e' : Int}

theorem magnitude_lt_of_exponent_lt (most : m < 2 ^ 53) (least : -1074 ≤ e) (lt : e < e')
    (normal : 2 ^ 52 ≤ m') : magnitude m e < magnitude m' e' := by
  have shift : (e + 1074).toNat + 1 ≤ (e' + 1074).toNat := by omega
  calc magnitude m e < 2 ^ 53 * 2 ^ (e + 1074).toNat :=
        Nat.mul_lt_mul_of_pos_right most (Nat.two_pow_pos _)
    _ = 2 ^ 52 * 2 ^ ((e + 1074).toNat + 1) := by ring
    _ ≤ 2 ^ 52 * 2 ^ (e' + 1074).toNat :=
        Nat.mul_le_mul_left _ (Nat.pow_le_pow_right (by decide) shift)
    _ ≤ magnitude m' e' := Nat.mul_le_mul_right _ normal

theorem magnitude_lt_tooLarge (most : m < 2 ^ 53) (least : -1074 ≤ e) (range : e ≤ 971) :
    magnitude m e < tooLarge := by
  rw [tooLarge, Int.ofNat_lt]
  exact magnitude_lt_of_exponent_lt most least (Int.lt_add_one_of_le range) (le_refl _)

theorem swap_then_compare (e e' : Int) (m m' : Nat) :
    ((compare e e').then (compare m m')).swap = (compare e' e).then (compare m' m) := by
  rw [Ordering.swap_then, Int.compare_swap, Nat.compare_swap]

/-- Canonical numbers are ordered by their exponents first. -/
theorem isLE_compare_iff {s : Sign} {pos : 0 < m} {pos' : 0 < m'}
    (canonical : Canonical (.finite s m e pos)) (canonical' : Canonical (.finite s m' e' pos')) :
    ((compare e e').then (compare m m')).isLE = true ↔ magnitude m e ≤ magnitude m' e' := by
  obtain ⟨most, least, normal⟩ := canonical
  obtain ⟨most', least', normal'⟩ := canonical'
  obtain less | rfl | greater := lt_trichotomy e e'
  · have lt := magnitude_lt_of_exponent_lt most least less (normal'.resolve_right (by omega))
    simp [Int.compare_eq_lt.2 less, lt.le]
  · simp [magnitude, Nat.isLE_compare]
  · have lt := magnitude_lt_of_exponent_lt most' least' greater (normal.resolve_right (by omega))
    simp [Int.compare_eq_gt.2 greater, lt]

end Order

section Values

variable {u v : UnpackedFloat}

theorem tooLarge_pos : 0 < tooLarge := Int.natCast_pos.2 (magnitude_pos (by decide))

/-- Finite values lie strictly within the range. -/
theorem units_lt (packed : Packed u) (finite : u.isFinite = true) :
    -tooLarge < units u ∧ units u < tooLarge := by
  have top := tooLarge_pos
  cases u with
  | notANumber => cases finite
  | infinity s => cases finite
  | zero s =>
    change -tooLarge < 0 ∧ 0 < tooLarge
    omega
  | finite s m e pos =>
    have lt := magnitude_lt_tooLarge packed.canonical.1 packed.canonical.2.1 packed.range
    cases s with
    | positive =>
      change -tooLarge < (magnitude m e : ℤ) ∧ (magnitude m e : ℤ) < tooLarge
      omega
    | negative =>
      change -tooLarge < -(magnitude m e : ℤ) ∧ -(magnitude m e : ℤ) < tooLarge
      omega

/-- A number is finite or infinite. -/
theorem isFinite_or_infinity (number : u.isNaN = false) :
    u.isFinite = true ∨ u = .infinity .positive ∨ u = .infinity .negative := by
  cases u with
  | notANumber => cases number
  | infinity s => cases s <;> simp
  | zero s => exact .inl rfl
  | finite s m e pos => exact .inl rfl

theorem units_le (packed : Packed u) (number : u.isNaN = false) :
    -tooLarge ≤ units u ∧ units u ≤ tooLarge := by
  have top := tooLarge_pos
  obtain finite | rfl | rfl := isFinite_or_infinity number
  · have := units_lt packed finite
    omega
  · change -tooLarge ≤ tooLarge ∧ tooLarge ≤ tooLarge
    omega
  · change -tooLarge ≤ -tooLarge ∧ -tooLarge ≤ tooLarge
    omega

/-- What is no number does not compare. -/
theorem number_of_le (le : u.le v = true) : u.isNaN = false ∧ v.isNaN = false := by
  cases u with
  | notANumber => cases le
  | infinity s =>
    cases v with
    | notANumber => cases s <;> cases le
    | _ => exact ⟨rfl, rfl⟩
  | zero s =>
    cases v with
    | notANumber => cases le
    | _ => exact ⟨rfl, rfl⟩
  | finite s m e pos =>
    cases v with
    | notANumber => cases s <;> cases le
    | _ => exact ⟨rfl, rfl⟩

theorem le_infinity (finite : u.isFinite = true) :
    u.le (.infinity .positive) = true ∧ u.le (.infinity .negative) = false := by
  cases u with
  | notANumber => cases finite
  | infinity s => cases finite
  | zero s => exact ⟨rfl, rfl⟩
  | finite s m e pos => cases s <;> exact ⟨rfl, rfl⟩

theorem infinity_le (finite : v.isFinite = true) :
    (infinity .negative).le v = true ∧ (infinity .positive).le v = false := by
  cases v with
  | notANumber => cases finite
  | infinity s => cases finite
  | zero s => exact ⟨rfl, rfl⟩
  | finite s m e pos => cases s <;> exact ⟨rfl, rfl⟩

/-- Finite numbers compare by sign, and those of one sign by exponent and mantissa. -/
theorem le_iff_of_isFinite (canonical : Canonical u) (canonical' : Canonical v)
    (finite : u.isFinite = true) (finite' : v.isFinite = true) :
    u.le v = true ↔ units u ≤ units v := by
  cases u with
  | notANumber => cases finite
  | infinity s => cases finite
  | zero s =>
    cases v with
    | notANumber => cases finite'
    | infinity s' => cases finite'
    | zero s' => exact iff_of_true rfl (le_refl _)
    | finite s' m' e' pos' =>
      have positive' : (0 : ℤ) < magnitude m' e' := Int.natCast_pos.2 (magnitude_pos pos')
      cases s' with
      | negative => exact iff_of_false nofun (by change ¬ (0 : ℤ) ≤ -(magnitude m' e' : ℤ); omega)
      | positive => exact iff_of_true rfl positive'.le
  | finite s m e pos =>
    have positive : (0 : ℤ) < magnitude m e := Int.natCast_pos.2 (magnitude_pos pos)
    cases v with
    | notANumber => cases finite'
    | infinity s' => cases finite'
    | zero s' =>
      cases s with
      | negative => exact iff_of_true rfl (by change -(magnitude m e : ℤ) ≤ 0; omega)
      | positive => exact iff_of_false nofun (not_le.2 positive)
    | finite s' m' e' pos' =>
      have positive' : (0 : ℤ) < magnitude m' e' := Int.natCast_pos.2 (magnitude_pos pos')
      cases s with
      | negative =>
        cases s' with
        | negative =>
          change (((compare e e').then (compare m m')).swap).isLE = true ↔
            -(magnitude m e : ℤ) ≤ -(magnitude m' e' : ℤ)
          rw [swap_then_compare, isLE_compare_iff canonical' canonical, Int.neg_le_neg_iff, Int.ofNat_le]
        | positive =>
          refine iff_of_true rfl ?_
          change -(magnitude m e : ℤ) ≤ magnitude m' e'
          omega
      | positive =>
        cases s' with
        | negative =>
          refine iff_of_false nofun ?_
          change ¬ (magnitude m e : ℤ) ≤ -(magnitude m' e' : ℤ)
          omega
        | positive =>
          change ((compare e e').then (compare m m')).isLE = true ↔
            (magnitude m e : ℤ) ≤ magnitude m' e'
          rw [isLE_compare_iff canonical canonical', Int.ofNat_le]

/-- Numbers compare as their values do. -/
theorem le_iff_units (packed : Packed u) (packed' : Packed v) (number : u.isNaN = false)
    (number' : v.isNaN = false) : u.le v = true ↔ units u ≤ units v := by
  have top := tooLarge_pos
  have highest : units (.infinity .positive) = tooLarge := rfl
  have lowest : units (.infinity .negative) = -tooLarge := rfl
  obtain finite | rfl | rfl := isFinite_or_infinity number
  · have bounds := units_lt packed finite
    obtain ⟨below, above⟩ := le_infinity finite
    obtain finite' | rfl | rfl := isFinite_or_infinity number'
    · exact le_iff_of_isFinite packed.canonical packed'.canonical finite finite'
    · exact iff_of_true below (by omega)
    · rw [above]
      exact iff_of_false nofun (by omega)
  · obtain finite' | rfl | rfl := isFinite_or_infinity number'
    · have bounds := units_lt packed' finite'
      rw [(infinity_le finite').2]
      exact iff_of_false nofun (by omega)
    · exact iff_of_true rfl (le_refl _)
    · exact iff_of_false nofun (by omega)
  · obtain finite' | rfl | rfl := isFinite_or_infinity number'
    · have bounds := units_lt packed' finite'
      exact iff_of_true (infinity_le finite').1 (by omega)
    · exact iff_of_true rfl (by omega)
    · exact iff_of_true rfl (le_refl _)

end Values

/-! ### Addition -/

section Addition

variable {u v w : UnpackedFloat}

/-- A value that a double has is not rounded. -/
theorem nearestInt_units (canonical : Canonical u) (finite : u.isFinite = true) :
    nearestInt (units u) = units u := by
  cases u with
  | notANumber => cases finite
  | infinity s => cases finite
  | zero s => rfl
  | finite s m e pos =>
    change nearestInt (s.apply (magnitude m e)) = s.apply (magnitude m e)
    rw [nearestInt_apply, magnitude, nearest_of_lt canonical.1]

theorem apply_mul (s : Sign) (x y : ℤ) : s.apply x * y = s.apply (x * y) := by
  cases s with
  | positive => rfl
  | negative => exact Int.neg_mul x y

/-- The mantissa that a number gets with a lower exponent. -/
theorem decreaseExponent_mul {m : Nat} {e low : Int} (least : -1074 ≤ low) (le : low ≤ e) :
    ((decreaseExponent m e low).1 : ℤ) * (2 ^ (low + 1074).toNat : ℕ) = magnitude m e := by
  have shifted := magnitude_shiftLeft (m := m) (e := e) (e - low).toNat (by omega)
  rw [Int.toNat_of_nonneg (by omega), Int.sub_sub_self, magnitude] at shifted
  exact_mod_cast shifted

/-- The value of a sum is the sum of the values, rounded. -/
theorem rounds_add (canonical : Canonical u) (canonical' : Canonical v)
    (finite : u.isFinite = true) (finite' : v.isFinite = true) :
    Rounds (add Format.binary64 u v) (nearestInt (units u + units v)) := by
  cases u with
  | notANumber => cases finite
  | infinity s => cases finite
  | zero s =>
    have none : units (.zero s) = 0 := rfl
    rw [none, Int.zero_add, nearestInt_units canonical' finite']
    cases v with
    | notANumber => cases finite'
    | infinity s' => cases finite'
    | zero s' =>
      rw [UnpackedFloat.add]
      split
      · exact ⟨trivial, rfl, rfl⟩
      · exact ⟨trivial, rfl, rfl⟩
    | finite s' m' e' pos' => exact ⟨canonical', rfl, rfl⟩
  | finite s m e pos =>
    cases v with
    | notANumber => cases finite'
    | infinity s' => cases finite'
    | zero s' =>
      have none : units (.zero s') = 0 := rfl
      rw [none, Int.add_zero, nearestInt_units canonical finite]
      exact ⟨canonical, rfl, rfl⟩
    | finite s' m' e' pos' =>
      have least : -1074 ≤ min e e' := le_min canonical.2.1 canonical'.2.1
      have rounds := rounds_normalize (s.apply (decreaseExponent m e (min e e')).1
        + s'.apply (decreaseExponent m' e' (min e e')).1) least .positive
      rw [Int.add_mul, apply_mul, apply_mul, decreaseExponent_mul least (min_le_left e e'),
        decreaseExponent_mul least (min_le_right e e')] at rounds
      exact rounds

/-- A value kept within the range. -/
def clipped (x : ℤ) : ℤ := max (-tooLarge) (min tooLarge x)

theorem clipped_mono {x y : ℤ} (le : x ≤ y) : clipped x ≤ clipped y := by
  unfold clipped
  omega

theorem tooLarge_le_magnitude {m : Nat} {e : Int} (normal : 2 ^ 52 ≤ m) (large : 971 < e) :
    tooLarge ≤ magnitude m e := by
  have shift : ((972 : Int) + 1074).toNat ≤ (e + 1074).toNat := by omega
  rw [tooLarge, Int.ofNat_le]
  exact Nat.mul_le_mul normal (Nat.pow_le_pow_right (by decide) shift)

/-- Packing keeps a value within the range. -/
theorem rounds_packed (canonical : Canonical u) (number : u.isNaN = false) :
    Rounds (unpack Format.binary64 (pack Format.binary64 u)) (clipped (units u)) := by
  have top := tooLarge_pos
  by_cases range : InRange u
  · have packed : Packed u := ⟨canonical, range⟩
    rw [unpack_pack packed]
    refine ⟨canonical, number, ?_⟩
    have := units_le packed number
    unfold clipped
    omega
  · cases u with
    | notANumber => exact absurd trivial range
    | infinity s => exact absurd trivial range
    | zero s => exact absurd trivial range
    | finite s m e pos =>
      have large : 971 < e := not_le.1 range
      have le := tooLarge_le_magnitude (canonical.2.2.resolve_right (by omega)) large
      rw [unpack_pack_of_large large]
      refine ⟨trivial, rfl, ?_⟩
      unfold clipped
      cases s with
      | positive =>
        change tooLarge = max (-tooLarge) (min tooLarge (magnitude m e : ℤ))
        omega
      | negative =>
        change -tooLarge = max (-tooLarge) (min tooLarge (-(magnitude m e : ℤ)))
        omega

/-- The unpacked form of a sum. -/
def sumOf (u v : UnpackedFloat) : UnpackedFloat :=
  unpack Format.binary64 (pack Format.binary64 (add Format.binary64 u v))

theorem rounds_sumOf (packed : Packed u) (packed' : Packed v) (finite : u.isFinite = true)
    (finite' : v.isFinite = true) :
    Rounds (sumOf u v) (clipped (nearestInt (units u + units v))) := by
  have rounds := rounds_add packed.canonical packed'.canonical finite finite'
  rw [← rounds.value]
  exact rounds_packed rounds.canonical rounds.number

theorem sumOf_infinity (s : Sign) (finite : v.isFinite = true) :
    sumOf (.infinity s) v = .infinity s := by
  have absorbs : add Format.binary64 (.infinity s) v = .infinity s := by
    cases v with
    | notANumber => cases finite
    | infinity s' => cases finite
    | zero s' => rfl
    | finite s' m' e' pos' => rfl
  rw [sumOf, absorbs]
  exact unpack_pack ⟨trivial, trivial⟩

theorem sumOf_infinity_right (s : Sign) (finite : u.isFinite = true) :
    sumOf u (.infinity s) = .infinity s := by
  have absorbs : add Format.binary64 u (.infinity s) = .infinity s := by
    cases u with
    | notANumber => cases finite
    | infinity s' => cases finite
    | zero s' => rfl
    | finite s' m' e' pos' => rfl
  rw [sumOf, absorbs]
  exact unpack_pack ⟨trivial, trivial⟩

theorem isNaN_sumOf (packed : Packed u) (packed' : Packed v) (number : u.isNaN = false)
    (finite : v.isFinite = true) : (sumOf u v).isNaN = false := by
  obtain finite' | rfl | rfl := isFinite_or_infinity number
  · exact (rounds_sumOf packed packed' finite' finite).number
  · rw [sumOf_infinity _ finite]
    rfl
  · rw [sumOf_infinity _ finite]
    rfl

/-- Adding the same finite double keeps the order of values. -/
theorem units_sumOf_le (packed : Packed u) (packed' : Packed v) (packed'' : Packed w)
    (number : u.isNaN = false) (number' : v.isNaN = false) (finite : w.isFinite = true)
    (le : units u ≤ units v) : units (sumOf u w) ≤ units (sumOf v w) := by
  have packed_sum (u : UnpackedFloat) : Packed (sumOf u w) := packed_unpack _
  have top := tooLarge_pos
  obtain finite_u | rfl | rfl := isFinite_or_infinity number
  · have sum := rounds_sumOf packed packed'' finite_u finite
    obtain finite_v | rfl | rfl := isFinite_or_infinity number'
    · rw [sum.value, (rounds_sumOf packed' packed'' finite_v finite).value]
      exact clipped_mono (nearestInt_mono (Int.add_le_add_right le _))
    · rw [sumOf_infinity _ finite]
      exact (units_le (packed_sum u) sum.number).2
    · have := (units_lt packed finite_u).1
      exact absurd le (not_le.2 this)
  · obtain finite_v | rfl | rfl := isFinite_or_infinity number'
    · have := (units_lt packed' finite_v).2
      exact absurd le (not_le.2 this)
    · exact le_refl _
    · change tooLarge ≤ -tooLarge at le
      omega
  · rw [sumOf_infinity _ finite]
    exact (units_le (packed_sum v) (isNaN_sumOf packed' packed'' number' finite)).1

/-- Numbers from zero on add up to a number from zero on, which may be infinite. -/
theorem sumOf_nonneg (packed : Packed u) (packed' : Packed v) (number : u.isNaN = false)
    (number' : v.isNaN = false) (nonneg : 0 ≤ units u) (nonneg' : 0 ≤ units v) :
    (sumOf u v).isNaN = false ∧ 0 ≤ units (sumOf u v) := by
  have top := tooLarge_pos
  obtain finite | rfl | rfl := isFinite_or_infinity number
  · obtain finite' | rfl | rfl := isFinite_or_infinity number'
    · have sum := rounds_sumOf packed packed' finite finite'
      have rounded : 0 ≤ nearestInt (units u + units v) :=
        nearestInt_nonneg (Int.add_nonneg nonneg nonneg')
      refine ⟨sum.number, ?_⟩
      rw [sum.value, clipped]
      omega
    · rw [sumOf_infinity_right _ finite]
      exact ⟨rfl, nonneg'⟩
    · change 0 ≤ -tooLarge at nonneg'
      omega
  · obtain finite' | rfl | rfl := isFinite_or_infinity number'
    · rw [sumOf_infinity _ finite']
      exact ⟨rfl, nonneg⟩
    · exact ⟨rfl, nonneg⟩
    · change 0 ≤ -tooLarge at nonneg'
      omega
  · change 0 ≤ -tooLarge at nonneg
    omega

/-- An infinite term makes the sum infinite when the other one is not below zero. -/
theorem sumOf_infinity_of_nonneg (number : u.isNaN = false) (nonneg : 0 ≤ units u) :
    sumOf u (.infinity .positive) = .infinity .positive := by
  obtain finite | rfl | rfl := isFinite_or_infinity number
  · exact sumOf_infinity_right _ finite
  · rfl
  · have top := tooLarge_pos
    change 0 ≤ -tooLarge at nonneg
    omega

/-- Numbers from zero on add up to no less than the first of them. -/
theorem units_le_sumOf (packed : Packed u) (packed' : Packed v) (number : u.isNaN = false)
    (number' : v.isNaN = false) (nonneg : 0 ≤ units u) (nonneg' : 0 ≤ units v) :
    units u ≤ units (sumOf u v) := by
  have top := tooLarge_pos
  obtain finite' | rfl | rfl := isFinite_or_infinity number'
  · obtain finite | rfl | rfl := isFinite_or_infinity number
    · -- the first term is not rounded, and rounding keeps the order
      have rounded : nearestInt (units u) ≤ nearestInt (units u + units v) :=
        nearestInt_mono (Int.le_add_of_nonneg_right nonneg')
      have range := units_lt packed finite
      rw [nearestInt_units packed.canonical finite] at rounded
      rw [(rounds_sumOf packed packed' finite finite').value, clipped]
      omega
    · rw [sumOf_infinity _ finite']
    · change 0 ≤ -tooLarge at nonneg
      omega
  · rw [sumOf_infinity_of_nonneg number nonneg]
    exact (units_le packed number).2
  · change 0 ≤ -tooLarge at nonneg'
    omega

/-- A number that is not below zero is at least zero. -/
theorem zero_le_of_not_lt {s : Sign} (number : u.isNaN = false)
    (not_lt : u.lt (.zero s) = false) : (UnpackedFloat.zero s).le u = true := by
  cases u with
  | notANumber => cases number
  | infinity s' =>
    cases s' with
    | positive => rfl
    | negative => cases not_lt
  | zero s' => rfl
  | finite s' m e pos =>
    cases s' with
    | positive => rfl
    | negative => cases not_lt

end Addition

/-! ### Doubles -/

section Doubles

variable {x y z : Float}

theorem packed_double (x : Float) : Packed x.toModel.unpack := packed_unpack _

/-- One double is at most another when both are numbers and their values are in order. -/
theorem double_le_iff :
    x ≤ y ↔ x.isNaN = false ∧ y.isNaN = false ∧
      units x.toModel.unpack ≤ units y.toModel.unpack := by
  have unfolded : x ≤ y ↔ x.toModel.unpack.le y.toModel.unpack = true :=
    decide_eq_true_iff
  have number (x : Float) : x.isNaN = x.toModel.unpack.isNaN := rfl
  rw [unfolded, number, number]
  constructor
  · intro le
    obtain ⟨number, number'⟩ := number_of_le le
    exact ⟨number, number', (le_iff_units (packed_double x) (packed_double y) number number').1 le⟩
  · rintro ⟨number, number', le⟩
    exact (le_iff_units (packed_double x) (packed_double y) number number').2 le

theorem double_le_trans (xy : x ≤ y) (yz : y ≤ z) : x ≤ z := by
  rw [double_le_iff] at xy yz ⊢
  exact ⟨xy.1, yz.2.1, xy.2.2.trans yz.2.2⟩

/-- Adding the same finite double keeps the order. -/
theorem double_add_le_add_right (le : x ≤ y) (finite : z.isFinite = true) : x + z ≤ y + z := by
  have sum (x : Float) : (x + z).toModel.unpack = sumOf x.toModel.unpack z.toModel.unpack := rfl
  have number (x : Float) : x.isNaN = x.toModel.unpack.isNaN := rfl
  rw [double_le_iff] at le ⊢
  obtain ⟨number_x, number_y, le⟩ := le
  rw [number, number, sum, sum]
  have packed := packed_double
  exact ⟨isNaN_sumOf (packed x) (packed z) number_x finite,
    isNaN_sumOf (packed y) (packed z) number_y finite,
    units_sumOf_le (packed x) (packed y) (packed z) number_x number_y finite le⟩

/-- Doubles from zero on add up to one from zero on. -/
theorem double_add_nonneg (x_nonneg : Scalar.zero ≤ x) (y_nonneg : Scalar.zero ≤ y) :
    Scalar.zero ≤ x + y := by
  have sum : (x + y).toModel.unpack = sumOf x.toModel.unpack y.toModel.unpack := rfl
  have number (x : Float) : x.isNaN = x.toModel.unpack.isNaN := rfl
  have zero_units : units (Scalar.zero : Float).toModel.unpack = 0 := rfl
  rw [double_le_iff, zero_units] at x_nonneg y_nonneg ⊢
  rw [number, sum]
  refine ⟨x_nonneg.1, sumOf_nonneg (packed_double x) (packed_double y) x_nonneg.2.1
    y_nonneg.2.1 x_nonneg.2.2 y_nonneg.2.2⟩

/-- Adding a double from zero on to one of them does not make it smaller. -/
theorem double_le_add (x_nonneg : Scalar.zero ≤ x) (y_nonneg : Scalar.zero ≤ y) : x ≤ x + y := by
  have sum : (x + y).toModel.unpack = sumOf x.toModel.unpack y.toModel.unpack := rfl
  have zero_units : units (Scalar.zero : Float).toModel.unpack = 0 := rfl
  have number := (double_le_iff.1 (double_add_nonneg x_nonneg y_nonneg)).2.1
  rw [double_le_iff, zero_units] at x_nonneg y_nonneg
  rw [double_le_iff, sum]
  exact ⟨x_nonneg.2.1, number, units_le_sumOf (packed_double x) (packed_double y) x_nonneg.2.1
    y_nonneg.2.1 x_nonneg.2.2 y_nonneg.2.2⟩

/-- Adding the same double from zero on keeps the order of doubles from zero on. -/
theorem double_add_le_add (x_nonneg : Scalar.zero ≤ x) (le : x ≤ y) (z_nonneg : Scalar.zero ≤ z) :
    x + z ≤ y + z := by
  have y_nonneg := double_le_trans x_nonneg le
  have zero_units : units (Scalar.zero : Float).toModel.unpack = 0 := rfl
  have sums := And.intro (double_add_nonneg x_nonneg z_nonneg) (double_add_nonneg y_nonneg z_nonneg)
  rw [double_le_iff, double_le_iff] at sums
  rw [double_le_iff, zero_units] at x_nonneg y_nonneg z_nonneg
  obtain finite | infinite | negative := isFinite_or_infinity z_nonneg.2.1
  · exact double_add_le_add_right le finite
  · -- both sums are infinite
    have sum {w : Float} (number : w.isNaN = false) (nonneg : 0 ≤ units w.toModel.unpack) :
        (w + z).toModel.unpack = .infinity .positive := by
      change sumOf w.toModel.unpack z.toModel.unpack = _
      rw [infinite, sumOf_infinity_of_nonneg number nonneg]
    refine double_le_iff.2 ⟨sums.1.2.1, sums.2.2.1, ?_⟩
    rw [sum x_nonneg.2.1 x_nonneg.2.2, sum y_nonneg.2.1 y_nonneg.2.2]
  · have top := tooLarge_pos
    have nonneg := z_nonneg.2.2
    rw [negative] at nonneg
    change 0 ≤ -tooLarge at nonneg
    omega

theorem double_nonneg_of_not_lt (number : x.isNaN = false) (not_lt : ¬ x < Scalar.zero) :
    Scalar.zero ≤ x := by
  have lt_iff : x < Scalar.zero ↔ x.toModel.unpack.lt (.zero .positive) = true :=
    decide_eq_true_iff
  have le_iff : Scalar.zero ≤ x ↔ (UnpackedFloat.zero .positive).le x.toModel.unpack = true :=
    decide_eq_true_iff
  rw [lt_iff, Bool.not_eq_true] at not_lt
  exact le_iff.2 (zero_le_of_not_lt number not_lt)

end Doubles

end SureCode
