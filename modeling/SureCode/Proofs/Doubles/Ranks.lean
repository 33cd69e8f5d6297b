import Mathlib
import SureCode.Proofs.Doubles.Addition
import SureCode.Proofs.Scalar

/-!
# Ranks of doubles

The rank of a double orders the values by their bits, the numeric order orders them by what they
stand for. Without the sign, the bits of a number stand for more units the more they are as a number
(`unitsOfBits_mono`). So the order of ranks refines the numeric order of doubles
(`le_of_doubleRank_le`): only the two zeros have different ranks and the same value. Being less and
being equal are what being at most makes of them (`double_lt_iff`, `double_beq_iff`).
-/

namespace SureCode

open Float.Model Float.Model.UnpackedFloat

/-! ### Bits -/

/-- The number of units that the bits of a double without its sign stand for. -/
def unitsOfBits (bits : Nat) : Nat :=
  if bits < 2 ^ 52 then bits else (2 ^ 52 + bits % 2 ^ 52) * 2 ^ (bits / 2 ^ 52 - 1)

theorem unitsOfBits_mono : Monotone unitsOfBits := by
  refine monotone_nat_of_le_succ fun bits => ?_
  unfold unitsOfBits
  obtain small | least | large := lt_trichotomy (bits + 1) (2 ^ 52)
  · rw [if_pos small, if_pos (by omega)]
    omega
  · rw [if_pos (by omega), if_neg (by omega), least]
    omega
  · rw [if_neg (by omega), if_neg (by omega)]
    obtain inside | carry :
        (bits + 1) / 2 ^ 52 = bits / 2 ^ 52 ∧ (bits + 1) % 2 ^ 52 = bits % 2 ^ 52 + 1 ∨
          (bits + 1) / 2 ^ 52 = bits / 2 ^ 52 + 1 ∧ bits % 2 ^ 52 = 2 ^ 52 - 1 := by omega
    · rw [inside.1, inside.2]
      exact Nat.mul_le_mul_right _ (by omega)
    · -- the mantissa is full, so one bit more is the next power of two
      obtain ⟨exponent, eq⟩ : ∃ exponent, bits / 2 ^ 52 = exponent + 1 :=
        ⟨bits / 2 ^ 52 - 1, by omega⟩
      have rest : (bits + 1) % 2 ^ 52 = 0 := by omega
      rw [carry.1, carry.2, rest, eq, Nat.add_sub_cancel, Nat.add_sub_cancel, pow_succ]
      calc (2 ^ 52 + (2 ^ 52 - 1)) * 2 ^ exponent ≤ 2 ^ 52 * 2 * 2 ^ exponent :=
            Nat.mul_le_mul_right _ (by decide)
        _ = (2 ^ 52 + 0) * (2 ^ exponent * 2) := by ring

theorem toNat_packComponents (s : UnpackedFloat.Sign) (exponent : BitVec 11) (mantissa : BitVec 52) :
    (packComponents Format.binary64 s exponent mantissa).toNat
      = s.toBitVec.toNat * 2 ^ 63 + exponent.toNat * 2 ^ 52 + mantissa.toNat := by
  have fields : (s.toBitVec ++ exponent ++ mantissa).toNat
      = (s.toBitVec.toNat * 2 ^ 11 + exponent.toNat) * 2 ^ 52 + mantissa.toNat := by
    rw [BitVec.toNat_append, BitVec.toNat_append, ← Nat.shiftLeft_add_eq_or_of_lt exponent.isLt,
      ← Nat.shiftLeft_add_eq_or_of_lt mantissa.isLt, Nat.shiftLeft_eq, Nat.shiftLeft_eq]
  change (s.toBitVec ++ exponent ++ mantissa).toNat = _
  rw [fields]
  ring

/-- The value of a number is read off its bits. -/
theorem units_packComponents (s : UnpackedFloat.Sign) (exponent : BitVec 11) (mantissa : BitVec 52)
    (number : (unpack Format.binary64 (packComponents Format.binary64 s exponent mantissa)).isNaN
      = false) :
    units (unpack Format.binary64 (packComponents Format.binary64 s exponent mantissa))
      = s.apply (unitsOfBits (exponent.toNat * 2 ^ 52 + mantissa.toNat)) := by
  have short : mantissa.toNat < 2 ^ 52 := mantissa.isLt
  rw [unpack_packComponents] at number ⊢
  split_ifs at number ⊢ with special fraction least zero
  · have all : exponent.toNat * 2 ^ 52 + mantissa.toNat = 2047 * 2 ^ 52 := by
      rw [special, fraction]
      rfl
    have value : unitsOfBits (2047 * 2 ^ 52) = magnitude (2 ^ 52) 972 := by
      have exponent : ((972 : Int) + 1074).toNat = 2047 - 1 := rfl
      rw [unitsOfBits, if_neg (by norm_num), Nat.mul_mod_left, Nat.mul_div_cancel _ (by norm_num),
        Nat.add_zero, magnitude, exponent]
    rw [all, value, units, tooLarge]
  · cases number
  · have value : unitsOfBits 0 = 0 := if_pos (by norm_num)
    rw [least, zero, BitVec.toNat_zero, BitVec.toNat_zero, Nat.zero_mul, Nat.zero_add, value]
    cases s <;> rfl
  · have small : (0#11).toNat * 2 ^ 52 + mantissa.toNat = mantissa.toNat := by
      rw [BitVec.toNat_zero, Nat.zero_mul, Nat.zero_add]
    have value : magnitude mantissa.toNat (-1074) = mantissa.toNat := Nat.mul_one _
    rw [least, small, unitsOfBits, if_pos short, units, value]
  · have positive : 0 < exponent.toNat :=
      Nat.pos_of_ne_zero fun eq => least (BitVec.eq_of_toNat_eq eq)
    have large : ¬ exponent.toNat * 2 ^ 52 + mantissa.toNat < 2 ^ 52 := by omega
    have high : (exponent.toNat * 2 ^ 52 + mantissa.toNat) / 2 ^ 52 = exponent.toNat := by omega
    have low : (exponent.toNat * 2 ^ 52 + mantissa.toNat) % 2 ^ 52 = mantissa.toNat := by omega
    have shift : ((exponent.toNat : Int) - 1075 + 1074).toNat = exponent.toNat - 1 := by omega
    rw [unitsOfBits, if_neg large, high, low, units, magnitude, shift]

/-! ### Ranks -/

/-- The number of units of a double at a place in the total order. -/
def unitsOfRank (rank : Int) : Int :=
  if 0 ≤ rank then unitsOfBits rank.toNat else -unitsOfBits (-1 - rank).toNat

theorem unitsOfRank_mono : Monotone unitsOfRank := by
  intro low high le
  have mono {a b : Nat} (le : a ≤ b) : (unitsOfBits a : Int) ≤ unitsOfBits b :=
    Int.ofNat_le.2 (unitsOfBits_mono le)
  unfold unitsOfRank
  split
  · rw [if_pos (by omega)]
    exact mono (by omega)
  · split
    · have := Int.natCast_nonneg (unitsOfBits (-1 - low).toNat)
      have := Int.natCast_nonneg (unitsOfBits high.toNat)
      omega
    · exact Int.neg_le_neg (mono (by omega))

/-- The bits of a number stand for as many units as their rank does. -/
theorem unitsOfRank_bitsRank (s : UnpackedFloat.Sign) {bits : Nat} (small : bits < 2 ^ 63) :
    unitsOfRank (bitsRank (s.toBitVec.toNat * 2 ^ 63 + bits)) = s.apply (unitsOfBits bits) := by
  cases s with
  | positive =>
    have sign : UnpackedFloat.Sign.positive.toBitVec.toNat = 0 := rfl
    rw [sign, Nat.zero_mul, Nat.zero_add, bitsRank, if_pos (by omega), unitsOfRank,
      if_pos (Int.natCast_nonneg bits), Int.toNat_natCast]
    rfl
  | negative =>
    have sign : UnpackedFloat.Sign.negative.toBitVec.toNat = 1 := rfl
    have rank : (0x7fffffffffffffff : Int) - ((1 * 2 ^ 63 + bits : Nat) : Int) = -1 - bits := by
      omega
    have back : (-1 - (-1 - (bits : Int))).toNat = bits := by omega
    rw [sign, bitsRank, if_neg (by omega), rank, unitsOfRank, if_neg (by omega), back]
    rfl

/-! ### Comparison -/

section Comparison

variable (u v : UnpackedFloat)

theorem compare_swap : v.compare u = (u.compare v).map Ordering.swap := by
  cases u with
  | notANumber => cases v <;> rfl
  | infinity s =>
    cases v with
    | infinity s' => cases s <;> cases s' <;> rfl
    | _ => cases s <;> rfl
  | zero s =>
    cases v with
    | notANumber => rfl
    | infinity s' => cases s' <;> rfl
    | zero s' => rfl
    | finite s' m' e' pos' => cases s' <;> rfl
  | finite s m e pos =>
    cases v with
    | notANumber => cases s <;> rfl
    | infinity s' => cases s <;> cases s' <;> rfl
    | zero s' => cases s <;> rfl
    | finite s' m' e' pos' =>
      have swap := swap_then_compare e e' m m'
      cases s with
      | negative =>
        cases s' with
        | negative =>
          change some _ = some _
          rw [Ordering.swap_swap, ← swap, Ordering.swap_swap]
        | positive => rfl
      | positive =>
        cases s' with
        | negative => rfl
        | positive =>
          change some _ = some _
          rw [swap]

theorem unpacked_lt_iff : u.lt v = true ↔ u.le v = true ∧ ¬ v.le u = true := by
  rw [UnpackedFloat.lt, UnpackedFloat.le, UnpackedFloat.le, compare_swap u v]
  cases h : u.compare v with
  | none => simp
  | some o => cases o <;> simp

theorem unpacked_beq_iff : u.beq v = true ↔ u.le v = true ∧ v.le u = true := by
  rw [UnpackedFloat.beq, UnpackedFloat.le, UnpackedFloat.le, compare_swap u v]
  cases h : u.compare v with
  | none => simp
  | some o => cases o <;> simp

end Comparison

/-! ### Doubles -/

section Doubles

variable {x y : Float}

/-- The value of a number is read off its rank. -/
theorem units_double (number : x.isNaN = false) :
    units x.toModel.unpack = unitsOfRank (doubleRank x) := by
  change (unpack Format.binary64 x.toBits.toBitVec).isNaN = false at number
  change units (unpack Format.binary64 x.toBits.toBitVec)
    = unitsOfRank (bitsRank x.toBits.toBitVec.toNat)
  generalize x.toBits.toBitVec = bits at number ⊢
  rw [← @packComponents_unpackSign_unpackExponent_unpackMantissa Format.binary64 bits]
    at number ⊢
  generalize UnpackedFloat.Sign.ofBitVec (@unpackSign Format.binary64 bits) = s at number ⊢
  generalize @unpackExponent Format.binary64 bits = exponent at number ⊢
  generalize @unpackMantissa Format.binary64 bits = mantissa at number ⊢
  have narrow : exponent.toNat < 2 ^ 11 := exponent.isLt
  have short : mantissa.toNat < 2 ^ 52 := mantissa.isLt
  rw [units_packComponents s exponent mantissa number, toNat_packComponents, Nat.add_assoc,
    unitsOfRank_bitsRank s (by omega)]

/-- The order of ranks refines the numeric order. -/
theorem le_of_doubleRank_le (number : x.isNaN = false) (number' : y.isNaN = false)
    (le : doubleRank x ≤ doubleRank y) : x ≤ y := by
  refine double_le_iff.2 ⟨number, number', ?_⟩
  rw [units_double number, units_double number']
  exact unitsOfRank_mono le

/-- A double is less than another when it is at most the other and not the other way round. -/
theorem double_lt_iff : x < y ↔ x ≤ y ∧ ¬ y ≤ x := by
  have le_iff (x y : Float) : x ≤ y ↔ x.toModel.unpack.le y.toModel.unpack = true :=
    decide_eq_true_iff
  have lt_iff : x < y ↔ x.toModel.unpack.lt y.toModel.unpack = true := decide_eq_true_iff
  rw [lt_iff, le_iff, le_iff, unpacked_lt_iff]

/-- Doubles are equal as numbers when each is at most the other. -/
theorem double_beq_iff : (x == y) = true ↔ x ≤ y ∧ y ≤ x := by
  have le_iff (x y : Float) : x ≤ y ↔ x.toModel.unpack.le y.toModel.unpack = true :=
    decide_eq_true_iff
  have beq_iff : (x == y) = true ↔ x.toModel.unpack.beq y.toModel.unpack = true := Iff.rfl
  rw [beq_iff, le_iff, le_iff, unpacked_beq_iff]

end Doubles

end SureCode
