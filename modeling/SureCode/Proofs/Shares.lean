import Mathlib
import SureCode.Proofs.Doubles.Packing
import SureCode.Proofs.Doubles.Rounding

/-!
# Shares of counts

The share that one count has of another is a finite double. Doubles are read through their unpacked
form: rounding a positive number that has bits enough gives a mantissa of full width and a size that
grows by one bit at most. So a count is a normal double of about its own size, and the quotient of
two such doubles lies far from the ends of the range.
-/

namespace SureCode

open Float.Model Float.Model.UnpackedFloat

/-! ### Rounding -/

/-- Shifting a mantissa of more bits than the format has cuts it to just these. -/
theorem shiftToTargetExponent_of_wide {m : Nat} {e : Int} (accuracy : Accuracy)
    (wide : 52 ≤ m.log2) (large : -1000 ≤ totalExponent m e) :
    ∃ em : ExtendedMantissa,
      shiftToTargetExponent Format.binary64 m e accuracy = (em, totalExponent m e - 53) ∧
        em.mantissa = m / 2 ^ (m.log2 - 52) := by
  have shift : (Format.binary64.targetExponent (totalExponent m e) - e).toNat = m.log2 - 52 := by
    rw [targetExponent_binary64]
    unfold totalExponent at large ⊢
    omega
  have start : (ExtendedMantissa.ofMantissaAndAccuracy m accuracy).mantissa = m := by
    cases accuracy with
    | exact => rfl
    | inexact order => cases order <;> rfl
  refine ⟨ExtendedMantissa.ofMantissaAndAccuracy m accuracy >>> (m.log2 - 52), ?_, ?_⟩
  · rw [shiftToTargetExponent, shiftToExponent, shift]
    refine Prod.ext rfl ?_
    change e + ((m.log2 - 52 : Nat) : Int) = _
    unfold totalExponent
    omega
  · rw [mantissa_shiftRight, start]

/-- A number with a mantissa of full width, not below `2 ^ (low - 1)` and below `2 ^ high`. -/
def Normal (low high : Int) (x : UnpackedFloat) : Prop :=
  ∃ s m e pos, x = .finite s m e pos ∧ m.log2 = 52 ∧ low ≤ totalExponent m e ∧
    totalExponent m e ≤ high

/-- Rounding keeps the size of a number or adds one bit to it. -/
theorem normal_roundWithAccuracy {m : Nat} {e low high : Int} (s : Sign) (accuracy : Accuracy)
    (wide : 52 ≤ m.log2) (large : -1000 ≤ low) (above : low ≤ totalExponent m e)
    (below : totalExponent m e < high) :
    Normal low high (roundWithAccuracy Format.binary64 s m e accuracy) := by
  obtain ⟨em, first, cut⟩ := shiftToTargetExponent_of_wide accuracy wide (large.trans above)
  have width : em.mantissa.log2 = 52 := by rw [cut, log2_div_two_pow wide]
  -- rounding up may fill one bit more, which the second shift cuts off
  have rounded : em.roundedMantissa.log2 = 52 ∨ em.roundedMantissa.log2 = 53 := by
    have nonzero : em.mantissa ≠ 0 := by
      intro zero
      simp [zero] at width
    obtain ⟨least, most⟩ := (Nat.log2_eq_iff nonzero).1 width
    obtain same | up := roundedMantissa_cases em
    · exact .inl (same ▸ width)
    · by_cases full : em.mantissa + 1 = 2 ^ 53
      · exact .inr (by rw [up, full, Nat.log2_two_pow])
      · exact .inl (by rw [up, Nat.log2_eq_iff (Nat.succ_ne_zero _)]; omega)
  have size : totalExponent em.roundedMantissa (totalExponent m e - 53)
      = totalExponent m e + (em.roundedMantissa.log2 - 52 : Int) := by
    rw [totalExponent]
    omega
  obtain ⟨em', second, cut'⟩ := shiftToTargetExponent_of_wide .exact
    (m := em.roundedMantissa) (e := totalExponent m e - 53) (by omega) (by omega)
  have width' : em'.mantissa.log2 = 52 := by rw [cut', log2_div_two_pow (by omega)]
  have nonzero : em'.mantissa ≠ 0 := by
    intro zero
    simp [zero] at width'
  refine ⟨s, em'.mantissa, totalExponent em.roundedMantissa (totalExponent m e - 53) - 53,
    Nat.pos_of_ne_zero nonzero, ?_, width', ?_⟩
  · rw [roundWithAccuracy, first]
    dsimp only
    rw [second]
    exact dif_neg nonzero
  · rw [totalExponent, width', size]
    omega

/-! ### Packing -/

/-- A normal number that is far from the ends of the range keeps its size when it is packed. -/
theorem Normal.unpack_pack {low high : Int} {x : UnpackedFloat} (normal : Normal low high x)
    (large : -1000 ≤ low) (small : high ≤ 1000) :
    Normal low high (Float.Model.pack x).unpack := by
  have same : (Float.Model.pack x).unpack = x := by
    obtain ⟨s, m, e, pos, rfl, width, above, below⟩ := normal
    obtain ⟨least, most⟩ := (Nat.log2_eq_iff pos.ne').1 width
    rw [totalExponent, width] at above below
    have canonical : Canonical (.finite s m e pos) := ⟨most, by omega, .inl least⟩
    have range : InRange (.finite s m e pos) := by
      change e ≤ 971
      omega
    exact SureCode.unpack_pack ⟨canonical, range⟩
  rwa [same]

/-! ### Counts -/

theorem ofScientific_zero {n : Nat} (pos : 0 < n) :
    UnpackedFloat.ofScientific Format.binary64 n 0
      = roundWithAccuracy Format.binary64 .positive (n * 2 ^ 53) (-53) .exact := by
  have below : ¬ (0 : Int) < -((2 ^ Format.binary64.exponentBits : Int) + n.log2) := by
    have : (0 : Int) ≤ 2 ^ Format.binary64.exponentBits := by decide
    omega
  rw [UnpackedFloat.ofScientific, dif_neg pos.ne', if_neg (by decide), if_neg below,
    if_pos (le_refl 0), UnpackedFloat.mul]
  simp only [Int.toNat_zero, Nat.pow_zero, Nat.mul_one, Nat.shiftLeft_eq, Int.add_zero]
  rfl

theorem normal_toFloat {n : Nat} (pos : 0 < n) (small : n < 2 ^ 53) :
    Normal 1 54 n.toUInt64.toFloat.toModel.unpack := by
  have log : n.log2 < 53 := (Nat.log2_lt pos.ne').2 small
  have word : n.toUInt64.toNat = n := Nat.mod_eq_of_lt (small.trans (by decide))
  have rounded : UnpackedFloat.ofUInt64 Format.binary64 n.toUInt64
      = roundWithAccuracy Format.binary64 .positive (n * 2 ^ (52 - n.log2)) (n.log2 - 52) .exact := by
    have shift : (0 - Format.binary64.targetExponent (totalExponent n 0)).toNat = 52 - n.log2 := by
      rw [targetExponent_binary64, totalExponent]
      omega
    have positive : compare (n : Int) 0 = .gt := Int.compare_eq_gt.2 (by omega)
    rw [UnpackedFloat.ofUInt64, UnpackedFloat.ofNat, UnpackedFloat.ofInt, UnpackedFloat.normalize,
      word, positive]
    dsimp only
    rw [UnpackedFloat.round, decreaseExponent, Int.toNat_natCast, shift, Nat.shiftLeft_eq]
    dsimp only
    congr 1
    omega
  refine Normal.unpack_pack ?_ (by decide) (by decide)
  have scale := log2_mul_two_pow pos (52 - n.log2)
  rw [rounded]
  refine normal_roundWithAccuracy _ .exact ?_ (by decide) ?_ ?_
  · omega
  · rw [totalExponent]
    omega
  · rw [totalExponent]
    omega

/-- A positive count is a normal double that has few bits more than the count. -/
theorem normal_ofNat {n : Nat} (pos : 0 < n) (small : n < 2 ^ 128) :
    Normal 1 140 (Float.ofNat n).toModel.unpack := by
  have log : n.log2 < 128 := (Nat.log2_lt pos.ne').2 small
  have ofNat_eq : Float.ofNat n = Float.ofScientific n false 0 := rfl
  rw [ofNat_eq, Float.ofScientific]
  split
  case isTrue exactly =>
    obtain ⟨s, m, e, pos', unpacked, width, above, below⟩ := normal_toFloat pos exactly.1
    refine Normal.unpack_pack ?_ (by decide) (by decide)
    have one : (Float.ofBits 0x3FF0000000000000).toModel.unpack
        = .finite .positive (2 ^ 52) (-52) (by decide) := by
      rfl
    change Normal 1 140 (UnpackedFloat.mul Format.binary64 n.toUInt64.toFloat.toModel.unpack
      (Float.ofBits 0x3FF0000000000000).toModel.unpack)
    rw [unpacked, one]
    have scale := log2_mul_two_pow pos' 52
    rw [totalExponent] at above below
    refine normal_roundWithAccuracy _ .exact ?_ (by decide) ?_ ?_
    · omega
    · rw [totalExponent]
      omega
    · rw [totalExponent]
      omega
  case isFalse large =>
    have scale := log2_mul_two_pow pos 53
    refine Normal.unpack_pack ?_ (by decide) (by decide)
    change Normal 1 140 (UnpackedFloat.ofScientific Format.binary64 n 0)
    rw [ofScientific_zero pos]
    refine normal_roundWithAccuracy _ .exact ?_ (by decide) ?_ ?_
    · omega
    · rw [totalExponent]
      omega
    · rw [totalExponent]
      omega

/-! ### Quotients -/

/-- The size of a quotient is about the difference of the sizes. -/
theorem normal_div {low high low' high' : Int} {x y : UnpackedFloat} (normal : Normal low high x)
    (normal' : Normal low' high' y) (large : -1000 ≤ low - high') :
    Normal (low - high') (high - low' + 2) (UnpackedFloat.div Format.binary64 x y) := by
  obtain ⟨s, m, d, pos, rfl, width, above, below⟩ := normal
  obtain ⟨t, n, e, pos', rfl, width', above', below'⟩ := normal'
  rw [totalExponent, width] at above below
  rw [totalExponent, width'] at above' below'
  obtain ⟨least, most⟩ := (Nat.log2_eq_iff pos.ne').1 width
  obtain ⟨least', most'⟩ := (Nat.log2_eq_iff pos'.ne').1 width'
  have target : min (d - e) (Format.binary64.targetExponent (totalExponent m d - totalExponent n e))
      = d - e - 53 := by
    rw [targetExponent_binary64, totalExponent, totalExponent, width, width']
    omega
  have shift : (d - e - (d - e - 53)).toNat = 53 := by omega
  have divided : UnpackedFloat.div Format.binary64 (.finite s m d pos) (.finite t n e pos')
      = roundWithAccuracy Format.binary64 (s / t) (m * 2 ^ 53 / n) (d - e - 53)
        (accuracyOfFraction (m * 2 ^ 53 % n) n) := by
    rw [UnpackedFloat.div, divCore]
    simp only [target, shift, Nat.shiftLeft_eq]
  have wide : 2 ^ 52 ≤ m * 2 ^ 53 / n := by
    rw [Nat.le_div_iff_mul_le pos']
    omega
  have narrow : m * 2 ^ 53 / n < 2 ^ 54 := by
    rw [Nat.div_lt_iff_lt_mul pos']
    omega
  have nonzero : m * 2 ^ 53 / n ≠ 0 := (Nat.pos_of_ne_zero (by decide)).trans_le wide |>.ne'
  have log : 52 ≤ (m * 2 ^ 53 / n).log2 := (Nat.le_log2 nonzero).2 wide
  have log' : (m * 2 ^ 53 / n).log2 < 54 := (Nat.log2_lt nonzero).2 narrow
  rw [divided]
  refine normal_roundWithAccuracy _ _ log large ?_ ?_
  · rw [totalExponent]
    omega
  · rw [totalExponent]
    omega

/-- The share that one count has of another is finite. -/
theorem isFinite_share {k n : Nat} (le : k ≤ n) (pos : 0 < n) (small : n < 2 ^ 128) :
    (Float.ofNat k / Float.ofNat n).isFinite = true := by
  have normal := normal_ofNat pos small
  change (Float.Model.pack (UnpackedFloat.div Format.binary64 (Float.ofNat k).toModel.unpack
    (Float.ofNat n).toModel.unpack)).unpack.isFinite = true
  obtain rfl | pos' := Nat.eq_zero_or_pos k
  · have zero : (Float.ofNat 0).toModel.unpack = .zero .positive := rfl
    obtain ⟨s, m, e, pos', unpacked, -⟩ := normal
    rw [zero, unpacked, UnpackedFloat.div]
    cases s <;> decide +kernel
  · have quotient := normal_div (normal_ofNat pos' (le.trans_lt small)) normal (by decide)
    obtain ⟨s, m, e, pos'', unpacked, -⟩ := quotient.unpack_pack (by decide) (by decide)
    rw [unpacked]
    rfl

end SureCode
