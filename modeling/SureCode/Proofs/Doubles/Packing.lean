import Mathlib
import SureCode.Scalar

/-!
# Packed doubles

A double is stored as bits and computed with in its unpacked form. Whatever the bits are, the form is
canonical (`packed_unpack`): a finite number has the mantissa and the exponent that the format
gives to its value. A canonical number that is not too large comes out of its bits as it was
(`unpack_pack`), and one that is too large becomes infinite.
-/

namespace SureCode

open Float.Model Float.Model.UnpackedFloat

/-- The mantissa has no more bits than the format, and has fewer only with the least exponent. -/
def Canonical : UnpackedFloat → Prop
  | .finite _ m e _ => m < 2 ^ 53 ∧ -1074 ≤ e ∧ (2 ^ 52 ≤ m ∨ e = -1074)
  | _ => True

/-- The exponent is not too large for the format. -/
def InRange : UnpackedFloat → Prop
  | .finite _ _ e _ => e ≤ 971
  | _ => True

/-- What may come out of bits. -/
structure Packed (u : UnpackedFloat) : Prop where
  canonical : Canonical u
  range : InRange u

theorem toNat_implicit (m : BitVec 52) : (1#1 ++ m).toNat = 2 ^ 52 + m.toNat := by
  rw [BitVec.toNat_append, ← Nat.shiftLeft_add_eq_or_of_lt m.isLt]
  rfl

/-! ### Unpacking -/

/-- How a double is unpacked from its sign, its exponent and its mantissa. -/
theorem unpack_packComponents (s : Sign) (exponent : BitVec 11) (mantissa : BitVec 52) :
    unpack Format.binary64 (packComponents Format.binary64 s exponent mantissa)
      = if exponent = -1#11 then if mantissa = 0#52 then .infinity s else .notANumber
        else if exponent = 0#11 then
          if h : mantissa = 0#52 then .zero s
          else .finite s mantissa.toNat (-1074)
            (Nat.pos_of_ne_zero fun eq => h (BitVec.eq_of_toNat_eq eq))
        else .finite s (2 ^ 52 + mantissa.toNat) (exponent.toNat - 1075) (by omega) := by
  have sign : Sign.ofBitVec (unpackSign (packComponents Format.binary64 s exponent mantissa)) = s := by
    rw [unpackSign_packComponents]
    cases s <;> rfl
  unfold UnpackedFloat.unpack
  simp only [unpackMantissa_packComponents, unpackExponent_packComponents, sign]
  split
  · rfl
  · split
    · rename_i zero
      subst zero
      rfl
    · congr 1
      exact toNat_implicit mantissa

theorem packed_unpack (bits : BitVec 64) : Packed (unpack Format.binary64 bits) := by
  rw [← @packComponents_unpackSign_unpackExponent_unpackMantissa Format.binary64 bits,
    unpack_packComponents]
  generalize @unpackExponent Format.binary64 bits = exponent
  generalize @unpackMantissa Format.binary64 bits = mantissa
  have short : mantissa.toNat < 2 ^ 52 := mantissa.isLt
  split_ifs with special fraction none zero
  · exact ⟨trivial, trivial⟩
  · exact ⟨trivial, trivial⟩
  · exact ⟨trivial, trivial⟩
  · refine ⟨⟨by omega, by decide, .inr rfl⟩, ?_⟩
    show (-1074 : Int) ≤ 971
    decide
  · have most : exponent.toNat ≠ 2047 := fun eq => special (BitVec.eq_of_toNat_eq eq)
    have least : exponent.toNat ≠ 0 := fun eq => none (BitVec.eq_of_toNat_eq eq)
    have lt : exponent.toNat < 2 ^ 11 := exponent.isLt
    refine ⟨⟨by omega, by omega, .inl (by omega)⟩, ?_⟩
    show (exponent.toNat : Int) - 1075 ≤ 971
    omega

/-! ### Packing -/

/-- A canonical number that is not too large comes out of its bits as it was. -/
theorem unpack_pack {u : UnpackedFloat} (packed : Packed u) :
    unpack Format.binary64 (pack Format.binary64 u) = u := by
  obtain ⟨canonical, range⟩ := packed
  cases u with
  | notANumber => rfl
  | infinity s => cases s <;> rfl
  | zero s => cases s <;> rfl
  | finite s m e pos =>
    obtain ⟨most, least, normal⟩ := canonical
    change e ≤ 971 at range
    obtain ⟨biased, eq⟩ : ∃ biased : Nat, (biased : Int) = e + 1075 :=
      ⟨(e + 1075).toNat, Int.toNat_of_nonneg (by omega)⟩
    have field : (e + Format.binary64.exponentBias
        + Format.binary64.mantissaBitsWithoutImplicit).toNat = biased := by
      change (e + 1023 + 52).toNat = biased
      omega
    rw [UnpackedFloat.pack, field, if_neg (by change ¬ 2048 ≤ biased + 1; omega)]
    by_cases full : 2 ^ 52 ≤ m
    · have width : m.log2 = 52 := (Nat.log2_eq_iff pos.ne').2 ⟨full, most⟩
      have exponent : (BitVec.ofNat 11 biased).toNat = biased := Nat.mod_eq_of_lt (by omega)
      have inner : BitVec.ofNat 11 biased ≠ -1#11 ∧ BitVec.ofNat 11 biased ≠ 0#11 := by
        constructor <;> intro same <;> have := congrArg BitVec.toNat same <;>
          rw [exponent] at this <;> simp at this <;> omega
      rw [if_pos (by rw [width]; rfl), unpack_packComponents, if_neg inner.1, if_neg inner.2]
      congr 1
      · rw [BitVec.toNat_ofNat]
        omega
      · rw [exponent, eq]
        omega
    · obtain rfl : e = -1074 := normal.resolve_left full
      have mantissa : (BitVec.ofNat 52 m).toNat = m := Nat.mod_eq_of_lt (by omega)
      have nonzero : BitVec.ofNat 52 m ≠ 0#52 := by
        intro zero
        have := congrArg BitVec.toNat zero
        rw [mantissa] at this
        exact pos.ne' this
      have width : m.log2 < 52 := (Nat.log2_lt pos.ne').2 (by omega)
      rw [if_neg (by change ¬ m.log2 + 1 = 1 + 52; omega), unpack_packComponents,
        if_neg (by decide), if_pos rfl, dif_neg nonzero]
      congr 1

/-- A number that is too large becomes infinite. -/
theorem unpack_pack_of_large {s : Sign} {m : Nat} {e : Int} {pos : 0 < m} (large : 971 < e) :
    unpack Format.binary64 (pack Format.binary64 (.finite s m e pos)) = .infinity s := by
  have field : 2 ^ Format.binary64.exponentBits ≤ (e + Format.binary64.exponentBias
      + Format.binary64.mantissaBitsWithoutImplicit).toNat + 1 := by
    change 2048 ≤ (e + 1023 + 52).toNat + 1
    omega
  rw [UnpackedFloat.pack, if_pos field, packedInfinity, unpack_packComponents, if_pos rfl]
  exact if_pos rfl

end SureCode
