import Mathlib
import SureCode.Node.Basic
import SureCode.Proofs.Doubles.Addition
import SureCode.Proofs.Exact
import SureCode.Proofs.Scalar

/-!
# Laws of costs

What the tables of a knapsack ask of scalars to be read back: costs are at least zero, sums of such
values are so too, and each of them equals itself. Exact scalars obey these laws and so do doubles,
whatever their rounding, for a sum without negative values never comes to be no number.
-/

namespace SureCode

/-- Scalars in which values from zero on equal themselves and add up to values from zero on. -/
class LawfulCosts (κ : Type) [Scalar κ] : Prop where
  zero_le_zero : (Scalar.zero : κ) ≤ Scalar.zero
  add_nonneg (a b : κ) : Scalar.zero ≤ a → Scalar.zero ≤ b → Scalar.zero ≤ a + b
  beq_self (a : κ) : Scalar.zero ≤ a → (a == a) = true
  cost?_nonneg (a : Construct κ) (cost : κ) : a.cost? = some cost → Scalar.zero ≤ cost

/-! ### Exact scalars -/

namespace Exact

theorem zero_le_iff {a : Exact} :
    Scalar.zero ≤ a ↔ a = plusInfinity ∨ ∃ x : ℚ, 0 ≤ x ∧ a = number x := by
  rw [zero_eq_number]
  change Exact.le (number 0) a = true ↔ _
  cases a <;> simp [Exact.le]

end Exact

open Exact in
instance : LawfulCosts Exact where
  zero_le_zero := zero_le_iff.2 (.inr ⟨0, le_rfl, zero_eq_number⟩)
  add_nonneg a b := by
    rw [zero_le_iff, zero_le_iff, zero_le_iff]
    rintro (rfl | ⟨x, x_nonneg, rfl⟩) (rfl | ⟨y, y_nonneg, rfl⟩)
    · exact .inl rfl
    · exact .inl rfl
    · exact .inl rfl
    · exact .inr ⟨x + y, add_nonneg x_nonneg y_nonneg, rfl⟩
  beq_self a := by
    rw [zero_le_iff]
    rintro (rfl | ⟨x, -, rfl⟩)
    · exact LawfulScalar.beq_self _ rfl
    · exact LawfulScalar.beq_self _ rfl
  cost?_nonneg a cost usable := by
    obtain ⟨x, nonneg, -, eq⟩ := Construct.cost?_eq_number usable
    exact zero_le_iff.2 (.inr ⟨x, nonneg, eq⟩)

/-! ### Doubles -/

instance : LawfulCosts Float where
  zero_le_zero := by decide +kernel
  add_nonneg _ _ := double_add_nonneg
  beq_self a nonneg := LawfulScalar.beq_self a (double_le_iff.1 nonneg).2.1
  cost?_nonneg a cost usable := by
    unfold Construct.cost? at usable
    split at usable
    case h_2 => cases usable
    case h_1 nll _ =>
      split at usable
      case isTrue => cases usable
      case isFalse number =>
        obtain rfl := Option.some.inj usable
        unfold Construct.clamp
        split
        case isTrue => decide +kernel
        case isFalse not_lt =>
          split
          · decide +kernel
          · exact double_nonneg_of_not_lt (Bool.eq_false_iff.2 number) not_lt

end SureCode
