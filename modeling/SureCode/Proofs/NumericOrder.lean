import Mathlib
import SureCode.Proofs.Doubles.Ranks
import SureCode.Proofs.Scalar

/-!
# Numeric order

What thresholds ask of scalars beside a total order on all values (`LawfulScalar`): that the numeric
order is transitive, that less and equal go by at most, and that the total order refines it on
numbers. Doubles and exact scalars have such an order. It is not the total one: zeros of two signs
are equal numbers, and what is no number does not compare.
-/

namespace SureCode

/-- Scalars with a numeric order that the total one refines. -/
class NumericOrder (κ : Type) [Scalar κ] : Prop where
  le_trans (a b c : κ) : a ≤ b → b ≤ c → a ≤ c
  lt_iff (a b : κ) : a < b ↔ a ≤ b ∧ ¬ b ≤ a
  beq_iff (a b : κ) : (a == b) = true ↔ a ≤ b ∧ b ≤ a
  le_of_totalLe (a b : κ) : Scalar.isNaN a = false → Scalar.isNaN b = false →
    Scalar.totalLe a b = true → a ≤ b

namespace Scalar

variable {κ : Type} [Scalar κ] [NumericOrder κ] {a b c : κ}

theorem lt_trans (ab : a < b) (bc : b < c) : a < c := by
  rw [NumericOrder.lt_iff] at ab bc ⊢
  refine ⟨NumericOrder.le_trans a b c ab.1 bc.1, fun ca => ab.2 ?_⟩
  exact NumericOrder.le_trans b c a bc.1 ca

theorem lt_asymm (ab : a < b) : ¬ b < a := by
  rw [NumericOrder.lt_iff] at ab ⊢
  exact fun ba => ab.2 ba.1

/-- Numbers that differ compare strictly, as the total order does. -/
theorem lt_of_totalLe (number : isNaN a = false) (number' : isNaN b = false)
    (le : totalLe a b = true) (differ : (b == a) = false) : a < b := by
  have below := NumericOrder.le_of_totalLe a b number number' le
  refine (NumericOrder.lt_iff a b).2 ⟨below, fun above => ?_⟩
  rw [(NumericOrder.beq_iff b a).2 ⟨above, below⟩] at differ
  exact Bool.noConfusion differ

end Scalar

instance : NumericOrder Exact where
  le_trans _ _ _ := Exact.le_trans
  lt_iff a b := by
    change (Exact.le a b && !Exact.le b a) = true ↔ Exact.le a b = true ∧ ¬ Exact.le b a = true
    rw [Bool.and_eq_true, Bool.not_eq_true', Bool.not_eq_true]
  beq_iff a b := by
    change (Exact.le a b && Exact.le b a) = true ↔ Exact.le a b = true ∧ Exact.le b a = true
    rw [Bool.and_eq_true]
  le_of_totalLe a b number number' le := by
    change Exact.totalLe a b = true at le
    change Exact.le a b = true
    cases a with
    | undefined => cases number
    | _ =>
      cases b with
      | undefined => cases number'
      | _ => exact le

instance : NumericOrder Float where
  le_trans _ _ _ := double_le_trans
  lt_iff _ _ := double_lt_iff
  beq_iff _ _ := double_beq_iff
  le_of_totalLe _ _ number number' le :=
    le_of_doubleRank_le number number' (of_decide_eq_true le)

end SureCode
