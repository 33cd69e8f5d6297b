import Mathlib
import SureCode.Proofs.Exact

/-!
# Laws of scalars

What sorting and grouping by value ask of scalars: the total order is one, values that it puts in
one place are the same, and a number equals itself. Exact scalars obey these laws, and so do
doubles, where the total order goes by the bits and zeros of different signs are different values
that compare equal.
-/

namespace SureCode

/-- Scalars with a total order that tells all values apart. -/
class LawfulScalar (κ : Type) [Scalar κ] : Prop where
  totalLe_trans (a b c : κ) :
    Scalar.totalLe a b = true → Scalar.totalLe b c = true → Scalar.totalLe a c = true
  totalLe_total (a b : κ) : (Scalar.totalLe a b || Scalar.totalLe b a) = true
  totalLe_antisymm (a b : κ) : Scalar.totalLe a b = true → Scalar.totalLe b a = true → a = b
  beq_self (a : κ) : Scalar.isNaN a = false → (a == a) = true

/-- Where the total order goes by a place that tells values apart, and numbers equal themselves, the
laws hold. -/
theorem LawfulScalar.of_place {κ β : Type} [Scalar κ] [LinearOrder β] (place : κ → β)
    (apart : Function.Injective place)
    (totalLe_eq : ∀ a b, Scalar.totalLe a b = decide (place a ≤ place b))
    (beq_self : ∀ a : κ, Scalar.isNaN a = false → (a == a) = true) : LawfulScalar κ where
  totalLe_trans a b c ab bc := by
    rw [totalLe_eq, decide_eq_true_eq] at ab bc ⊢
    exact le_trans ab bc
  totalLe_total a b := by
    rw [totalLe_eq, totalLe_eq, Bool.or_eq_true, decide_eq_true_eq, decide_eq_true_eq]
    exact le_total (place a) (place b)
  totalLe_antisymm a b ab ba := by
    rw [totalLe_eq, decide_eq_true_eq] at ab ba
    exact apart (le_antisymm ab ba)
  beq_self := beq_self

namespace Scalar

variable {κ : Type} [Scalar κ] [LawfulScalar κ]

theorem totalLe_self (a : κ) : totalLe a a = true := by
  simpa using LawfulScalar.totalLe_total a a

/-- Sameness is equality. -/
@[simp] theorem same_iff {a b : κ} : same a b = true ↔ a = b := by
  rw [same, Bool.and_eq_true]
  constructor
  · rintro ⟨le, ge⟩
    exact LawfulScalar.totalLe_antisymm a b le ge
  · rintro rfl
    exact ⟨totalLe_self a, totalLe_self a⟩

/-- What is above another value in the total order lies strictly above it unless it is the same. -/
theorem totalLt_iff {a b : κ} : totalLt a b = true ↔ totalLe a b = true ∧ a ≠ b := by
  rw [totalLt, Bool.and_eq_true, Bool.not_eq_true', and_congr_right_iff]
  intro le
  rw [← Bool.not_eq_true, not_iff_not]
  exact ⟨LawfulScalar.totalLe_antisymm a b le, fun eq => eq ▸ totalLe_self a⟩

theorem totalLt_trans {a b c : κ} (ab : totalLt a b = true) (bc : totalLt b c = true) :
    totalLt a c = true := by
  rw [totalLt_iff] at ab bc ⊢
  refine ⟨LawfulScalar.totalLe_trans a b c ab.1 bc.1, ?_⟩
  rintro rfl
  exact ab.2 (LawfulScalar.totalLe_antisymm a b ab.1 bc.1)

theorem totalLt_trichotomy (a b : κ) : totalLt a b = true ∨ a = b ∨ totalLt b a = true := by
  rw [totalLt_iff, totalLt_iff]
  by_cases eq : a = b
  · exact .inr (.inl eq)
  · have total := LawfulScalar.totalLe_total a b
    rw [Bool.or_eq_true] at total
    exact total.imp (fun le => ⟨le, eq⟩) fun ge => .inr ⟨ge, Ne.symm eq⟩

section Sorting

variable {xs sorted : List κ}

/-- Sorting by the total order, the largest first. -/
theorem pairwise_mergeSort (xs : List κ) :
    (xs.mergeSort fun a b => totalLe b a).Pairwise fun a b => totalLe b a = true := by
  apply List.pairwise_mergeSort
  · exact fun a b c ab bc => LawfulScalar.totalLe_trans c b a bc ab
  · exact fun a b => LawfulScalar.totalLe_total b a

/-- What falls in the total order is what sorting makes of the same values. -/
theorem mergeSort_eq (perm : xs.Perm sorted)
    (falls : sorted.Pairwise fun a b => totalLe b a = true) :
    (xs.mergeSort fun a b => totalLe b a) = sorted := by
  apply ((List.mergeSort_perm xs _).trans perm).eq_of_pairwise
  · exact fun a b _ _ le ge => LawfulScalar.totalLe_antisymm a b ge le
  · exact pairwise_mergeSort xs
  · exact falls

end Sorting

section Falling

variable {cs ds : List κ} (falls : cs.Pairwise fun a b => totalLt b a = true)

include falls

/-- What falls strictly has no repeats. -/
theorem nodup_of_falls : cs.Nodup :=
  falls.imp fun below => (totalLt_iff.1 below).2.symm

/-- Values have just one order in which they fall strictly. -/
theorem eq_of_falls (falls' : ds.Pairwise fun a b => totalLt b a = true)
    (same : ∀ c, c ∈ cs ↔ c ∈ ds) : cs = ds := by
  have perm : cs.Perm ds :=
    (List.perm_ext_iff_of_nodup (nodup_of_falls falls) (nodup_of_falls falls')).2 same
  refine perm.eq_of_pairwise (fun a b _ _ below above => ?_) falls falls'
  exact absurd rfl (totalLt_iff.1 (totalLt_trans below above)).2

end Falling

end Scalar

/-! ### Exact scalars -/

instance : LawfulScalar Exact where
  totalLe_trans a b c ab bc := by
    change Exact.totalLe a b = true at ab
    change Exact.totalLe b c = true at bc
    change Exact.totalLe a c = true
    cases a <;> cases b <;> cases c <;> simp_all [Exact.totalLe, Exact.le]
    exact le_trans ab bc
  totalLe_total a b := by
    change (Exact.totalLe a b || Exact.totalLe b a) = true
    cases a <;> cases b <;> simp [Exact.totalLe, Exact.le, le_total]
  totalLe_antisymm a b ab ba := by
    change Exact.totalLe a b = true at ab
    change Exact.totalLe b a = true at ba
    cases a <;> cases b <;> simp_all [Exact.totalLe, Exact.le]
    exact le_antisymm ab ba
  beq_self a number := by
    have defined : a ≠ .undefined := by
      rintro rfl
      exact absurd number (by decide)
    change (Exact.le a a && Exact.le a a) = true
    cases a <;> simp_all [Exact.le]

/-! ### Doubles -/

/-- The rank of the bits of a double. -/
def bitsRank (bits : Nat) : Int :=
  if bits < 0x8000000000000000 then bits else 0x7fffffffffffffff - (bits : Int)

/-- Doubles of one rank have the same bits. -/
theorem bitsRank_injective : Function.Injective fun bits : UInt64 => bitsRank bits.toNat := by
  intro a b eq
  have small := a.toNat_lt
  have small' := b.toNat_lt
  rw [← UInt64.toNat_inj]
  dsimp only [bitsRank] at eq
  split at eq <;> split at eq <;> omega

theorem doubleRank_injective : Function.Injective doubleRank := by
  rintro ⟨⟨bits, _⟩⟩ ⟨⟨bits', _⟩⟩ eq
  obtain rfl : bits = bits' := bitsRank_injective eq
  rfl

theorem beq_self_of_isNaN_eq_false {x : Float} (number : x.isNaN = false) : (x == x) = true := by
  change x.toModel.unpack.isNaN = false at number
  change (x.toModel.unpack.compare x.toModel.unpack == some .eq) = true
  cases unpacked : x.toModel.unpack with
  | notANumber => simp [unpacked, Float.Model.UnpackedFloat.isNaN] at number
  | infinity s => cases s <;> rfl
  | zero s => rfl
  | finite s m e pos => cases s <;> simp [Float.Model.UnpackedFloat.compare]

instance : LawfulScalar Float :=
  .of_place doubleRank doubleRank_injective (fun _ _ => rfl) fun _ => beq_self_of_isNaN_eq_false

end SureCode
