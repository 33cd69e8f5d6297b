import Mathlib
import SureCode.Proofs.Calibration.Coverage
import SureCode.Proofs.Hybrid

/-!
# Outcomes in any order

With exact shares the rows of a coverage say nothing about the order in which the outcomes came: the
row of a threshold goes by how many outcomes it has, how many of them are contained and the sum of
their shares (`toCoverage_ofOutcomes`), and rows come in the total order of the thresholds. Thresholds
are told apart by their bits, so that rows of two zeros do not merge (`aggregate_partitions`).
-/

namespace SureCode

/-- One sample under the threshold with some bits, with its exact share. -/
structure Sighting where
  bits : UInt64
  contained : Bool
  share : ℚ

namespace Sighting

def toOutcome (s : Sighting) : Outcome Hybrid := ⟨.double s.bits, s.contained, .share s.share⟩

/-- The row of the threshold with some bits that has these sightings: the coverage as a double and
the share that was removed on average as a rational number. -/
def row (bits : UInt64) (own : List Sighting) : Coverage Hybrid where
  maxCost := .double bits
  tau := .ofDouble (0 - Float.ofBits bits).exp
  samples := own.length
  coverage := .ofDouble (Float.ofNat (own.countP (·.contained)) / Float.ofNat own.length * 100)
  percentRemoved := .share (100 - (own.map (·.share)).sum / own.length * 100)

/-- A row does not depend on the order of its sightings. -/
theorem row_perm {bits : UInt64} {own own' : List Sighting} (perm : own.Perm own') :
    row bits own = row bits own' := by
  rw [row, row, perm.length_eq, perm.countP_eq, (perm.map _).sum_eq]

/-- What the counts of some sightings amount to. -/
theorem toCoverage_ofOutcomes (bits : UInt64) {own : List Sighting} (occurs : own ≠ []) :
    (Tally.ofOutcomes (.double bits) (own.map toOutcome)).toCoverage = row bits own := by
  have shares : ((own.map toOutcome).map (·.fracIncluded)).foldl (· + ·) Scalar.zero
      = .share (own.map (·.share)).sum := by
    rw [← Hybrid.foldl_add_zero (mt List.map_eq_nil_iff.1 occurs), List.map_map, List.map_map]
    rfl
  have tau : LogScalar.exp (Scalar.zero - Hybrid.double bits)
      = .ofDouble (0 - Float.ofBits bits).exp := by
    change Hybrid.ofDouble (Hybrid.ofDouble (0 - Float.ofBits bits)).toDouble.exp = _
    rw [Hybrid.toDouble_ofDouble]
  have coverage (contained samples : ℕ) :
      (contained : Hybrid) / (samples : Hybrid) * Tally.hundred
        = .ofDouble (Float.ofNat contained / Float.ofNat samples * 100) := by
    change Hybrid.ofDouble
      ((Hybrid.ofDouble (Float.ofNat contained / Float.ofNat samples)).toDouble * 100) = _
    rw [Hybrid.toDouble_ofDouble]
  rw [Tally.ofOutcomes_eq, shares, List.length_map, List.countP_map, Tally.toCoverage, tau, coverage]
  rfl

/-- The rows are those of the bits that occur, by falling rank, each of the sightings with its
bits. -/
theorem exists_rows (sightings : List Sighting) :
    ∃ keys : List UInt64,
      keys.Pairwise (fun looser tighter => bitsRank tighter.toNat < bitsRank looser.toNat) ∧
      (∀ bits, bits ∈ keys ↔ bits ∈ sightings.map (·.bits)) ∧
      aggregate (sightings.map toOutcome)
        = keys.map fun bits => row bits (sightings.filter fun s => s.bits = bits) := by
  obtain ⟨costs, falls, occurs, eq⟩ := exists_aggregate (sightings.map toOutcome)
  have doubles : ∀ c ∈ costs, c ∈ Set.range Hybrid.double := by
    intro c mem
    have mem' := (occurs c).1 mem
    rw [List.map_map, List.mem_map] at mem'
    obtain ⟨s, -, rfl⟩ := mem'
    exact ⟨s.bits, rfl⟩
  obtain ⟨keys, rfl⟩ : costs ∈ Set.range (List.map Hybrid.double) :=
    Set.range_list_map Hybrid.double ▸ doubles
  have occurs' (bits : UInt64) : bits ∈ keys ↔ bits ∈ sightings.map (·.bits) := by
    have costs := occurs (.double bits)
    simp only [List.mem_map, List.map_map, Function.comp_apply, toOutcome, Hybrid.double.injEq,
      exists_eq_right] at costs ⊢
    exact costs
  refine ⟨keys, ?_, occurs', ?_⟩
  · rw [List.pairwise_map] at falls
    exact falls.imp Hybrid.totalLt_double.1
  · rw [eq, List.map_map]
    refine List.map_congr_left fun bits mem => ?_
    have own : ((sightings.map toOutcome).filter fun o => Scalar.same o.maxCost (.double bits))
        = (sightings.filter fun s => s.bits = bits).map toOutcome := by
      rw [List.filter_map]
      refine congrArg _ (List.filter_congr fun s _ => Bool.eq_iff_iff.2 ?_)
      rw [Function.comp_apply, Scalar.same_iff, decide_eq_true_iff]
      exact Hybrid.double.injEq .. ▸ Iff.rfl
    have present : (sightings.filter fun s => s.bits = bits) ≠ [] := by
      obtain ⟨s, here, eq⟩ := List.mem_map.1 ((occurs' bits).1 mem)
      exact List.ne_nil_of_mem (List.mem_filter.2 ⟨here, decide_eq_true eq⟩)
    rw [Function.comp_apply, own, toCoverage_ofOutcomes bits present]

end Sighting

/-- The rows of a coverage partition the outcomes whatever their order: one row for each threshold
that occurs, told apart by their bits and falling in the total order, which counts exactly the
outcomes of its threshold. -/
theorem aggregate_partitions (sightings : List Sighting) :
    (∃ keys : List UInt64,
      keys.Pairwise (fun looser tighter => bitsRank tighter.toNat < bitsRank looser.toNat) ∧
      (∀ bits, bits ∈ keys ↔ bits ∈ sightings.map (·.bits)) ∧
      aggregate (sightings.map Sighting.toOutcome)
        = keys.map fun bits => Sighting.row bits (sightings.filter fun s => s.bits = bits)) ∧
      ((aggregate (sightings.map Sighting.toOutcome)).map (·.samples)).sum = sightings.length ∧
      ∀ sightings' : List Sighting, sightings.Perm sightings' →
        aggregate (sightings'.map Sighting.toOutcome)
          = aggregate (sightings.map Sighting.toOutcome) := by
  refine ⟨Sighting.exists_rows sightings, ?_, fun sightings' perm => ?_⟩
  · rw [sum_samples_aggregate, List.length_map]
  · obtain ⟨keys, falls, occurs, eq⟩ := Sighting.exists_rows sightings
    obtain ⟨keys', falls', occurs', eq'⟩ := Sighting.exists_rows sightings'
    have same : keys' = keys := Hybrid.eq_of_falls falls' falls fun bits => by
      rw [occurs, occurs', (perm.map (·.bits)).mem_iff]
    rw [eq, eq', same]
    exact List.map_congr_left fun bits _ => Sighting.row_perm (perm.symm.filter _)

/-- Two zeros, an infinity and one zero again, forwards and backwards: the zeros have two rows. -/
theorem aggregate_partitions_zeros :
    let sightings : List Sighting :=
      [⟨0x8000000000000000, true, 1 / 3⟩, ⟨0, false, 2 / 3⟩, ⟨0x7ff0000000000000, true, 1⟩,
        ⟨0, true, 1 / 7⟩]
    sightings.Perm sightings.reverse ∧
      aggregate (sightings.reverse.map Sighting.toOutcome)
        = aggregate (sightings.map Sighting.toOutcome) ∧
      aggregate (sightings.map Sighting.toOutcome) =
        [Sighting.row 0x7ff0000000000000 [⟨0x7ff0000000000000, true, 1⟩],
          Sighting.row 0 [⟨0, false, 2 / 3⟩, ⟨0, true, 1 / 7⟩],
          Sighting.row 0x8000000000000000 [⟨0x8000000000000000, true, 1 / 3⟩]] := by
  intro sightings
  obtain ⟨⟨keys, falls, occurs, rows⟩, -, anyOrder⟩ := aggregate_partitions sightings
  have perm : sightings.Perm sightings.reverse := (List.reverse_perm sightings).symm
  refine ⟨perm, anyOrder _ perm, ?_⟩
  have keys_eq : keys = [0x7ff0000000000000, 0, 0x8000000000000000] := by
    refine Hybrid.eq_of_falls falls (by decide) fun bits => ?_
    rw [occurs]
    simp only [sightings, List.map_cons, List.map_nil, List.mem_cons, List.not_mem_nil, or_false]
    tauto
  rw [rows, keys_eq]
  rfl

end SureCode
