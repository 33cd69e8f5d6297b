import Mathlib
import SureCode.Calibration.Coverage
import SureCode.Proofs.Scalar

/-!
# Rows of a coverage

Counting outcomes one after the other gives, for every threshold that occurs, the tally of just its
own outcomes. So the rows of `aggregate` are those of the thresholds that occur, the loosest first,
and every outcome is counted in one of them (`sum_samples_aggregate`).
-/

namespace SureCode

variable {κ : Type}

namespace Tally

/-- The counts of some outcomes, all of one threshold. -/
def ofOutcomes [Scalar κ] (maxCost : κ) (outcomes : List (Outcome κ)) : Tally κ :=
  outcomes.foldl add (empty maxCost)

section Counts

variable [Scalar κ] {maxCost : κ} {outcomes : List (Outcome κ)}

theorem ofOutcomes_append_singleton (o : Outcome κ) :
    ofOutcomes maxCost (outcomes ++ [o]) = (ofOutcomes maxCost outcomes).add o := by
  rw [ofOutcomes, List.foldl_append, List.foldl_cons, List.foldl_nil, ofOutcomes]

/-- Counting goes on from what is counted already. -/
theorem foldl_add (tally : Tally κ) :
    outcomes.foldl add tally =
      ⟨tally.maxCost, tally.samples + outcomes.length,
        tally.contained + outcomes.countP (·.contained),
        (outcomes.map (·.fracIncluded)).foldl (· + ·) tally.included⟩ := by
  induction outcomes generalizing tally with
  | nil => rfl
  | cons o outcomes ih =>
    have counts : o.contained.toNat = if o.contained = true then 1 else 0 := by
      cases o.contained <;> rfl
    rw [List.foldl_cons, ih, List.length_cons, List.countP_cons, List.map_cons, List.foldl_cons, add,
      counts]
    congr 1 <;> dsimp only <;> omega

/-- What is counted of some outcomes: how many there are, how many are contained, and their shares
one after the other. -/
theorem ofOutcomes_eq :
    ofOutcomes maxCost outcomes =
      ⟨maxCost, outcomes.length, outcomes.countP (·.contained),
        (outcomes.map (·.fracIncluded)).foldl (· + ·) Scalar.zero⟩ := by
  rw [ofOutcomes, foldl_add, empty, Nat.zero_add, Nat.zero_add]

@[simp] theorem maxCost_ofOutcomes : (ofOutcomes maxCost outcomes).maxCost = maxCost := by
  rw [ofOutcomes_eq]

@[simp] theorem samples_ofOutcomes : (ofOutcomes maxCost outcomes).samples = outcomes.length := by
  rw [ofOutcomes_eq]

end Counts

/-! ### Counting by threshold -/

variable [Scalar κ] [LawfulScalar κ] {o : Outcome κ} {costs : List κ} {tally : κ → Tally κ}

/-- An outcome of a threshold that has counts is added to them. -/
theorem record_of_mem (keyed : ∀ c, (tally c).maxCost = c) (nodup : costs.Nodup)
    (mem : o.maxCost ∈ costs) (tally' : κ → Tally κ)
    (here : tally' o.maxCost = (tally o.maxCost).add o)
    (others : ∀ c ≠ o.maxCost, tally' c = tally c) :
    record o (costs.map tally) = costs.map tally' := by
  induction costs with
  | nil => cases mem
  | cons c costs ih =>
    obtain ⟨new, nodup⟩ := List.nodup_cons.1 nodup
    rw [List.map_cons, List.map_cons, record, keyed]
    by_cases eq : c = o.maxCost
    · subst eq
      have rest : costs.map tally = costs.map tally' :=
        List.map_congr_left fun c mem => (others c (ne_of_mem_of_not_mem mem new)).symm
      rw [if_pos (Scalar.same_iff.2 rfl), here, rest]
    · have later := (List.mem_cons.1 mem).resolve_left (Ne.symm eq)
      rw [if_neg fun same => eq (Scalar.same_iff.1 same), others c eq, ih nodup later]

/-- An outcome of a threshold without counts is counted behind all others. -/
theorem record_of_notMem (keyed : ∀ c, (tally c).maxCost = c) (absent : o.maxCost ∉ costs) :
    record o (costs.map tally) = costs.map tally ++ [(empty o.maxCost).add o] := by
  induction costs with
  | nil => rfl
  | cons c costs ih =>
    rw [List.mem_cons, not_or] at absent
    rw [List.map_cons, record, keyed, if_neg fun same => absent.1 (Scalar.same_iff.1 same).symm,
      ih absent.2, List.cons_append]

/-- Counting gives one tally for every threshold that occurs, of exactly its outcomes. -/
theorem exists_tallies (outcomes : List (Outcome κ)) :
    ∃ costs : List κ, costs.Nodup ∧ (∀ c, c ∈ costs ↔ c ∈ outcomes.map (·.maxCost)) ∧
      outcomes.foldl (fun tallies o => record o tallies) []
        = costs.map fun c => ofOutcomes c (outcomes.filter fun o => Scalar.same o.maxCost c) := by
  induction outcomes using List.reverseRecOn with
  | nil => exact ⟨[], .nil, by simp, rfl⟩
  | append_singleton outcomes o ih =>
    obtain ⟨costs, nodup, occurs, eq⟩ := ih
    let tally (c : κ) : Tally κ :=
      ofOutcomes c (outcomes.filter fun o => Scalar.same o.maxCost c)
    let tally' (c : κ) : Tally κ :=
      ofOutcomes c ((outcomes ++ [o]).filter fun o => Scalar.same o.maxCost c)
    have keyed (c : κ) : (tally c).maxCost = c := maxCost_ofOutcomes
    have here : tally' o.maxCost = (tally o.maxCost).add o := by
      have same : Scalar.same o.maxCost o.maxCost = true := Scalar.same_iff.2 rfl
      simp only [tally', tally, List.filter_append, List.filter_cons, same, if_true,
        List.filter_nil, ofOutcomes_append_singleton]
    have others (c : κ) (ne : c ≠ o.maxCost) : tally' c = tally c := by
      have apart : ¬ Scalar.same o.maxCost c = true := fun same => ne (Scalar.same_iff.1 same).symm
      simp only [tally', tally, List.filter_append, List.filter_cons, apart, Bool.false_eq_true,
        if_false, List.filter_nil, List.append_nil]
    rw [List.foldl_append, List.foldl_cons, List.foldl_nil, eq]
    by_cases mem : o.maxCost ∈ costs
    · refine ⟨costs, nodup, fun c => ?_, record_of_mem keyed nodup mem tally' here others⟩
      rw [List.map_append, List.mem_append, ← occurs]
      refine ⟨.inl, fun h => h.elim id fun last => ?_⟩
      rw [List.map_singleton, List.mem_singleton] at last
      exact last ▸ mem
    · refine ⟨costs ++ [o.maxCost], ?_, fun c => ?_, ?_⟩
      · rw [List.nodup_append]
        exact ⟨nodup, List.nodup_singleton _, fun c first _ last =>
          List.mem_singleton.1 last ▸ ne_of_mem_of_not_mem first mem⟩
      · simp [occurs]
      · have none : outcomes.filter (fun o' => Scalar.same o'.maxCost o.maxCost) = [] := by
          rw [List.filter_eq_nil_iff]
          intro o' mem' same
          refine mem ((occurs _).2 ?_)
          rw [← Scalar.same_iff.1 same]
          exact List.mem_map_of_mem mem'
        have first : tally o.maxCost = empty o.maxCost := by
          simp only [tally, none]
          rfl
        have rest : costs.map tally' = costs.map tally :=
          List.map_congr_left fun c other => others c (ne_of_mem_of_not_mem other mem)
        change _ = (costs ++ [o.maxCost]).map tally'
        rw [record_of_notMem keyed mem, List.map_append, rest, List.map_singleton, here, first]

end Tally

/-! ### Rows -/

/-- The rows of a coverage are those of the thresholds that occur, the loosest first, and the row of
a threshold sums up exactly its outcomes. -/
theorem exists_aggregate [LogScalar κ] [LawfulScalar κ] (outcomes : List (Outcome κ)) :
    ∃ costs : List κ, costs.Pairwise (fun looser tighter => Scalar.totalLt tighter looser = true) ∧
      (∀ c, c ∈ costs ↔ c ∈ outcomes.map (·.maxCost)) ∧
      aggregate outcomes = costs.map fun c =>
        (Tally.ofOutcomes c (outcomes.filter fun o => Scalar.same o.maxCost c)).toCoverage := by
  obtain ⟨costs, nodup, occurs, eq⟩ := Tally.exists_tallies outcomes
  let falling (a b : κ) : Bool := Scalar.totalLe b a
  have perm : (costs.mergeSort falling).Perm costs := List.mergeSort_perm costs falling
  have falls : (costs.mergeSort falling).Pairwise fun a b => Scalar.totalLe b a = true :=
    Scalar.pairwise_mergeSort costs
  refine ⟨costs.mergeSort falling, ?_, fun c => ?_, ?_⟩
  · refine (falls.and (perm.nodup_iff.2 nodup)).imp fun {a b} h => ?_
    exact Scalar.totalLt_iff.2 ⟨h.1, h.2.symm⟩
  · rw [perm.mem_iff, occurs]
  · rw [aggregate, eq, List.map_map, List.map_mergeSort]
    · rfl
    · intro a _ b _
      simp only [Tally.toCoverage, Tally.maxCost_ofOutcomes, falling]

/-- Entries with one of some keys are counted once if the keys are those that occur. -/
theorem sum_length_filter {ε α : Type} [DecidableEq α] (key : ε → α) (entries : List ε)
    {keys : List α} (nodup : keys.Nodup) (occurs : ∀ k, k ∈ keys ↔ k ∈ entries.map key) :
    (keys.map fun k => (entries.filter fun e => key e = k).length).sum = entries.length := by
  have perm : keys.Perm (entries.map key).dedup :=
    (List.perm_ext_iff_of_nodup nodup (List.nodup_dedup _)).2
      fun k => (occurs k).trans List.mem_dedup.symm
  have count (k : α) : (entries.filter fun e => key e = k).length = (entries.map key).count k := by
    rw [← List.countP_eq_length_filter, List.count, List.countP_map]
    exact List.countP_congr fun e _ => by rw [decide_eq_true_eq, Function.comp_apply, beq_iff_eq]
  calc (keys.map fun k => (entries.filter fun e => key e = k).length).sum
      = (keys.map fun k => (entries.map key).count k).sum := by simp only [count]
    _ = ((entries.map key).dedup.map fun k => (entries.map key).count k).sum :=
        (perm.map _).sum_eq
    _ = entries.length := by rw [List.sum_map_count_dedup_eq_length, List.length_map]

/-- Every outcome is counted in one row. -/
theorem sum_samples_aggregate [LogScalar κ] [LawfulScalar κ] (outcomes : List (Outcome κ)) :
    ((aggregate outcomes).map (·.samples)).sum = outcomes.length := by
  classical
  obtain ⟨costs, falls, occurs, eq⟩ := exists_aggregate outcomes
  rw [← sum_length_filter (·.maxCost) outcomes (Scalar.nodup_of_falls falls) occurs, eq,
    List.map_map]
  refine congrArg List.sum (List.map_congr_left fun c _ => ?_)
  have own : (outcomes.filter fun o => Scalar.same o.maxCost c)
      = outcomes.filter fun o => o.maxCost = c :=
    List.filter_congr fun o _ => Bool.eq_iff_iff.2 (Scalar.same_iff.trans decide_eq_true_iff.symm)
  exact Tally.samples_ofOutcomes.trans (congrArg List.length own)

end SureCode
