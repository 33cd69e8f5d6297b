import Mathlib
import SureCode.Proofs.Pruning.Exact
import SureCode.Proofs.Pruning.Greedy
import SureCode.Proofs.Pruning.Limits

/-!
# The greedy engine against the exact one

A single threshold leaves the exact engine nothing to search, so it answers within any limit
(`exists_pruneExact_singleton`), and what it keeps is a largest admissible selection
(`exists_largest`). Where every node below the root has a usable cost the greedy engine ends in an
admissible selection too, and without a hole budget it gives up only when the root alone is too
dear. Hence greedy pruning never beats exact pruning (`pruneGreedy_le_pruneExact`).
-/

namespace SureCode

open SureCode.Tree Exact

namespace Pruning

/-- The number of nodes that an answer retains. -/
def retained (p : Pruning Exact) : Nat := (p.pruned.map Tree.size).getD 0

end Pruning

namespace Node

variable {t : Node Exact} {maxHoles : HoleBudget} {limit id : Nat} {keep : Nat → Bool}
  {threshold : Exact} {q : Pruning Exact}

/-! ### Exact pruning for one threshold -/

theorem exists_pruneExact_singleton (t : Node Exact) (maxHoles : HoleBudget) (pos : 0 < limit)
    (maxCost : ℚ) : ∃ q, t.pruneExact maxHoles limit [number maxCost] = .ok [q] := by
  cases ok : t.pruneExact maxHoles limit [number maxCost] with
  | ok results =>
    obtain ⟨q, rfl, -⟩ := List.map_eq_singleton_iff.1 (map_maxCost_pruneExact ok)
    exact ⟨q, rfl⟩
  | error e =>
    have usable : checkThresholds [number maxCost] = .ok () := rfl
    obtain rfl | rfl := eq_of_pruneExact_eq_error usable ok
    · exact absurd ok (pruneExact_ne_of_length_le le_rfl pos)
    · exact absurd ok (t.pruneExact_ne_unsolved maxHoles limit [number maxCost])

/-- Exact pruning for one threshold keeps a largest admissible selection. -/
theorem exists_largest (ok : t.pruneExact maxHoles limit [threshold] = .ok [q])
    (sat : q.isSat = true) :
    ∃ kept, q = (t.reconstruct kept).toPruning threshold .sat ∧ kept 0 = true ∧
      ClosedOn kept (numbered [] 0 [t]) ∧
        ∀ keep, t.Admissible maxHoles keep → fits threshold (t.keptCharge keep) = true →
          t.keptIndicators keep ≤ t.keptIndicators kept := by
  obtain ⟨levels, grounded, best, answers⟩ := exists_best ok
  obtain ⟨rest, split⟩ := t.exists_rest maxHoles [threshold]
  rw [List.filter_cons_of_pos sat, List.filter_nil] at answers
  have feasible_eq : t.feasible maxHoles [threshold] = [threshold] := by
    cases feasible_eq : t.feasible maxHoles [threshold] with
    | nil => simp [feasible_eq] at answers
    | cons a others =>
      rw [feasible_eq] at split
      simp only [List.cons_append, List.cons.injEq, List.nil_eq, List.append_eq_nil_iff] at split
      rw [split.1, split.2.1]
  have lt : 0 < (t.feasible maxHoles [threshold]).length := by simp [feasible_eq]
  have score_eq : ((t.keepFamily levels (t.feasible maxHoles [threshold])).map
      t.keptIndicators).sum = levels.score := sum_keepFamily (valid_of_grounded grounded)
  rw [feasible_eq] at answers score_eq
  obtain rfl := (List.cons.inj answers).1
  refine ⟨t.keepAt levels 0, rfl, (admissible_keepAt grounded lt).root,
    closedOn_keepAt grounded lt, fun keep admissible fit => ?_⟩
  have mem : [keep] ∈ t.Families maxHoles (t.feasible maxHoles [threshold]) := by
    rw [feasible_eq]
    exact ⟨.cons ⟨admissible, fits_iff.1 fit⟩ .nil, List.pairwise_singleton _ _⟩
  have le := sum_le_score best mem
  rw [← score_eq] at le
  simpa [keepFamily] using le

/-! ### What is retained -/

theorem retained_reconstruct {check : Check} (closed : ClosedOn keep (numbered [] 0 [t]))
    (root : keep 0 = true) :
    ((t.reconstruct keep).toPruning threshold check).retained
      = (List.range t.size).countP keep := by
  obtain ⟨v, pruned⟩ := exists_pruned (t := t) root
  have numbers : List.range t.size = (numbered [] 0 [t]).map (·.2) := by
    rw [map_snd_numbered, sizeAll_singleton, List.range_eq_range']
  change (((t.reconstruct keep).pruned).map Tree.size).getD 0 = _
  rw [pruned, Option.map_some, Option.getD_some, ← length_preorder,
    preorder_pruned closed pruned, preorder_annotated closed, ← List.countP_eq_length_filter,
    List.countP_map, numbers, List.countP_map]
  refine List.countP_congr fun p _ => ?_
  simp

/-! ### Priced trees -/

/-- Every node below the root has a usable cost. -/
def Priced (t : Node Exact) : Prop := ∀ a ∈ t.preorder.tail, a.cost?.isSome = true

namespace Priced

variable (priced : t.Priced)

include priced

theorem hasIndicator (lt : id < t.size) (below : id ≠ 0) : t.hasIndicator id = true := by
  obtain ⟨id, rfl⟩ := Nat.exists_eq_succ_of_ne_zero below
  rw [← length_preorder] at lt
  have mem : t.preorder[id + 1] ∈ t.preorder.tail := by
    rw [List.mem_iff_getElem]
    exact ⟨id, by rw [List.length_tail]; omega, by rw [List.getElem_tail]⟩
  rw [Node.hasIndicator, TreeIndex.label?_ofTree, List.getElem?_eq_getElem lt, Option.any_some,
    priced _ mem]
  rfl

theorem follows : t.Follows keep := by
  intro id lt unmarked
  by_cases root : id = 0
  · rw [root, guardian_zero]
  · rw [priced.hasIndicator lt root] at unmarked
    exact absurd unmarked.symm Bool.false_ne_true

/-- Keeping nodes with their parents is keeping them with their guardians, with the same holes. -/
theorem admissible (root : keep 0 = true) (closed : ClosedOn keep (numbered [] 0 [t]))
    (allows : maxHoles.Allows (holesOn keep (numbered [] 0 [t]))) :
    t.Admissible maxHoles keep := by
  refine ⟨root, fun id lt keeps => ?_, ?_⟩
  · rcases exists_row lt with rfl | ⟨e, mem⟩
    · rwa [guardian_zero]
    · rw [← priced.follows.parentKept root mem]
      exact closed (e, id) (mem_rows_of_below mem) keeps
  · rw [rows_eq, holesOn_cons, priced.follows.holesOn root] at allows
    simpa [root] using allows

/-- All that is kept below the root has an indicator. -/
theorem keptIndicators_add_one (root : keep 0 = true) :
    t.keptIndicators keep + 1 = (List.range t.size).countP keep := by
  rw [keptIndicators, countP_ids (by simp [hasIndicator_zero]), ids_eq,
    List.countP_cons_of_pos root, List.countP_map]
  congr 1
  refine List.countP_congr fun p mem => ?_
  have marked := priced.hasIndicator (lt_of_mem_below mem) (pos_of_mem_below mem).ne'
  simp [marked]

end Priced

/-! ### Where greedy pruning ends -/

/-- The root alone is as cheap as anything with the root. -/
theorem fits_root {maxCost : Exact} {kept : Nat → Bool} (root : keep 0 = true) (root' : kept 0 = true)
    (alone : ∀ id < t.size, kept id = true → id = 0)
    (fit : fits maxCost (t.keptCharge keep) = true) : fits maxCost (t.keptCharge kept) = true := by
  have none_below : (t.below.filter fun p => kept p.2) = [] := by
    rw [List.filter_eq_nil_iff]
    intro p mem keeps
    exact (pos_of_mem_below mem).ne' (alone p.2 (lt_of_mem_below mem) keeps)
  have nonneg : 0 ≤ ((t.below.filter fun p => keep p.2).map fun p => chargeValue p.1.label).sum := by
    refine List.sum_nonneg ?_
    rw [List.forall_mem_map]
    exact fun p _ => chargeValue_nonneg p.1.label
  rw [keptCharge_eq_number root] at fit
  rw [keptCharge_eq_number root', none_below]
  refine fits_mono ?_ fit
  simpa using nonneg

/-- A node that is left below the root leaves something to remove. -/
theorem eq_zero_of_next_eq_none {s : Removal.State Exact} (consistent : Removal.Consistent t s)
    (next : s.next false = none) (lt : id < t.size) (kept : s.kept id = true) : id = 0 := by
  by_contra inner
  -- below the last node that is left all children are gone
  let p (i : Nat) : Prop := i < t.size ∧ i ≠ 0 ∧ s.kept i = true
  have bounded : ∀ i, p i → i ≤ t.size := fun i h => h.1.le
  classical
  obtain ⟨inside, ne, last⟩ := Nat.findGreatest_spec (P := p) lt.le ⟨lt, inner, kept⟩
  have removable : t.Removable s.kept (Nat.findGreatest p t.size) := by
    refine ⟨inside, ne, last, fun c child => ?_⟩
    have parent := TreeIndex.parent?_lt (TreeIndex.mem_children_ofTree.1 child)
    by_contra keeps
    have le := Nat.le_findGreatest (P := p) parent.2.le
      ⟨parent.2, Nat.ne_zero_of_lt parent.1, by simpa using keeps⟩
    exact absurd parent.1 (not_lt.2 le)
  obtain ⟨b, mem, eq⟩ := (consistent.leaves _ last).2 removable
  have gone := Removal.next_eq_none next b mem
  rw [eq, last] at gone
  exact Bool.false_ne_true gone.symm

/-- Greedy pruning answers with the nodes of a consistent state in which the cost fits or no
candidate is left. -/
theorem exists_pruneGreedy (t : Node Exact) (maxHoles : HoleBudget) (maxCost : ℚ) :
    ∃ s : Removal.State Exact, Removal.Consistent t s ∧ maxHoles.Allows s.holes ∧
      (fits (number maxCost) s.retained = true ∨
        s.next (Removal.onlyExtending maxHoles s) = none) ∧
        t.pruneGreedy maxHoles (number maxCost) = .ok ((t.reconstruct s.kept).toPruning
          (number maxCost) (if fits (number maxCost) s.retained then .sat else .unsat)) := by
  have isNumber : Scalar.isNaN (number maxCost) = false := rfl
  obtain ⟨s, -, answer⟩ := t.exists_greedy_run maxHoles isNumber
  exact ⟨s, answer⟩

/-! ### Comparison -/

/-- Where all nodes below the root have a usable cost both engines answer for a finite threshold.
Exact pruning is satisfied wherever greedy pruning is and retains at least as many nodes, and
without a hole budget the two are satisfied alike. -/
theorem pruneGreedy_le_pruneExact (priced : t.Priced) (maxHoles : HoleBudget) (maxCost : ℚ)
    (pos : 1 ≤ limit) :
    ∃ p q, t.pruneGreedy maxHoles (number maxCost) = .ok p ∧
      t.pruneExact maxHoles limit [number maxCost] = .ok [q] ∧
        (p.isSat = true → q.isSat = true ∧ p.retained ≤ q.retained) ∧
          (maxHoles = none → p.check = q.check) := by
  obtain ⟨s, consistent, allows, ended, greedy⟩ := exists_pruneGreedy t maxHoles maxCost
  obtain ⟨q, exact⟩ := t.exists_pruneExact_singleton maxHoles pos maxCost
  have admissible : t.Admissible maxHoles s.kept :=
    priced.admissible consistent.root consistent.closed (consistent.holes ▸ allows)
  have maxCost_eq : q.maxCost = number maxCost := (List.cons.inj (map_maxCost_pruneExact exact)).1
  have sat_iff := isSat_iff exact q (List.mem_singleton.2 rfl)
  rw [maxCost_eq] at sat_iff
  refine ⟨_, q, greedy, exact, fun greedy_sat => ?_, fun unbounded => ?_⟩
  · have fit : fits (number maxCost) (t.keptCharge s.kept) = true := by
      rw [← consistent.retained]
      by_contra not_fit
      rw [if_neg not_fit] at greedy_sat
      exact absurd greedy_sat Bool.false_ne_true
    have sat : q.isSat = true :=
      sat_iff.2 ⟨s.kept, admissible, priced.follows, fits_iff.1 fit⟩
    obtain ⟨kept, rfl, root, closed, largest⟩ := exists_largest exact sat
    have le := largest s.kept admissible fit
    have greedy_count := priced.keptIndicators_add_one consistent.root
    have exact_count := priced.keptIndicators_add_one root
    refine ⟨sat, ?_⟩
    rw [retained_reconstruct consistent.closed consistent.root, retained_reconstruct closed root]
    omega
  · change (if fits (number maxCost) s.retained then Check.sat else .unsat) = q.check
    have check_iff : q.check = .sat ↔ q.isSat = true := beq_iff_eq.symm
    split
    case isTrue fit =>
      rw [consistent.retained] at fit
      exact (check_iff.2 (sat_iff.2 ⟨s.kept, admissible, priced.follows, fits_iff.1 fit⟩)).symm
    case isFalse not_fit =>
      have next := ended.resolve_left not_fit
      rw [unbounded] at next
      cases check : q.check with
      | unsat => rfl
      | sat =>
        obtain ⟨keep, selection, -, fit⟩ := sat_iff.1 (check_iff.1 check)
        rw [consistent.retained] at not_fit
        exact absurd (fits_root selection.root consistent.root
          (fun id lt kept => eq_zero_of_next_eq_none consistent next lt kept) (fits_iff.2 fit))
          not_fit

/-- A root without cost over a leaf of cost three and a dear node with a cheap one below it. -/
def uneven : Node Exact :=
  node (costing none)
    [node (costing (some 5)) [node (costing (some 1)) []], node (costing (some 3)) []]

/-- Greedy pruning has removed both leaves before it can remove the dear node. -/
theorem pruneGreedy_le_pruneExact_uneven :
    ∃ p q, uneven.pruneGreedy none (number 4) = .ok p ∧
      uneven.pruneExact none 1 [number 4] = .ok [q] ∧ q.isSat = true ∧
        p.retained ≤ q.retained ∧ p.check = q.check ∧ (p.retained, q.retained) = (1, 2) := by
  have priced : uneven.Priced := by
    unfold Priced
    decide +kernel
  have answers : (uneven.pruneGreedy none (number 4)).toOption.map
      (fun p => (p.isSat, p.retained)) = some (true, 1) := by
    cbv
  have counts : (uneven.pruneExact none 1 [number 4]).toOption.map
      (fun results => results.map fun q => q.retained) = some [2] := by
    decide +kernel
  obtain ⟨p, q, greedy, exact, le, same⟩ := pruneGreedy_le_pruneExact priced none 4 (le_refl 1)
  simp only [greedy, exact, Except.toOption, Option.map_some, Option.some.injEq, Prod.mk.injEq,
    List.map_cons, List.map_nil, List.cons.injEq, and_true] at answers counts
  exact ⟨p, q, greedy, exact, (le answers.1).1, (le answers.1).2, same rfl, by
    rw [answers.2, counts]⟩

end Node

end SureCode
