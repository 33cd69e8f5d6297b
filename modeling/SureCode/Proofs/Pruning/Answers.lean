import Mathlib
import SureCode.Proofs.Pruning.Admissible
import SureCode.Proofs.Pruning.Nests
import SureCode.Proofs.Pruning.Reconstruction
import SureCode.Pruning.Exact

/-!
# What exact pruning retains

A run of `pruneExact` that answers has found the levels of nested solutions, one for each threshold
that has a selection (`exists_grounded`). Under each of these thresholds the levels stand for an
admissible selection of nodes (`admissible_keepAt`), and its marked tree retains the root, each node
only with its parent and the nodes without an indicator exactly with their guardian, within the hole
budget (`retention_answer`). A tighter threshold retains nothing that a looser one does not
(`pairwise_retains`). All this holds wherever costs are lawful.
-/

namespace SureCode

open SureCode.Tree

namespace Pruning

variable {κ : Type} [Scalar κ]

/-- Whether an answer retains a node. -/
def retains (p : Pruning κ) (id : Nat) : Bool := p.annotated.any fun u => u.retains id

/-- The number of nodes with an indicator that an answer retains. -/
def keptIndicators (p : Pruning κ) : Nat :=
  match p.annotated with
  | some u => u.preorder.tail.countP fun a => !a.isDeleted && a.cost?.isSome
  | none => 0

end Pruning

namespace Node

variable {κ : Type} [Scalar κ] {t : Node κ} {keep : Nat → Bool} {maxHoles : HoleBudget}
  {limit : Nat} {thresholds : List κ} {results : List (Pruning κ)}

/-! ### Charges of reconstructions -/

section Reconstructions

variable (closed : ClosedOn keep (numbered [] 0 [t]))

include closed

theorem keptCharge_annotated :
    t.keptCharge (t.reconstruct keep).annotated.retains = t.keptCharge keep := by
  unfold keptCharge
  congr 2
  exact List.filter_congr fun id mem => retains_annotated closed (List.mem_range.1 mem)

/-- A reconstruction is charged for what it keeps. -/
theorem errorOfTree_reconstruct : (t.reconstruct keep).errorOfTree = t.keptCharge keep := by
  have charges : chargesAt keep 0 t = ((List.range t.size).filter keep).map t.chargeAt := by
    have := chargesAllAt_eq closed rfl
    simp only [chargesAllAt, List.append_nil] at this
    rw [this, ids_eq, ← show (numbered [] 0 [t]).map (·.2) = 0 :: t.below.map (·.2) by
      rw [rows_eq, List.map_cons], List.filter_map, List.map_map]
    exact List.map_congr_left fun p mem => (chargeAt_of_mem (List.mem_filter.1 mem).1).symm
  exact congrArg (List.foldl (· + ·) Scalar.zero) charges

end Reconstructions

/-! ### What is retained -/

/-- What an answer retains of a tree, read off its marked tree: the root, each node only with its
parent, and nodes without an indicator exactly with their guardian. -/
structure Retention (t : Node κ) (maxHoles : HoleBudget) (p : Pruning κ) (u : Node κ) : Prop where
  annotated : p.annotated = some u
  whole : u.map Construct.bare = t.map Construct.bare
  root : u.retains 0 = true
  parent : ∀ {id above}, (TreeIndex.ofTree t).parent? id = some above → u.retains id = true →
    u.retains above = true
  guardian : ∀ id < t.size, t.hasIndicator id = false → u.retains id = u.retains (t.guardian id)
  allows : maxHoles.Allows u.holes
  charge : p.errorOfTree = t.keptCharge u.retains
  pruned : ∃ v, p.pruned = some v ∧ v.preorder = u.preorder.filter fun a => !a.isDeleted

/-- A reconstruction retains an admissible selection that others follow. -/
theorem retention_reconstruct (admissible : t.Admissible maxHoles keep) (follows : t.Follows keep)
    (maxCost : κ) (check : Check) :
    Retention t maxHoles ((t.reconstruct keep).toPruning maxCost check)
      (t.reconstruct keep).annotated := by
  have closed : ClosedOn keep (numbered [] 0 [t]) :=
    follows.closedOn admissible.root admissible.closed
  have retains {id : Nat} (lt : id < t.size) := retains_annotated closed lt
  refine ⟨rfl, map_bare_annotated _ t, ?_, fun {id above} parent keeps => ?_,
    fun id lt unmarked => ?_, ?_, ?_, ?_⟩
  · rw [retains t.size_pos]
    exact admissible.root
  · have lt := TreeIndex.parent?_lt parent
    rw [retains lt.2] at keeps
    rw [retains (lt.1.trans lt.2)]
    exact keep_parent closed keeps parent
  · rw [retains lt, retains (guardian_lt lt)]
    exact follows id lt unmarked
  · rw [holes_annotated closed, rows_eq, holesOn_cons, follows.holesOn admissible.root]
    simpa [admissible.root] using admissible.allows
  · exact (errorOfTree_reconstruct closed).trans (keptCharge_annotated closed).symm
  · obtain ⟨v, pruned⟩ := exists_pruned (t := t) admissible.root
    exact ⟨v, pruned, preorder_pruned closed pruned⟩

/-! ### Runs -/

/-- The thresholds that have a selection. -/
def feasible (t : Node κ) (maxHoles : HoleBudget) (thresholds : List κ) : List κ :=
  (Outline.ofNode t).feasible maxHoles thresholds

/-- The search of exact pruning. -/
def exactSearch (t : Node κ) (maxHoles : HoleBudget) (limit : Nat) (thresholds : List κ) :
    Search κ :=
  (Outline.ofNode t).search maxHoles limit ((Outline.ofNode t).feasible maxHoles thresholds)

theorem length_budgets_exactSearch :
    (t.exactSearch maxHoles limit thresholds).budgets.length
      = (t.feasible maxHoles thresholds).length :=
  List.length_map _

/-- The selection of nodes that some levels stand for under the threshold at a place. -/
def keepAt (t : Node κ) (levels : Levels) (place : Nat) : Nat → Bool :=
  (Outline.ofNode t).keeps (levels.keeps place)

/-- The answer for the threshold at a place under which some levels keep the items. -/
def answer (t : Node κ) (levels : Levels) (threshold : κ) (place : Nat) : Pruning κ :=
  (t.reconstruct (t.keepAt levels place)).toPruning threshold .sat

/-- The answers of a run are those of the levels that its search has found. -/
theorem exists_levels (ok : t.pruneExact maxHoles limit thresholds = .ok results) :
    checkThresholds thresholds = .ok () ∧ ∃ levels,
      (t.exactSearch maxHoles limit thresholds).run = .ok levels ∧
        results = thresholds.zipIdx.map fun (threshold, place) =>
          if place < (t.feasible maxHoles thresholds).length then t.answer levels threshold place
          else .infeasible threshold := by
  obtain ⟨_, usable, searched⟩ := bind_eq_ok_iff.1 ok
  obtain ⟨levels, run, answered⟩ := bind_eq_ok_iff.1 searched
  exact ⟨usable, levels, run, (Except.ok.inj answered).symm⟩

theorem exists_rest (t : Node κ) (maxHoles : HoleBudget) (thresholds : List κ) :
    ∃ rest, thresholds = t.feasible maxHoles thresholds ++ rest := by
  unfold feasible Outline.feasible
  split
  · exact ⟨_, (List.takeWhile_append_dropWhile).symm⟩
  · exact ⟨thresholds, rfl⟩

section Places

variable {levels : Levels}

/-- The answers that retain something are those for the feasible thresholds. -/
theorem filter_isSat
    (eq : results = thresholds.zipIdx.map fun (threshold, place) =>
      if place < (t.feasible maxHoles thresholds).length then t.answer levels threshold place
      else .infeasible threshold) :
    results.filter (·.isSat)
      = (t.feasible maxHoles thresholds).zipIdx.map fun p => t.answer levels p.1 p.2 := by
  obtain ⟨rest, split⟩ := t.exists_rest maxHoles thresholds
  generalize t.feasible maxHoles thresholds = feasible at eq split
  subst split
  rw [eq, List.zipIdx_append, List.map_append, List.filter_append]
  have sat : feasible.zipIdx.map (fun (threshold, place) =>
        if place < feasible.length then t.answer levels threshold place else .infeasible threshold)
      = feasible.zipIdx.map fun p => t.answer levels p.1 p.2 := by
    refine List.map_congr_left fun p mem => if_pos ?_
    simpa using List.snd_lt_of_mem_zipIdx mem
  have all : ∀ p ∈ feasible.zipIdx.map fun p => t.answer levels p.1 p.2, p.isSat = true := by
    rw [List.forall_mem_map]
    exact fun _ _ => rfl
  rw [sat, List.filter_eq_self.2 all, List.append_right_eq_self, List.filter_eq_nil_iff,
    List.forall_mem_map]
  rintro ⟨threshold, place⟩ mem
  have := List.le_snd_of_mem_zipIdx mem
  simp only at this
  dsimp only
  rw [if_neg (by omega)]
  simp [Pruning.isSat, Pruning.infeasible]

/-- Exact pruning answers for every threshold, in their order. -/
theorem map_maxCost_pruneExact (ok : t.pruneExact maxHoles limit thresholds = .ok results) :
    results.map (·.maxCost) = thresholds := by
  obtain ⟨-, levels, -, rfl⟩ := exists_levels ok
  rw [List.map_map]
  refine Eq.trans (List.map_congr_left fun p _ => ?_) (List.zipIdx_map_fst 0 thresholds)
  change (if _ then _ else _ : Pruning κ).maxCost = p.1
  split <;> rfl

theorem pairwise_zipIdx {α : Type} (l : List α) : l.zipIdx.Pairwise fun p q => p.2 < q.2 := by
  rw [← List.pairwise_map, List.zipIdx_map_snd]
  exact List.pairwise_lt_range'

/-- Keeping more items keeps more nodes. -/
theorem keeps_mono {kept kept' : Nat → Bool} (more : ∀ i, kept i = true → kept' i = true) (id : Nat)
    (keeps : (Outline.ofNode t).keeps kept id = true) :
    (Outline.ofNode t).keeps kept' id = true := by
  unfold Outline.keeps at keeps ⊢
  split
  · rename_i item owner
    rw [owner] at keeps
    exact more item keeps
  · rfl

theorem keepAt_mono {looser tighter id : Nat} (le : looser ≤ tighter)
    (keeps : t.keepAt levels tighter id = true) : t.keepAt levels looser id = true := by
  refine keeps_mono (t := t) (fun i keep => ?_) id keeps
  simp only [Levels.keeps, decide_eq_true_eq] at keep ⊢
  omega

end Places

/-! ### Answers -/

section Answers

variable [LawfulCosts κ] {levels : Levels} {place : Nat}
  (grounded : (t.exactSearch maxHoles limit thresholds).Grounded levels)
  (lt : place < (t.feasible maxHoles thresholds).length)

include grounded lt

/-- Under each feasible threshold the levels stand for an admissible selection. -/
theorem admissible_keepAt : t.Admissible maxHoles (t.keepAt levels place) := by
  have inside : place < (t.exactSearch maxHoles limit thresholds).budgets.length := by
    rwa [length_budgets_exactSearch]
  have permits : (t.knapsack maxHoles).Permits (levels.keeps place) :=
    grounded.permits (itemized_itemsAllFrom 0 t.children) inside
  obtain ⟨closed, allows⟩ := (linked_keeps t (levels.keeps place)).permits_iff.1 permits
  exact ⟨keeps_zero, (follows_keeps t _).closed closed, allows⟩

theorem closedOn_keepAt : ClosedOn (t.keepAt levels place) (numbered [] 0 [t]) :=
  (follows_keeps t _).closedOn keeps_zero (admissible_keepAt grounded lt).closed

theorem retains_answer (threshold : κ) {id : Nat} (inside : id < t.size) :
    (t.answer levels threshold place).retains id = t.keepAt levels place id :=
  retains_annotated (closedOn_keepAt grounded lt) inside

/-- What is retained under a feasible threshold. -/
theorem retention_answer (threshold : κ) : Retention t maxHoles (t.answer levels threshold place)
    (t.reconstruct (t.keepAt levels place)).annotated :=
  retention_reconstruct (admissible_keepAt grounded lt) (follows_keeps t _) threshold .sat

theorem keptIndicators_answer (threshold : κ) :
    (t.answer levels threshold place).keptIndicators
      = t.keptIndicators (t.keepAt levels place) := by
  have closed := closedOn_keepAt grounded lt
  change List.countP _ (t.reconstruct (t.keepAt levels place)).annotated.preorder.tail = _
  rw [preorder_annotated closed, rows_eq, List.map_cons, List.tail_cons, List.countP_map,
    keptIndicators, countP_ids (by simp [hasIndicator_zero])]
  apply List.countP_congr
  intro p mem
  have marked : t.hasIndicator p.2 = p.1.label.cost?.isSome := t.marksCosts p mem
  have same : (p.1.label.marked p.2 !t.keepAt levels place p.2).cost? = p.1.label.cost? := rfl
  rw [Function.comp_apply, Construct.isDeleted_marked, same, marked, Bool.not_not, Bool.and_comm]

end Answers

section Lawful

variable [LawfulCosts κ] (ok : t.pruneExact maxHoles limit thresholds = .ok results)

include ok

/-- A run that answers has found the levels of nested solutions. -/
theorem exists_grounded :
    ∃ levels, (t.exactSearch maxHoles limit thresholds).run = .ok levels ∧
      (t.exactSearch maxHoles limit thresholds).Grounded levels ∧
        results.filter (·.isSat)
          = (t.feasible maxHoles thresholds).zipIdx.map fun p => t.answer levels p.1 p.2 := by
  obtain ⟨-, levels, run, eq⟩ := exists_levels ok
  have indexed : (t.exactSearch maxHoles limit thresholds).Indexed := rfl
  exact ⟨levels, run, Search.grounded_of_run (itemized_itemsAllFrom 0 t.children) indexed run,
    filter_isSat eq⟩

theorem exists_retention {p : Pruning κ} (answered : p ∈ results) (is_sat : p.isSat = true) :
    ∃ u, Retention t maxHoles p u := by
  obtain ⟨levels, -, grounded, sat⟩ := exists_grounded ok
  have kept := List.mem_filter.2 ⟨answered, is_sat⟩
  rw [sat] at kept
  obtain ⟨q, mem, rfl⟩ := List.mem_map.1 kept
  exact ⟨_, retention_answer grounded (by simpa using List.snd_lt_of_mem_zipIdx mem) q.1⟩

/-- What a tighter threshold retains, a looser one does. -/
theorem pairwise_retains :
    (results.filter (·.isSat)).Pairwise fun looser tighter =>
      ∀ id < t.size, tighter.retains id = true → looser.retains id = true := by
  obtain ⟨levels, -, grounded, sat⟩ := exists_grounded ok
  have inside {p : κ × Nat} (mem : p ∈ (t.feasible maxHoles thresholds).zipIdx) :
      p.2 < (t.feasible maxHoles thresholds).length := by
    simpa using List.snd_lt_of_mem_zipIdx mem
  rw [sat, List.pairwise_map]
  refine (pairwise_zipIdx _).imp_of_mem fun {p q} memp memq less id lt keeps => ?_
  rw [retains_answer grounded (inside memq) q.1 lt] at keeps
  rw [retains_answer grounded (inside memp) p.1 lt]
  exact keepAt_mono less.le keeps

end Lawful

end Node

end SureCode
