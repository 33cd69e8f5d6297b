import Mathlib
import SureCode.Proofs.Pruning.Answers
import SureCode.Proofs.Pruning.LeastCost
import SureCode.Proofs.Pruning.Search

/-!
# The exact engine is exact

What `pruneExact` answers, said of selections of nodes and read off the marked trees. The answers
come in the order of the thresholds, retain admissible selections and nest; over exact scalars they
are within their thresholds (`pruneExact_sound`). Together they then retain as many nodes with an
indicator as any nested family of admissible selections does (`pruneExact_isGreatest`). A threshold
has a selection exactly when an admissible one fits it, the least cost is the least cost of an
admissible selection, and the search never ends without an answer (`pruneExact_feasible`).
-/

namespace SureCode

open SureCode.Tree Exact

/-! ### Thresholds -/

section Thresholds

variable {thresholds : List Exact}

theorem isNaN_iff {x : Exact} : Scalar.isNaN x = true ↔ x = undefined := by
  change decide (x = undefined) = true ↔ x = undefined
  exact decide_eq_true_iff

theorem isChain_of_firstAscent? (defined : ∀ x ∈ thresholds, x ≠ undefined)
    (sorted : firstAscent? thresholds = none) :
    thresholds.IsChain fun looser tighter => tighter ≤ looser := by
  induction thresholds with
  | nil => exact .nil
  | cons x rest ih =>
    rw [List.forall_mem_cons] at defined
    cases rest with
    | nil => exact .singleton x
    | cons y rest =>
      rw [firstAscent?] at sorted
      split at sorted
      case isTrue => simp at sorted
      case isFalse not_lt =>
        rw [List.isChain_cons_cons]
        have y_defined := defined.2 y List.mem_cons_self
        exact ⟨le_of_not_lt defined.1 y_defined not_lt, ih defined.2 sorted⟩

/-- Usable thresholds fall. -/
theorem pairwise_of_checkThresholds (usable : checkThresholds thresholds = .ok ()) :
    thresholds.Pairwise fun looser tighter => tighter ≤ looser := by
  unfold checkThresholds at usable
  split at usable
  · simp at usable
  · rename_i clear
    split at usable
    · simp at usable
    · rename_i sorted
      have defined : ∀ x ∈ thresholds, x ≠ undefined := by
        intro x mem undefined
        exact List.find?_eq_none.1 clear x mem (isNaN_iff.2 undefined)
      have : Trans (fun x y : Exact => y ≤ x) (fun x y => y ≤ x) fun x y => y ≤ x :=
        ⟨fun first second => Exact.le_trans second first⟩
      exact List.isChain_iff_pairwise.1 (isChain_of_firstAscent? defined sorted)

theorem checkThresholds_ne_unsolved : checkThresholds thresholds ≠ .error .unsolved := by
  unfold checkThresholds
  split
  · simp
  · split <;> simp

/-- Of falling thresholds, the leading ones that a cost fits are all that it fits. -/
theorem lt_length_takeWhile_fits {least threshold : Exact} {place : Nat}
    (falling : thresholds.Pairwise fun looser tighter => tighter ≤ looser)
    (at_place : thresholds[place]? = some threshold) :
    place < (thresholds.takeWhile fun threshold => fits threshold least).length ↔
      fits threshold least = true := by
  rw [Search.lt_length_takeWhile]
  constructor
  · intro all
    obtain ⟨a, at_place', fit⟩ := all place le_rfl
    obtain rfl := Option.some.inj (at_place.symm.trans at_place')
    exact fit
  · intro fit j le
    obtain ⟨lt, rfl⟩ := List.getElem?_eq_some_iff.1 at_place
    refine ⟨_, List.getElem?_eq_getElem (lt_of_le_of_lt le lt), ?_⟩
    rcases Nat.lt_or_eq_of_le le with less | rfl
    · exact fits_of_le (List.pairwise_iff_getElem.1 falling j place _ lt less) fit
    · exact fit

end Thresholds

namespace Node

variable {t : Node Exact} {maxHoles : HoleBudget} {limit : Nat} {thresholds : List Exact}
  {results : List (Pruning Exact)} {keep kept : Nat → Bool} {threshold : Exact}

/-! ### Selections of nodes and of items -/

/-- An admissible selection within a threshold is selected by the knapsack. -/
theorem Admissible.selects (admissible : t.Admissible maxHoles keep)
    (fit : fits threshold (t.keptCharge keep) = true) :
    (t.knapsack maxHoles).Selects (threshold - (Outline.ofNode t).rootCharge) (t.itemsKept keep) :=
  (linked_itemsKept admissible.root).selects_iff.2
    ⟨fun id marked => admissible.closed id (lt_of_hasIndicator marked), admissible.allows, fit⟩

/-- What the knapsack selects is an admissible selection within the threshold. -/
theorem admissible_of_selects
    (selects : (t.knapsack maxHoles).Selects (threshold - (Outline.ofNode t).rootCharge) kept) :
    t.Admissible maxHoles ((Outline.ofNode t).keeps kept) ∧
      fits threshold (t.keptCharge ((Outline.ofNode t).keeps kept)) = true := by
  have linked := linked_keeps t kept
  obtain ⟨closed, allows, fit⟩ := linked.selects_iff.1 selects
  exact ⟨⟨keeps_zero, (follows_keeps t kept).closed closed, allows⟩, fit⟩

/-- Keeping more nodes keeps more items. -/
theorem itemsKept_mono {keep keep' : Nat → Bool}
    (more : ∀ id < t.size, keep id = true → keep' id = true) (item : Nat)
    (keeps : t.itemsKept keep item = true) : t.itemsKept keep' item = true := by
  unfold itemsKept at keeps ⊢
  rw [Option.any_eq_true] at keeps ⊢
  obtain ⟨id, at_item, keeps⟩ := keeps
  have mem := (List.mem_filter.1 (List.mem_of_getElem? at_item)).1
  exact ⟨id, at_item, more id (List.mem_range.1 mem) keeps⟩

/-! ### The least cost -/

theorem Linked.keptCharge_eq (linked : Linked t keep kept) :
    t.keptCharge keep = number (chargeValue t.label + costOn Item.price kept t.itemRows) := by
  rw [keptCharge_eq_number linked.root, linked.cost_eq]

/-- The least cost of a tree is the least cost of an admissible selection. -/
theorem leastCost?_isLeast (t : Node Exact) (maxHoles : HoleBudget) :
    ∃ least : ℚ, (Outline.ofNode t).leastCost? maxHoles = some (number least) ∧
      IsLeast {x : ℚ | ∃ keep, t.Admissible maxHoles keep ∧ t.Follows keep ∧
        t.keptCharge keep = number x} least := by
  have proper := t.proper_knapsack maxHoles
  have free : ∀ i : Nat, (fun _ => Status.free) i = .free := fun _ => rfl
  obtain ⟨least, eq, ⟨items, holes, picks, allows⟩, smallest⟩ :=
    Outline.leastCost?_spec maxHoles proper (charge_eq_number t.label) free
  refine ⟨chargeValue t.label + least, eq, ?_, ?_⟩
  · let kept (i : Nat) : Bool := decide (i ∈ items)
    have linked := linked_keeps t kept
    obtain ⟨closed, -, holes_eq, cost_eq⟩ :=
      picks.accounts [] proper.numbers (fun i _ _ => decide_eq_true_iff (p := i ∈ items)) rfl
    have follows := follows_keeps t kept
    refine ⟨_, ⟨keeps_zero, follows.closed (linked.closed_iff.1 closed), ?_⟩, follows, ?_⟩
    · rw [← linked.holes_eq]
      exact holes_eq ▸ allows
    · rw [linked.keptCharge_eq]
      exact congrArg (fun x => number (chargeValue t.label + x)) cost_eq
  · rintro x ⟨keep, admissible, -, charge⟩
    have linked : Linked t keep (t.itemsKept keep) := linked_itemsKept admissible.root
    have closed := linked.closed_iff.2 fun id marked =>
      admissible.closed id (lt_of_hasIndicator marked)
    have picks : Picks Item.price (fun _ => .free) (Outline.ofNode t).forest _ _ _ :=
      Picks.of_closed proper.numbers rfl closed fun i _ _ => ⟨nofun, nofun⟩
    have le := smallest _ _ _ picks (linked.holes_eq ▸ admissible.allows)
    rw [linked.keptCharge_eq] at charge
    have := Exact.number.inj charge
    change least ≤ costOn Item.price (t.itemsKept keep) t.itemRows at le
    linarith

/-! ### A small tree -/

/-- A construct of some cost, or of none. -/
def costing (cost : Option ℚ) : Construct Exact :=
  { kind := default, code := "", span := default, nll := cost.map number }

/-- A root of cost one with two nodes below it, of which the first has a third node below an
unpriced one. -/
def sample : Node Exact :=
  node (costing (some 1))
    [node (costing (some 2)) [node (costing none) [node (costing (some 1)) []]],
     node (costing (some 3)) []]

/-- The answers for a threshold that all of it fits, one that one node has to go for, and one that
not even the root fits. -/
theorem sample_answers :
    ∃ results, sample.pruneExact (some 1) 100 [number 7, number 4, number 0] = .ok results ∧
      (results.filter (·.isSat)).map (fun p => (p.maxCost, p.keptIndicators))
        = [(number 7, 3), (number 4, 2)] ∧
      results.map (fun p => (p.maxCost, p.isSat))
        = [(number 7, true), (number 4, true), (number 0, false)] := by
  have answers : (sample.pruneExact (some 1) 100 [number 7, number 4, number 0]).toOption.map
      (fun results => ((results.filter (·.isSat)).map (fun p => (p.maxCost, p.keptIndicators)),
        results.map fun p => (p.maxCost, p.isSat)))
      = some ([(number 7, 3), (number 4, 2)],
          [(number 7, true), (number 4, true), (number 0, false)]) := by
    decide +kernel
  cases ok : sample.pruneExact (some 1) 100 [number 7, number 4, number 0] with
  | error e => simp [ok, Except.toOption] at answers
  | ok results =>
    simp only [ok, Except.toOption, Option.map_some, Option.some.injEq, Prod.mk.injEq] at answers
    exact ⟨results, rfl, answers⟩

/-! ### Soundness -/

/-- The levels of a run that answers are those of a best family. -/
theorem exists_best (ok : t.pruneExact maxHoles limit thresholds = .ok results) :
    ∃ levels, (t.exactSearch maxHoles limit thresholds).Grounded levels ∧
      (∀ family, (t.exactSearch maxHoles limit thresholds).Family family →
        (t.exactSearch maxHoles limit thresholds).total family ≤ levels.score) ∧
      results.filter (·.isSat)
        = (t.feasible maxHoles thresholds).zipIdx.map fun p => t.answer levels p.1 p.2 := by
  obtain ⟨levels, run, grounded, sat⟩ := exists_grounded ok
  have indexed : (t.exactSearch maxHoles limit thresholds).Indexed := rfl
  obtain ⟨-, best⟩ := Search.run_eq_ok (t.proper_knapsack maxHoles) indexed run
  exact ⟨levels, grounded, best, sat⟩

section Levels

variable {levels : Levels} {place : Nat}
  (grounded : (t.exactSearch maxHoles limit thresholds).Grounded levels)

include grounded

theorem valid_of_grounded : (t.exactSearch maxHoles limit thresholds).Valid levels :=
  grounded.valid (t.proper_knapsack maxHoles)

/-- Under each feasible threshold the levels stand for a selection within it. -/
theorem fits_keepAt (at_place : (t.feasible maxHoles thresholds)[place]? = some threshold) :
    fits threshold (t.keptCharge (t.keepAt levels place)) = true := by
  have at_budget : (t.exactSearch maxHoles limit thresholds).budgets[place]?
      = some (threshold - (Outline.ofNode t).rootCharge) := by
    change (List.map _ (t.feasible maxHoles thresholds))[place]? = _
    rw [List.getElem?_map, at_place, Option.map_some]
  exact (admissible_of_selects ((valid_of_grounded grounded).family.selects at_budget)).2

end Levels

/-- What an answer retains costs no more than its threshold. -/
theorem errorOfTree_le (ok : t.pruneExact maxHoles limit thresholds = .ok results)
    {p : Pruning Exact} (answered : p ∈ results) (is_sat : p.isSat = true) :
    p.errorOfTree ≤ p.maxCost + slack := by
  obtain ⟨levels, -, grounded, sat⟩ := exists_grounded ok
  have kept := List.mem_filter.2 ⟨answered, is_sat⟩
  rw [sat] at kept
  obtain ⟨⟨threshold, place⟩, mem, rfl⟩ := List.mem_map.1 kept
  have lt : place < (t.feasible maxHoles thresholds).length := by
    simpa using List.snd_lt_of_mem_zipIdx mem
  change (t.reconstruct (t.keepAt levels place)).errorOfTree ≤ threshold + slack
  rw [errorOfTree_reconstruct (closedOn_keepAt grounded lt)]
  simpa [fits] using fits_keepAt grounded (List.mem_zipIdx_iff_getElem?.1 mem)

/-- The answers come in the order of the thresholds. Each that is satisfied retains the root, each
node only with its parent and the nodes without an indicator exactly with their guardian, within the
hole budget, and is charged for what it retains; a tighter one retains nothing that a looser one does
not. Over exact scalars that charge is within the threshold. -/
theorem pruneExact_sound (maxHoles : HoleBudget) (limit : Nat) :
    (∀ {κ : Type} [Scalar κ] [LawfulCosts κ] (t : Node κ) (thresholds : List κ)
      (results : List (Pruning κ)), t.pruneExact maxHoles limit thresholds = .ok results →
        results.map (·.maxCost) = thresholds ∧
        (∀ p ∈ results, p.isSat = true → ∃ u, Retention t maxHoles p u) ∧
        (results.filter (·.isSat)).Pairwise fun looser tighter =>
          ∀ id < t.size, tighter.retains id = true → looser.retains id = true) ∧
    ∀ (t : Node Exact) (thresholds : List Exact) (results : List (Pruning Exact)),
      t.pruneExact maxHoles limit thresholds = .ok results →
        ∀ p ∈ results, p.isSat = true → p.errorOfTree ≤ p.maxCost + slack := by
  constructor
  · intro κ _ _ t thresholds results ok
    exact ⟨map_maxCost_pruneExact ok, fun p => exists_retention ok, pairwise_retains ok⟩
  · intro t thresholds results ok p
    exact errorOfTree_le ok

theorem pruneExact_sound_sample :
    ∃ looser tighter, looser.maxCost = number 7 ∧ tighter.maxCost = number 4 ∧
      (∃ u, Retention sample (some 1) looser u ∧ looser.errorOfTree ≤ looser.maxCost + slack) ∧
      (∃ u, Retention sample (some 1) tighter u ∧ tighter.errorOfTree ≤ tighter.maxCost + slack) ∧
        ∀ id < sample.size, tighter.retains id = true → looser.retains id = true := by
  obtain ⟨results, ok, kept, -⟩ := sample_answers
  obtain ⟨sound, within⟩ := pruneExact_sound (some 1) 100
  obtain ⟨-, retains, nested⟩ := sound _ _ _ ok
  have retention {p : Pruning Exact} (mem : p ∈ results.filter (·.isSat)) :
      ∃ u, Retention sample (some 1) p u ∧ p.errorOfTree ≤ p.maxCost + slack := by
    obtain ⟨answered, is_sat⟩ := List.mem_filter.1 mem
    obtain ⟨u, retention⟩ := retains p answered is_sat
    exact ⟨u, retention, within _ _ _ ok p answered is_sat⟩
  match answers : results.filter (·.isSat) with
  | [] => simp [answers] at kept
  | [_] => simp [answers] at kept
  | _ :: _ :: _ :: _ => simp [answers] at kept
  | [looser, tighter] =>
    rw [answers] at kept nested retention
    simp only [List.map_cons, List.map_nil, List.cons.injEq, Prod.mk.injEq, and_true] at kept
    refine ⟨looser, tighter, kept.1.1, kept.2.1, retention (by simp), retention (by simp), ?_⟩
    exact (List.pairwise_cons.1 nested).1 tighter (by simp)

/-! ### Optimality -/

/-- One admissible selection for each threshold, within it, the tighter within the looser. -/
def Families (t : Node Exact) (maxHoles : HoleBudget) (thresholds : List Exact) :
    Set (List (Nat → Bool)) :=
  {family |
    List.Forall₂ (fun threshold keep =>
      t.Admissible maxHoles keep ∧ t.keptCharge keep ≤ threshold + slack) thresholds family ∧
    family.Pairwise fun looser tighter => ∀ id < t.size, tighter id = true → looser id = true}

theorem fits_iff {budget cost : Exact} : fits budget cost = true ↔ cost ≤ budget + slack :=
  decide_eq_true_iff

section Totals

variable {feasible : List Exact} {selections : Nat → Nat → Bool} {items : Nat → Nat → Bool}

theorem getElem?_budgets {place : Nat} {budget : Exact}
    (at_place : ((Outline.ofNode t).search maxHoles limit feasible).budgets[place]? = some budget) :
    ∃ threshold, feasible[place]? = some threshold ∧
      budget = threshold - (Outline.ofNode t).rootCharge := by
  rw [Outline.search, List.getElem?_map, Option.map_eq_some_iff] at at_place
  obtain ⟨threshold, at_place, rfl⟩ := at_place
  exact ⟨threshold, at_place, rfl⟩

/-- The items of nested admissible selections are a family. -/
theorem family_of_selections
    (admissible : ∀ {place : Nat} {threshold}, feasible[place]? = some threshold →
      t.Admissible maxHoles (selections place) ∧
        fits threshold (t.keptCharge (selections place)) = true)
    (nested : ∀ {looser tighter : Nat}, looser ≤ tighter → tighter < feasible.length →
      ∀ id < t.size, selections tighter id = true → selections looser id = true) :
    ((Outline.ofNode t).search maxHoles limit feasible).Family
      fun place => t.itemsKept (selections place) := by
  refine ⟨fun {place budget} at_place => ?_, fun {looser tighter i} le lt _ keeps => ?_⟩
  · obtain ⟨threshold, at_threshold, rfl⟩ := getElem?_budgets at_place
    obtain ⟨selection, fit⟩ := admissible at_threshold
    exact selection.selects fit
  · rw [Outline.search, List.length_map] at lt
    exact itemsKept_mono (nested le lt) i keeps

/-- A family of items keeps as many as linked selections of nodes do. -/
theorem total_eq (linked : ∀ place < feasible.length, Linked t (selections place) (items place)) :
    ((Outline.ofNode t).search maxHoles limit feasible).total items
      = ∑ place ∈ Finset.range feasible.length, t.keptIndicators (selections place) := by
  have length_eq : ((Outline.ofNode t).search maxHoles limit feasible).budgets.length
      = feasible.length := List.length_map ..
  rw [Search.total, length_eq]
  exact Finset.sum_congr rfl fun place mem => (linked place (Finset.mem_range.1 mem)).count

/-- A family of selections, place by place. -/
theorem exists_selections {family : List (Nat → Bool)}
    (mem : family ∈ t.Families maxHoles feasible) :
    ∃ selections : Nat → Nat → Bool, family = (List.range feasible.length).map selections ∧
      (∀ {place : Nat} {threshold}, feasible[place]? = some threshold →
        t.Admissible maxHoles (selections place) ∧
          fits threshold (t.keptCharge (selections place)) = true) ∧
        ∀ {looser tighter : Nat}, looser ≤ tighter → tighter < feasible.length →
          ∀ id < t.size, selections tighter id = true → selections looser id = true := by
  obtain ⟨admissible, nested⟩ := mem
  have length_eq : family.length = feasible.length := admissible.length_eq.symm
  have at_place {place : Nat} (lt : place < family.length) :
      family[place]?.getD (fun _ => true) = family[place] := by
    simp [lt]
  refine ⟨fun place => family[place]?.getD fun _ => true, ?_, ?_, ?_⟩
  · apply List.ext_getElem (by simp [length_eq])
    intro place lt _
    simp [lt]
  · intro place threshold at_threshold
    obtain ⟨lt, rfl⟩ := List.getElem?_eq_some_iff.1 at_threshold
    have lt' : place < family.length := length_eq ▸ lt
    have pair := (List.forall₂_iff_get.1 admissible).2 place lt lt'
    rw [List.get_eq_getElem, List.get_eq_getElem] at pair
    dsimp only
    rw [at_place lt']
    exact ⟨pair.1, fits_iff.2 pair.2⟩
  · intro looser tighter le lt
    rw [← length_eq] at lt
    rcases Nat.lt_or_eq_of_le le with less | rfl
    · dsimp only
      rw [at_place lt, at_place (less.trans lt)]
      exact List.pairwise_iff_getElem.1 nested looser tighter _ lt less
    · exact fun _ _ keeps => keeps

theorem sum_map_range (f : Nat → Nat) (count : Nat) :
    ((List.range count).map f).sum = ∑ place ∈ Finset.range count, f place := by
  induction count with
  | zero => rfl
  | succ count ih => simp [List.range_succ, Finset.sum_range_succ, ih]

end Totals

section Levels

variable {levels : Levels} {feasible : List Exact}

/-- The selections of nodes that some levels stand for. -/
def keepFamily (t : Node Exact) (levels : Levels) (feasible : List Exact) : List (Nat → Bool) :=
  feasible.zipIdx.map fun p => t.keepAt levels p.2

theorem keepFamily_mem (grounded : (t.exactSearch maxHoles limit thresholds).Grounded levels) :
    t.keepFamily levels (t.feasible maxHoles thresholds)
      ∈ t.Families maxHoles (t.feasible maxHoles thresholds) := by
  constructor
  · conv => arg 2; rw [← List.zipIdx_map_fst 0 (t.feasible maxHoles thresholds)]
    rw [keepFamily, List.forall₂_map_left_iff, List.forall₂_map_right_iff, List.forall₂_same]
    intro p mem
    have lt : p.2 < (t.feasible maxHoles thresholds).length := by
      simpa using List.snd_lt_of_mem_zipIdx mem
    exact ⟨admissible_keepAt grounded lt,
      fits_iff.1 (fits_keepAt grounded (List.mem_zipIdx_iff_getElem?.1 mem))⟩
  · rw [keepFamily, List.pairwise_map]
    exact (pairwise_zipIdx _).imp fun less _ _ keeps => keepAt_mono less.le keeps

/-- The score of valid levels is what their selections keep. -/
theorem sum_keepFamily (valid : ((Outline.ofNode t).search maxHoles limit feasible).Valid levels) :
    ((t.keepFamily levels feasible).map t.keptIndicators).sum = levels.score := by
  have places : feasible.zipIdx.map (·.2) = List.range feasible.length := by
    rw [List.zipIdx_map_snd, List.range_eq_range']
  rw [valid.score_eq, total_eq fun place _ => linked_keeps t (levels.keeps place), ← sum_map_range,
    ← places, keepFamily, List.map_map, List.map_map]
  rfl

/-- No family of admissible selections keeps more than the best score. -/
theorem sum_le_score {family : List (Nat → Bool)}
    (best : ∀ family, ((Outline.ofNode t).search maxHoles limit feasible).Family family →
      ((Outline.ofNode t).search maxHoles limit feasible).total family ≤ levels.score)
    (mem : family ∈ t.Families maxHoles feasible) :
    (family.map t.keptIndicators).sum ≤ levels.score := by
  obtain ⟨selections, rfl, admissible, nested⟩ := exists_selections mem
  have bound := best _ (family_of_selections admissible nested)
  have linked : ∀ place < feasible.length,
      Linked t (selections place) (t.itemsKept (selections place)) := fun place lt =>
    linked_itemsKept (admissible (List.getElem?_eq_getElem lt)).1.root
  rwa [total_eq linked, ← sum_map_range (fun place => t.keptIndicators (selections place)),
    ← Function.comp_def, ← List.map_map] at bound

end Levels

/-- The answers retain, under all thresholds together, as many nodes with an indicator as any nested
family of admissible selections does. -/
theorem pruneExact_isGreatest (ok : t.pruneExact maxHoles limit thresholds = .ok results) :
    IsGreatest
      ((fun family : List (Nat → Bool) => (family.map t.keptIndicators).sum) ''
        t.Families maxHoles ((results.filter (·.isSat)).map (·.maxCost)))
      ((results.filter (·.isSat)).map (·.keptIndicators)).sum := by
  obtain ⟨levels, grounded, best, sat⟩ := exists_best ok
  have thresholds_eq : (results.filter (·.isSat)).map (·.maxCost)
      = t.feasible maxHoles thresholds := by
    rw [sat, List.map_map]
    exact List.zipIdx_map_fst 0 _
  have score_eq : ((results.filter (·.isSat)).map (·.keptIndicators)).sum = levels.score := by
    rw [← sum_keepFamily (valid_of_grounded grounded), sat, keepFamily, List.map_map, List.map_map]
    refine congrArg List.sum (List.map_congr_left fun p mem => ?_)
    exact keptIndicators_answer grounded (by simpa using List.snd_lt_of_mem_zipIdx mem) p.1
  rw [thresholds_eq, score_eq]
  constructor
  · exact ⟨_, keepFamily_mem grounded, sum_keepFamily (valid_of_grounded grounded)⟩
  · rintro _ ⟨family, mem, rfl⟩
    exact sum_le_score best mem

theorem pruneExact_isGreatest_sample :
    IsGreatest
      ((fun family : List (Nat → Bool) => (family.map sample.keptIndicators).sum) ''
        sample.Families (some 1) [number 7, number 4]) 5 := by
  obtain ⟨results, ok, kept, -⟩ := sample_answers
  have greatest := pruneExact_isGreatest ok
  have thresholds_eq := congrArg (List.map Prod.fst) kept
  have counts_eq := congrArg (List.map Prod.snd) kept
  rw [List.map_map] at thresholds_eq counts_eq
  simp only [Function.comp_def, List.map_cons, List.map_nil] at thresholds_eq counts_eq
  rwa [thresholds_eq, counts_eq] at greatest

/-! ### Feasibility -/

/-- Whether the least cost fits is whether an admissible selection does. -/
theorem fits_least_iff {least : ℚ}
    (is_least : IsLeast {x : ℚ | ∃ keep, t.Admissible maxHoles keep ∧ t.Follows keep ∧
      t.keptCharge keep = number x} least) :
    fits threshold (number least) = true ↔
      ∃ keep, t.Admissible maxHoles keep ∧ t.Follows keep ∧
        t.keptCharge keep ≤ threshold + slack := by
  constructor
  · intro fit
    obtain ⟨keep, admissible, follows, charge⟩ := is_least.1
    exact ⟨keep, admissible, follows, charge ▸ fits_iff.1 fit⟩
  · rintro ⟨keep, admissible, follows, fit⟩
    have charge := keptCharge_eq_number (t := t) admissible.root
    rw [charge] at fit
    exact fits_mono (is_least.2 ⟨keep, admissible, follows, charge⟩) (fits_iff.2 fit)

/-- A threshold is answered with a selection exactly when an admissible one fits it. -/
theorem isSat_iff (ok : t.pruneExact maxHoles limit thresholds = .ok results) :
    ∀ p ∈ results, p.isSat = true ↔
      ∃ keep, t.Admissible maxHoles keep ∧ t.Follows keep ∧
        t.keptCharge keep ≤ p.maxCost + slack := by
  obtain ⟨usable, levels, -, eq⟩ := exists_levels ok
  obtain ⟨least, least_eq, is_least⟩ := t.leastCost?_isLeast maxHoles
  have feasible_eq : t.feasible maxHoles thresholds
      = thresholds.takeWhile fun threshold => fits threshold (number least) := by
    rw [feasible, Outline.feasible, least_eq]
  intro p answered
  rw [eq] at answered
  obtain ⟨⟨threshold, place⟩, mem, rfl⟩ := List.mem_map.1 answered
  have leading : place < (t.feasible maxHoles thresholds).length ↔
      fits threshold (number least) = true := by
    rw [feasible_eq]
    exact lt_length_takeWhile_fits (pairwise_of_checkThresholds usable)
      (List.mem_zipIdx_iff_getElem?.1 mem)
  have maxCost_eq : (if place < (t.feasible maxHoles thresholds).length then
      t.answer levels threshold place else .infeasible threshold).maxCost = threshold := by
    split <;> rfl
  dsimp only
  rw [maxCost_eq, ← fits_least_iff is_least, ← leading]
  split
  case isTrue lt => exact iff_of_true rfl lt
  case isFalse not_lt => exact iff_of_false (by simp [Pruning.isSat, Pruning.infeasible]) not_lt

/-- Where the least cost fits there is a family, so the search finds one. -/
theorem pruneExact_ne_unsolved (t : Node Exact) (maxHoles : HoleBudget) (limit : Nat)
    (thresholds : List Exact) : t.pruneExact maxHoles limit thresholds ≠ .error .unsolved := by
  intro failed
  unfold pruneExact at failed
  cases usable : checkThresholds thresholds with
  | error e =>
    simp only [usable, Bind.bind, Except.bind, Except.error.injEq] at failed
    exact checkThresholds_ne_unsolved (failed ▸ usable)
  | ok _ =>
    simp only [usable, Bind.bind, Except.bind] at failed
    split at failed
    · rename_i e run
      have indexed : ((Outline.ofNode t).search maxHoles limit
          ((Outline.ofNode t).feasible maxHoles thresholds)).Indexed := rfl
      rcases Search.run_eq_error (t.proper_knapsack maxHoles) indexed run with limited | no_family
      · rw [Except.error.inj failed] at limited
        simp at limited
      · obtain ⟨least, least_eq, ⟨keep, admissible, -, charge⟩, -⟩ := t.leastCost?_isLeast maxHoles
        refine no_family (fun _ => t.itemsKept keep) (family_of_selections
          (fun {place threshold} at_threshold => ⟨admissible, ?_⟩) fun _ _ _ _ keeps => keeps)
        rw [Outline.feasible, least_eq] at at_threshold
        have mem : threshold ∈ thresholds.takeWhile (fits · (number least)) :=
          List.mem_of_getElem? at_threshold
        rw [charge]
        simpa using List.mem_takeWhile_imp mem
    · cases failed

/-- A threshold has a selection exactly when an admissible one fits it, the least cost is the least
cost of an admissible selection, and the search never ends without an answer. -/
theorem pruneExact_feasible (t : Node Exact) (maxHoles : HoleBudget) (limit : Nat)
    (thresholds : List Exact) :
    (∀ results, t.pruneExact maxHoles limit thresholds = .ok results →
      ∀ p ∈ results, p.isSat = true ↔
        ∃ keep, t.Admissible maxHoles keep ∧ t.Follows keep ∧
          t.keptCharge keep ≤ p.maxCost + slack) ∧
      (∃ least : ℚ, (Outline.ofNode t).leastCost? maxHoles = some (number least) ∧
        IsLeast {x : ℚ | ∃ keep, t.Admissible maxHoles keep ∧ t.Follows keep ∧
          t.keptCharge keep = number x} least) ∧
        t.pruneExact maxHoles limit thresholds ≠ .error .unsolved :=
  ⟨fun _ ok => isSat_iff ok, t.leastCost?_isLeast maxHoles,
    t.pruneExact_ne_unsolved maxHoles limit thresholds⟩

theorem pruneExact_feasible_sample :
    (∃ keep, sample.Admissible (some 1) keep ∧ sample.Follows keep ∧
        sample.keptCharge keep ≤ number 4 + slack) ∧
      ¬ ∃ keep, sample.Admissible (some 1) keep ∧ sample.Follows keep ∧
        sample.keptCharge keep ≤ number 0 + slack := by
  obtain ⟨results, ok, -, checks⟩ := sample_answers
  have feasible :=
    (pruneExact_feasible sample (some 1) 100 [number 7, number 4, number 0]).1 results ok
  have answered {threshold : Exact} {sat : Bool}
      (mem : (threshold, sat) ∈ results.map fun p => (p.maxCost, p.isSat)) :
      sat = true ↔ ∃ keep, sample.Admissible (some 1) keep ∧ sample.Follows keep ∧
        sample.keptCharge keep ≤ threshold + slack := by
    obtain ⟨p, answered, eq⟩ := List.mem_map.1 mem
    obtain ⟨rfl, rfl⟩ := Prod.mk.inj eq
    exact feasible p answered
  rw [checks] at answered
  have sat : (number 4, true) ∈ [(number 7, true), (number 4, true), (number 0, false)] := by simp
  have unsat : (number 0, false) ∈ [(number 7, true), (number 4, true), (number 0, false)] := by
    simp
  exact ⟨(answered sat).1 rfl, fun fitting => Bool.false_ne_true ((answered unsat).2 fitting)⟩

end Node

end SureCode
