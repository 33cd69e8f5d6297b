import Mathlib
import SureCode.Proofs.Pruning.Engines
import SureCode.Proofs.Pruning.RemovalOrder

/-!
# Guardians under greedy pruning

Exact pruning gives a node without an indicator the fate of its guardian. Greedy pruning removes such
a node like any other, as a leaf that costs nothing, and may stop before the guardian is gone. Whether
it ever does can be read off the order of removal (`GuardiansKeepUp`): a run stops where the cost first
fits, so no threshold may be fitted for the first time between a node without an indicator and its
guardian. With rounding the charge of what goes between the two may be lost in the sum. Over exact
costs it is not, and nothing between the two may have any (`GuardiansFollow`).
-/

namespace SureCode

open SureCode.Tree Exact

namespace Node

/-! ### Holes and guardians -/

section Structure

variable {κ : Type} [Scalar κ] {t : Node κ} {keep : Nat → Bool} {id above : Nat}

/-- The guardian of a node is its parent, if that has an indicator, or the guardian of its parent. -/
theorem guardian_of_parent (parent : (TreeIndex.ofTree t).parent? id = some above) :
    t.guardian id = if t.hasIndicator above = true then above else t.guardian above := by
  rw [guardian, guardian, TreeIndex.find?_tail_path parent]
  split <;> rfl

theorem guardian_lt_self (lt : id < t.size) (inner : id ≠ 0) : t.guardian id < id := by
  induction id using Nat.strong_induction_on with
  | _ id ih =>
    obtain ⟨above, parent⟩ := TreeIndex.exists_parent? lt inner
    have less := (TreeIndex.parent?_lt parent).1
    rw [guardian_of_parent parent]
    split
    case isTrue => exact less
    case isFalse =>
      by_cases top : above = 0
      · rw [top, guardian_zero]
        exact Nat.pos_of_ne_zero inner
      · exact (ih above less (less.trans lt) top).trans less

/-- A closed selection keeps the guardians of what it keeps. -/
theorem keep_guardian (closed : ClosedOn keep (numbered [] 0 [t])) (root : keep 0 = true)
    (lt : id < t.size) (keeps : keep id = true) : keep (t.guardian id) = true := by
  rw [guardian]
  cases found : ((TreeIndex.ofTree t).path id).tail.find? t.hasIndicator with
  | none => exact root
  | some above =>
    rw [ofTree_eq_ofForest] at found
    refine closedOn_iff_path.1 closed id (by rwa [sizeAll_singleton]) keeps above ?_
    exact List.mem_of_mem_tail (List.mem_of_find?_eq_some found)

/-- Every hole begins at a node with an indicator. -/
def HolesIndicated (t : Node κ) (keep : Nat → Bool) : Prop :=
  ∀ id above, (TreeIndex.ofTree t).parent? id = some above → keep above = true → keep id = false →
    t.hasIndicator id = true

/-- In a closed selection the nodes without an indicator are kept exactly with their guardians when
no hole begins at any of them. -/
theorem follows_iff_holesIndicated (closed : ClosedOn keep (numbered [] 0 [t])) :
    t.Follows keep ↔ t.HolesIndicated keep := by
  constructor
  · intro follows id above parent keeps dropped
    by_contra unmarked
    rw [Bool.not_eq_true] at unmarked
    obtain ⟨less, lt⟩ := TreeIndex.parent?_lt parent
    rw [follows id lt unmarked, guardian_of_parent parent] at dropped
    split at dropped
    case isTrue => exact Bool.noConfusion (keeps.symm.trans dropped)
    case isFalse marked =>
      rw [← follows above (less.trans lt) (by simpa using marked), keeps] at dropped
      exact Bool.noConfusion dropped
  · intro indicated id lt unmarked
    induction id using Nat.strong_induction_on with
    | _ id ih =>
      by_cases top : id = 0
      · rw [top, guardian_zero]
      · obtain ⟨above, parent⟩ := TreeIndex.exists_parent? lt top
        have less := (TreeIndex.parent?_lt parent).1
        have same : keep id = keep above := by
          cases keeps : keep above with
          | true =>
            by_contra dropped
            rw [Bool.not_eq_true] at dropped
            have marked := indicated id above parent keeps dropped
            exact Bool.noConfusion (unmarked.symm.trans marked)
          | false =>
            by_contra kept
            rw [Bool.not_eq_false] at kept
            exact Bool.noConfusion (keeps.symm.trans (keep_parent closed kept parent))
        rw [same, guardian_of_parent parent]
        split
        case isTrue => rfl
        case isFalse marked => exact ih above less (less.trans lt) (by simpa using marked)

/-- In the order of removal each node without an indicator is followed by its guardian, and a threshold
that what is left fits just before the guardian goes was fitted before the node went, or by the whole
tree. -/
def GuardiansKeepUp (t : Node κ) (maxHoles : HoleBudget) : Prop :=
  ∀ before id after, t.removalOrder maxHoles = before ++ id :: after → t.hasIndicator id = false →
    ∃ between later, after = between ++ t.guardian id :: later ∧
      ∀ maxCost, Scalar.isNaN maxCost = false →
        fits maxCost (t.costAfter (before ++ id :: between)) = true →
          fits maxCost (t.costAfter before) = true ∨ fits maxCost t.totalCharge = true

/-- In the order of removal each node without an indicator is followed by its guardian, and what goes
between the two is charged nothing. -/
def GuardiansFollow (t : Node κ) (maxHoles : HoleBudget) : Prop :=
  ∀ before id after, t.removalOrder maxHoles = before ++ id :: after → t.hasIndicator id = false →
    ∃ free later, after = free ++ t.guardian id :: later ∧
      ∀ other ∈ free, t.chargeAt other = Scalar.zero

end Structure

/-! ### Where a run can stop -/

section Stops

variable {κ : Type} [Scalar κ] {t : Node κ} {maxHoles : HoleBudget} {maxCost : κ} {id : Nat}
  {gone left before after : List Nat}

/-- A guardian is not removed before what it guards. -/
theorem guardian_notMem (order : t.removalOrder maxHoles = before ++ id :: after) :
    t.guardian id ∉ before ++ [id] := by
  have removable := removable_remaining order
  have kept := keep_guardian (closedOn_remaining order) (remaining_zero order) removable.inside
    removable.kept
  have differ := (guardian_lt_self removable.inside removable.inner).ne
  simpa [differ] using remaining_eq_true.1 kept

/-- A node that is gone while its guardian is not does not follow it. -/
theorem Follows.mem_of_mem (follows : t.Follows (remaining gone)) (lt : id < t.size)
    (unmarked : t.hasIndicator id = false) (mem : id ∈ gone) : t.guardian id ∈ gone := by
  have same := follows id lt unmarked
  have removed : remaining gone id = false := by
    rw [← Bool.not_eq_true, remaining_eq_true]
    exact not_not.2 mem
  rw [removed] at same
  by_contra absent
  exact Bool.noConfusion (same.trans (remaining_eq_true.2 absent))

/-- A part of a list without some element is a part of what comes before that element. -/
theorem exists_append_of_notMem {xs ys zs ws : List Nat} (eq : xs ++ ys = zs ++ id :: ws)
    (absent : id ∉ xs) : ∃ more, zs = xs ++ more ∧ ys = more ++ id :: ws := by
  obtain ⟨more, rfl, rest⟩ | ⟨more, rfl, rest⟩ := List.append_eq_append_iff.1 eq
  · exact ⟨more, rfl, rest⟩
  · cases more with
    | nil => exact ⟨[], by simp, rest.symm⟩
    | cons next more =>
      obtain ⟨rfl, -⟩ := List.cons.inj rest
      exact absurd (by simp) absent

/-- A run is over before it gets to where the cost fits a second time. -/
theorem Stops.exists_append {more : List Nat} (stops : t.Stops maxHoles maxCost gone left)
    (split : gone ++ left = before ++ more) (fit : fits maxCost (t.costAfter before) = true) :
    ∃ rest, before = gone ++ rest := by
  obtain ⟨rest, rfl, -⟩ | ⟨rest, rfl, -⟩ := List.append_eq_append_iff.1 split
  · exact ⟨rest, rfl⟩
  · cases rest with
    | nil => exact ⟨[], by simp⟩
    | cons next rest =>
      rw [stops.unfit before next rest rfl] at fit
      exact Bool.noConfusion fit

variable [OrderedCosts κ]

/-- Once a node is gone, a threshold stays fitted when more are removed. -/
theorem fits_costAfter_append (some : before ≠ [])
    (fit : fits maxCost (t.costAfter before) = true) :
    fits maxCost (t.costAfter (before ++ after)) = true :=
  OrderedBudgets.fits_of_cost_le (costAfter_append_le some) fit

/-- There is a threshold for which greedy pruning does not stop before the end. -/
theorem exists_stops_last (t : Node κ) (maxHoles : HoleBudget) :
    ∃ maxCost : κ, Scalar.isNaN maxCost = false ∧
      ∀ gone left, t.Stops maxHoles maxCost gone left → left = [] := by
  obtain ⟨maxCost, defined, tight⟩ := OrderedCosts.exists_tight (κ := κ)
  refine ⟨maxCost, defined, fun gone left stops => stops.ended.resolve_right ?_⟩
  rw [OrderedCosts.fits_eq_false_of_tight tight (t.costAfter_nonneg gone)]
  exact Bool.false_ne_true

/-- Where the guardians keep up, no run stops between a node and its guardian. -/
theorem GuardiansKeepUp.follows (guarded : t.GuardiansKeepUp maxHoles)
    (defined : Scalar.isNaN maxCost = false) (stops : t.Stops maxHoles maxCost gone left) :
    t.Follows (remaining gone) := by
  have order := stops.order
  intro id lt unmarked
  by_cases keeps : remaining gone id = true
  · rw [keeps, keep_guardian (closedOn_remaining order) (remaining_zero order) lt keeps]
  · -- the node is gone, so its guardian has to be
    have mem : id ∈ gone := by simpa [remaining_eq_true] using keeps
    suffices removed : t.guardian id ∈ gone by
      rw [Bool.not_eq_true] at keeps
      rw [keeps, eq_comm, ← Bool.not_eq_true, remaining_eq_true]
      exact not_not.2 removed
    by_contra absent
    obtain ⟨before, after, rfl⟩ := List.append_of_mem mem
    rw [List.append_assoc, List.cons_append] at order
    obtain ⟨between, later, eq, back⟩ := guarded before id (after ++ left) order unmarked
    have absent_after : t.guardian id ∉ after := fun mem => absent (by simp [mem])
    obtain ⟨more, rfl, rest⟩ := exists_append_of_notMem eq absent_after
    -- the run has stopped because the cost fits, so it fits just before the guardian, and thus earlier
    have fit := stops.ended.resolve_left (by simp [rest])
    have later_fit : fits maxCost (t.costAfter ((before ++ id :: after) ++ more)) = true :=
      fits_costAfter_append (by simp) fit
    rw [List.append_assoc, List.cons_append] at later_fit
    obtain fit | fit := back maxCost defined later_fit
    · rw [stops.unfit before id after rfl] at fit
      exact Bool.noConfusion fit
    · obtain ⟨first, others, eq⟩ := List.exists_cons_of_ne_nil (List.ne_nil_of_mem mem)
      rw [← costAfter_nil, stops.unfit [] first others eq] at fit
      exact Bool.noConfusion fit

/-- If no run stops between a node and its guardian, then the guardians keep up. -/
theorem guardiansKeepUp_of_forall
    (follows : ∀ maxCost, Scalar.isNaN maxCost = false →
      ∃ gone left, t.Stops maxHoles maxCost gone left ∧ t.Follows (remaining gone)) :
    t.GuardiansKeepUp maxHoles := by
  intro before id after order unmarked
  have inside := (removable_remaining order).inside
  have first := guardian_notMem order
  -- a run to the end removes the guardian as well, and it does so later
  have mem : t.guardian id ∈ after := by
    obtain ⟨maxCost, defined, last⟩ := t.exists_stops_last maxHoles
    obtain ⟨gone, left, stops, follows⟩ := follows maxCost defined
    obtain rfl := last gone left stops
    have all := stops.order
    rw [List.append_nil, order] at all
    have mem := follows.mem_of_mem inside unmarked (by simp [← all])
    rw [← all, ← List.singleton_append, ← List.append_assoc] at mem
    exact (List.mem_append.1 mem).resolve_left first
  obtain ⟨between, later, eq, absent⟩ := List.eq_append_cons_of_mem mem
  refine ⟨between, later, eq, fun maxCost defined fit => ?_⟩
  by_contra unfit
  rw [not_or] at unfit
  obtain ⟨gone, left, stops, follows⟩ := follows maxCost defined
  have all : gone ++ left = (before ++ id :: between) ++ t.guardian id :: later := by
    rw [← stops.order, order, eq, List.append_assoc, List.cons_append]
  obtain ⟨rest, split⟩ := stops.exists_append all fit
  have kept : t.guardian id ∉ gone := by
    intro mem
    have mem : t.guardian id ∈ (before ++ [id]) ++ between := by
      rw [List.append_assoc, List.singleton_append, split]
      exact List.mem_append_left _ mem
    exact (List.mem_append.1 mem).elim first absent
  -- a run that has not removed the node has stopped before it
  have removed : id ∈ gone := by
    by_contra out
    obtain ⟨more, rfl, -⟩ := exists_append_of_notMem split.symm out
    have some_left : left ≠ [] := by
      rintro rfl
      rw [List.append_nil] at all
      apply kept
      rw [all]
      exact List.mem_append_right _ List.mem_cons_self
    have fit := stops.ended.resolve_left some_left
    by_cases none : gone = []
    · rw [none, costAfter_nil] at fit
      exact unfit.2 fit
    · exact unfit.1 (fits_costAfter_append none fit)
  exact kept (follows.mem_of_mem inside unmarked removed)

end Stops

/-! ### Exact costs -/

section Weights

variable {t : Node Exact} {maxHoles : HoleBudget} {id : Nat} {left before after : List Nat}

theorem weight_of_unmarked (unmarked : t.hasIndicator id = false) (inner : id ≠ 0) :
    t.weight id = 0 := by
  rw [weight]
  cases label : (TreeIndex.ofTree t).label? id with
  | none => rfl
  | some a =>
    have unusable : a.cost? = none := by simpa [hasIndicator, label, inner] using unmarked
    exact chargeValue_of_none unusable

theorem fits_costAfter_iff (least : ℚ) (gone : List Nat) :
    fits (number (least - slackValue)) (t.costAfter gone) = true ↔
      t.keptWeight (remaining gone) ≤ least := by
  rw [costAfter_eq_keptWeight, fits_number, decide_eq_true_eq, sub_add_cancel]

theorem keptWeight_le_whole (t : Node Exact) (gone : List Nat) :
    t.keptWeight (remaining gone) ≤ t.keptWeight (remaining []) := by
  refine Finset.sum_le_sum_of_subset_of_nonneg ?_ fun id _ _ => t.weight_nonneg id
  exact Finset.monotone_filter_right _ fun id _ => by simp [remaining_eq_true]

/-- Every threshold that is fitted after some nodes are gone was fitted before exactly when these
nodes are charged nothing. -/
theorem fits_back_iff (order : t.removalOrder maxHoles = before ++ (after ++ left)) :
    (∀ maxCost : Exact, Scalar.isNaN maxCost = false →
      fits maxCost (t.costAfter (before ++ after)) = true →
        fits maxCost (t.costAfter before) = true ∨ fits maxCost t.totalCharge = true) ↔
    ∀ id ∈ after, t.weight id = 0 := by
  have total := keptWeight_remaining order
  constructor
  · intro back
    have nonneg : ∀ x ∈ after.map t.weight, 0 ≤ x := by
      rintro _ mem
      obtain ⟨id, -, rfl⟩ := List.mem_map.1 mem
      exact t.weight_nonneg id
    let least := t.keptWeight (remaining (before ++ after))
    have fit := back (number (least - slackValue)) rfl ((fits_costAfter_iff least _).2 (le_refl _))
    rw [← costAfter_nil, fits_costAfter_iff, fits_costAfter_iff] at fit
    have le : t.keptWeight (remaining before) ≤ least :=
      fit.elim id (t.keptWeight_le_whole before).trans
    have none : (after.map t.weight).sum = 0 := by
      have := List.sum_nonneg nonneg
      linarith
    intro id mem
    exact List.all_zero_of_le_zero_le_of_sum_eq_zero nonneg none (List.mem_map_of_mem mem)
  · intro free maxCost _ fit
    have none : (after.map t.weight).sum = 0 := by
      refine List.sum_eq_zero fun x mem => ?_
      obtain ⟨id, inside, rfl⟩ := List.mem_map.1 mem
      exact free id inside
    rw [none, add_zero] at total
    rw [costAfter_eq_keptWeight, total, ← costAfter_eq_keptWeight] at fit
    exact .inl fit

/-- Over exact costs the guardians keep up where they follow. -/
theorem guardiansKeepUp_iff (t : Node Exact) (maxHoles : HoleBudget) :
    t.GuardiansKeepUp maxHoles ↔ t.GuardiansFollow maxHoles := by
  refine forall₅_congr fun before id after order unmarked => ?_
  refine exists₂_congr fun between later => and_congr_right fun eq => ?_
  rw [eq, ← List.cons_append] at order
  rw [fits_back_iff order, List.forall_mem_cons,
    and_iff_right (weight_of_unmarked unmarked (removable_remaining order).inner)]
  refine forall₂_congr fun other _ => ?_
  rw [chargeAt_eq_number, zero_eq_number, number.injEq]

end Weights

/-! ### Answers -/

section Answers

variable {κ : Type} [Scalar κ] {t : Node κ} {maxHoles : HoleBudget} {keep : Nat → Bool}

/-- What an answer retains is what was decided to be kept. -/
theorem retains_toPruning (closed : ClosedOn keep (numbered [] 0 [t])) (maxCost : κ)
    (check : Check) {id : Nat} (lt : id < t.size) :
    ((t.reconstruct keep).toPruning maxCost check).retains id = keep id :=
  retains_annotated closed lt

theorem follows_toPruning (closed : ClosedOn keep (numbered [] 0 [t])) (maxCost : κ)
    (check : Check) :
    t.Follows ((t.reconstruct keep).toPruning maxCost check).retains ↔ t.Follows keep := by
  refine forall₂_congr fun id lt => ?_
  rw [retains_toPruning closed _ _ lt, retains_toPruning closed _ _ (guardian_lt lt)]

theorem holesIndicated_toPruning (closed : ClosedOn keep (numbered [] 0 [t])) (maxCost : κ)
    (check : Check) :
    t.HolesIndicated ((t.reconstruct keep).toPruning maxCost check).retains
      ↔ t.HolesIndicated keep := by
  refine forall₃_congr fun id above parent => ?_
  obtain ⟨less, lt⟩ := TreeIndex.parent?_lt parent
  rw [retains_toPruning closed _ _ lt, retains_toPruning closed _ _ (less.trans lt)]

/-- Greedy pruning drops each node whose guardian it drops. That it also retains each node without an
indicator whose guardian it retains, whatever the threshold, is the same as that its holes all begin
at nodes with an indicator, and holds exactly where the guardians keep up in the order of removal.
Over exact costs they do so where they follow with nothing charged in between. -/
theorem pruneGreedy_follows_tfae (maxHoles : HoleBudget) :
    (∀ {κ : Type} [Scalar κ] [OrderedCosts κ] (t : Node κ),
      (∀ maxCost : κ, Scalar.isNaN maxCost = false →
        ∃ p, t.pruneGreedy maxHoles maxCost = .ok p ∧ p.retains 0 = true ∧
          ∀ id < t.size, p.retains id = true → p.retains (t.guardian id) = true) ∧
      [∀ maxCost p, t.pruneGreedy maxHoles maxCost = .ok p → t.Follows p.retains,
        ∀ maxCost p, t.pruneGreedy maxHoles maxCost = .ok p → t.HolesIndicated p.retains,
        t.GuardiansKeepUp maxHoles].TFAE) ∧
    ∀ t : Node Exact, t.GuardiansKeepUp maxHoles ↔ t.GuardiansFollow maxHoles := by
  refine ⟨fun {κ} _ _ t => ⟨fun maxCost defined => ?_, ?_⟩,
    fun t => guardiansKeepUp_iff t maxHoles⟩
  · obtain ⟨gone, left, check, stops, answer⟩ := t.exists_stops maxHoles defined
    have closed := closedOn_remaining stops.order
    have root := remaining_zero stops.order
    refine ⟨_, answer, (retains_toPruning closed _ _ t.size_pos).trans root, fun id lt keeps => ?_⟩
    rw [retains_toPruning closed _ _ lt] at keeps
    rw [retains_toPruning closed _ _ (guardian_lt lt)]
    exact keep_guardian closed root lt keeps
  · tfae_have 1 ↔ 2 := by
      refine forall₃_congr fun maxCost p answer => ?_
      obtain ⟨gone, left, check, stops, answer'⟩ :=
        t.exists_stops maxHoles (isNaN_of_pruneGreedy answer)
      obtain rfl := Except.ok.inj (answer.symm.trans answer')
      have closed := closedOn_remaining stops.order
      rw [follows_toPruning closed, holesIndicated_toPruning closed]
      exact follows_iff_holesIndicated closed
    tfae_have 1 → 3 := by
      intro follows
      refine guardiansKeepUp_of_forall fun maxCost defined => ?_
      obtain ⟨gone, left, check, stops, answer⟩ := t.exists_stops maxHoles defined
      refine ⟨gone, left, stops, ?_⟩
      exact (follows_toPruning (closedOn_remaining stops.order) _ _).1 (follows maxCost _ answer)
    tfae_have 3 → 1 := by
      intro guarded maxCost p answer
      have defined := isNaN_of_pruneGreedy answer
      obtain ⟨gone, left, check, stops, answer'⟩ := t.exists_stops maxHoles defined
      obtain rfl := Except.ok.inj (answer.symm.trans answer')
      exact (follows_toPruning (closedOn_remaining stops.order) _ _).2
        (guarded.follows defined stops)
    tfae_finish

/-- The one node without an indicator goes right before its guardian, so for every threshold it shares
its fate. -/
theorem pruneGreedy_follows_sample :
    sample.removalOrder none = [4, 3, 2, 1] ∧ sample.guardian 2 = 1 ∧
      ∀ maxCost p, sample.pruneGreedy none maxCost = .ok p →
        sample.Follows p.retains ∧ sample.HolesIndicated p.retains := by
  have order : sample.removalOrder none = [4, 3, 2, 1] := by cbv
  have guardian : sample.guardian 2 = 1 := by decide +kernel
  have marked : ∀ id ∈ [4, 3, 2, 1], sample.hasIndicator id = false → id = 2 := by decide +kernel
  obtain ⟨general, exactly⟩ := pruneGreedy_follows_tfae none
  have guarded : sample.GuardiansKeepUp none := by
    rw [exactly]
    intro before id after split unmarked
    rw [order] at split
    obtain rfl := marked id (by simp [split]) unmarked
    have parts : [4, 3] ++ 2 :: [1] = before ++ 2 :: after := split
    rw [List.append_cons_inj_of_notMem (by decide) (by decide)] at parts
    refine ⟨[], [], ?_, List.forall_mem_nil _⟩
    rw [guardian, ← parts.2.2]
    rfl
  have equivalent := (general sample).2
  have follows : ∀ maxCost p, sample.pruneGreedy none maxCost = .ok p → sample.Follows p.retains :=
    (equivalent.out 0 2).2 guarded
  have indicated : ∀ maxCost p, sample.pruneGreedy none maxCost = .ok p →
      sample.HolesIndicated p.retains :=
    (equivalent.out 1 2).2 guarded
  exact ⟨order, guardian, fun maxCost p answer =>
    ⟨follows maxCost p answer, indicated maxCost p answer⟩⟩

/-- A root over a leaf without cost and a dear node with a leaf without cost below it. -/
def stranded : Node Exact :=
  node (costing (some 0))
    [node (costing none) [], node (costing (some 3)) [node (costing none) []]]

/-- Greedy pruning has removed the first leaf, whose guardian is the root, before it gets to the dear
node. Exact pruning retains that leaf with the root. -/
theorem pruneGreedy_stranded :
    stranded.guardian 1 = 0 ∧ stranded.hasIndicator 1 = false ∧
      (stranded.pruneGreedy none (number 1)).toOption.map
        (fun p => (List.range 4).map p.retains) = some [true, false, false, false] ∧
      (stranded.pruneExact none 1 [number 1]).toOption.map
        (fun results => results.map fun p => (List.range 4).map p.retains)
          = some [[true, true, false, false]] := by
  refine ⟨by decide +kernel, by decide +kernel, by cbv, by decide +kernel⟩

end Answers

end Node

end SureCode
