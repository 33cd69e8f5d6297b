import Mathlib
import SureCode.Proofs.Pruning.Budgets
import SureCode.Proofs.Pruning.Greedy

/-!
# The order of removal

Greedy pruning removes nodes in one order for all thresholds: the threshold decides only how far it
goes. A list of nodes can be removed one after the other (`Removes`) when each is removable once
those before it are gone, and `Removal.order` is the list that a run goes through while nothing fits.
A run for a threshold goes through the shortest part of it after which the cost fits
(`Consistent.descend_order`, `Node.Stops`). The cost that it compares is the charge of the whole tree,
added up from the bottom, before anything is gone, and the sum over what is left from then on
(`Node.costAfter`); with rounding the first of these may be below the second, but from the second on
they never rise (`costAfter_append_le`).
-/

namespace SureCode

open SureCode.Tree Exact

namespace Node

/-! ### Nodes removed one after the other -/

section Removes

variable {κ : Type} {t : Node κ} {keep : Nat → Bool} {id : Nat} {gone before after : List Nat}

/-- A selection without some more nodes. -/
def leaving (keep : Nat → Bool) (gone : List Nat) : Nat → Bool := gone.foldl without keep

theorem leaving_eq_true {other : Nat} :
    leaving keep gone other = true ↔ keep other = true ∧ other ∉ gone := by
  induction gone generalizing keep with
  | nil => simp [leaving]
  | cons id gone ih =>
    change leaving (without keep id) gone other = true ↔ _
    rw [ih, without_eq_true, List.mem_cons, not_or, and_assoc]

theorem leaving_append : leaving keep (before ++ after) = leaving (leaving keep before) after := by
  rw [leaving, List.foldl_append]
  rfl

/-- Nodes of which each can be removed once those before it are gone. -/
inductive Removes (t : Node κ) : (Nat → Bool) → List Nat → Prop
  | nil {keep : Nat → Bool} : Removes t keep []
  | cons {keep : Nat → Bool} {id : Nat} {ids : List Nat} (removable : t.Removable keep id)
    (rest : Removes t (without keep id) ids) : Removes t keep (id :: ids)

namespace Removes

theorem split (removes : t.Removes keep (before ++ after)) :
    t.Removes (leaving keep before) after := by
  induction before generalizing keep with
  | nil => exact removes
  | cons id before ih =>
    cases removes with
    | cons _ rest => exact ih rest

theorem front (removes : t.Removes keep (before ++ after)) : t.Removes keep before := by
  induction before generalizing keep with
  | nil => exact .nil
  | cons id before ih =>
    cases removes with
    | cons removable rest => exact .cons removable (ih rest)

theorem closedOn (removes : t.Removes keep (before ++ after))
    (closed : ClosedOn keep (numbered [] 0 [t])) :
    ClosedOn (leaving keep before) (numbered [] 0 [t]) := by
  induction before generalizing keep with
  | nil => exact closed
  | cons id before ih =>
    cases removes with
    | cons removable rest => exact ih rest (removable.closedOn_without closed)

theorem removable (removes : t.Removes keep (before ++ id :: after)) :
    t.Removable (leaving keep before) id := by
  cases removes.split with
  | cons removable _ => exact removable

theorem root (removes : t.Removes keep gone) (root : keep 0 = true) : leaving keep gone 0 = true := by
  rw [leaving_eq_true]
  refine ⟨root, fun mem => ?_⟩
  obtain ⟨before, after, rfl⟩ := List.append_of_mem mem
  exact removes.removable.inner rfl

end Removes

end Removes

/-! ### Charges -/

section Charges

variable {t : Node Exact} {keep : Nat → Bool} {id : Nat} {gone before after : List Nat}

/-- The rational value of what a node counts against a budget. -/
def weight (t : Node Exact) (id : Nat) : ℚ :=
  (((TreeIndex.ofTree t).label? id).map chargeValue).getD 0

theorem chargeAt_eq_number (t : Node Exact) (id : Nat) : t.chargeAt id = number (t.weight id) := by
  rw [chargeAt, weight]
  cases (TreeIndex.ofTree t).label? id with
  | none => rfl
  | some a => exact charge_eq_number a

theorem weight_nonneg (t : Node Exact) (id : Nat) : 0 ≤ t.weight id := by
  rw [weight]
  cases (TreeIndex.ofTree t).label? id with
  | none => rfl
  | some a => exact chargeValue_nonneg a

/-- The rational value of the charge of what is kept. -/
def keptWeight (t : Node Exact) (keep : Nat → Bool) : ℚ :=
  ∑ id ∈ (Finset.range t.size).filter fun id => keep id = true, t.weight id

theorem keptCharge_eq_keptWeight (t : Node Exact) (keep : Nat → Bool) :
    t.keptCharge keep = number (t.keptWeight keep) := by
  have charges : ((List.range t.size).filter keep).map t.chargeAt
      = (((List.range t.size).filter keep).map t.weight).map number := by
    rw [List.map_map]
    exact List.map_congr_left fun id _ => chargeAt_eq_number t id
  rw [keptCharge, charges, zero_eq_number, foldl_add_number, zero_add, keptWeight,
    ← List.sum_toFinset _ (List.nodup_range.filter _), List.toFinset_filter, List.toFinset_range]

/-- A removable node takes its own charge with it. -/
theorem keptWeight_without (removable : t.Removable keep id) :
    t.keptWeight (without keep id) + t.weight id = t.keptWeight keep := by
  have kept : id ∈ (Finset.range t.size).filter fun id => keep id = true :=
    Finset.mem_filter.2 ⟨Finset.mem_range.2 removable.inside, removable.kept⟩
  have others : (Finset.range t.size).filter (fun i => without keep id i = true)
      = ((Finset.range t.size).filter fun i => keep i = true).erase id := by
    ext i
    simp only [Finset.mem_filter, Finset.mem_erase, without_eq_true]
    tauto
  rw [keptWeight, others, Finset.sum_erase_add _ _ kept]
  rfl

/-- Nodes that are removed take their charges with them. -/
theorem keptWeight_leaving (removes : t.Removes keep gone) :
    t.keptWeight (leaving keep gone) + (gone.map t.weight).sum = t.keptWeight keep := by
  induction removes with
  | nil => exact add_zero _
  | cons removable _ ih =>
    rw [List.map_cons, List.sum_cons, add_left_comm, add_comm, ← keptWeight_without removable, ← ih]
    rfl

end Charges

end Node

/-! ### Runs -/

namespace Removal

open Node

section Order

variable {κ : Type} [Scalar κ] {t : Node κ} {s : State κ} {maxHoles : HoleBudget} {steps : Nat}

/-- The nodes in the order in which they are removed while nothing fits, at most so many. -/
def order (r : Removal κ) (maxHoles : HoleBudget) : Nat → State κ → List Nat
  | 0, _ => []
  | steps + 1, s =>
    match s.next (onlyExtending maxHoles s) with
    | none => []
    | some (a, s) =>
      match r.remove s a with
      | .ok s => a.id :: order r maxHoles steps s
      | .error _ => []

theorem order_of_next_eq_none {r : Removal κ} (next : s.next (onlyExtending maxHoles s) = none) :
    r.order maxHoles steps s = [] := by
  cases steps with
  | zero => rfl
  | succ steps => rw [order, next]

theorem order_succ {r : Removal κ} {a : Candidate κ} {s₁ s' : State κ}
    (next : s.next (onlyExtending maxHoles s) = some (a, s₁)) (ok : r.remove s₁ a = .ok s') :
    r.order maxHoles (steps + 1) s = a.id :: r.order maxHoles steps s' := by
  rw [order, next]
  dsimp only
  rw [ok]

/-- The nodes go one after the other. -/
theorem Consistent.removes_order (consistent : Consistent t s) (maxHoles : HoleBudget)
    (steps : Nat) : t.Removes s.kept ((ofNode t).order maxHoles steps s) := by
  induction steps generalizing s with
  | zero => exact .nil
  | succ steps ih =>
    cases next : s.next (onlyExtending maxHoles s) with
    | none =>
      rw [order_of_next_eq_none next]
      exact .nil
    | some pair =>
      obtain ⟨a, s₁⟩ := pair
      obtain ⟨removable, -, s', ok, consistent', kept, -⟩ := consistent.remove next
      rw [order_succ next ok]
      exact .cons removable (kept ▸ ih consistent')

end Order

section Stop

variable {κ : Type} [Scalar κ] {t : Node κ} {s : State κ} {maxHoles : HoleBudget}

/-- What a run compares with its threshold when some nodes are gone from a state: at first the cost
of the state itself, then the sum over what is left. -/
def State.costAfter (t : Node κ) (s : State κ) : List Nat → κ
  | [] => s.retained
  | id :: gone => t.keptSum (leaving s.kept (id :: gone))

theorem Consistent.costAfter_cons {s' : State κ} {id : Nat} (consistent : Consistent t s')
    (kept : s'.kept = without s.kept id) (gone : List Nat) :
    s.costAfter t (id :: gone) = s'.costAfter t gone := by
  cases gone with
  | nil =>
    have removed : s'.kept id = false := by simp [kept, without]
    rw [State.costAfter, State.costAfter, consistent.retained_of_gone removed, kept]
    rfl
  | cons next gone =>
    rw [State.costAfter, State.costAfter, kept]
    rfl

/-- A run removes nodes in their order until the cost fits or the order is at its end. -/
theorem Consistent.descend_order (consistent : Consistent t s) (maxHoles : HoleBudget)
    (maxCost : κ) (steps : Nat) (enough : (List.range t.size).countP s.kept ≤ steps) :
    ∃ gone left s', (ofNode t).order maxHoles steps s = gone ++ left ∧
      (ofNode t).descend maxHoles maxCost steps s = .ok s' ∧ s'.kept = leaving s.kept gone ∧
      (left = [] ∨ fits maxCost (s.costAfter t gone) = true) ∧
      ∀ before id after, gone = before ++ id :: after →
        fits maxCost (s.costAfter t before) = false := by
  induction steps generalizing s with
  | zero => exact absurd (countP_kept_pos consistent) (by omega)
  | succ steps ih =>
    rw [descend_succ]
    by_cases fit : fits maxCost s.retained = true
    · exact ⟨[], _, s, rfl, if_pos fit, rfl, .inr fit, by simp⟩
    · rw [if_neg fit]
      rw [Bool.not_eq_true] at fit
      cases next : s.next (onlyExtending maxHoles s) with
      | none => exact ⟨[], [], s, order_of_next_eq_none next, rfl, rfl, .inl rfl, by simp⟩
      | some pair =>
        obtain ⟨a, s₁⟩ := pair
        obtain ⟨removable, -, s', ok, consistent', kept, -⟩ := consistent.remove next
        have fewer := countP_kept_without removable
        obtain ⟨gone, left, last, order, run, last_kept, ended, unfit⟩ :=
          ih consistent' (by rw [kept]; omega)
        rw [kept] at last_kept
        have cost := consistent'.costAfter_cons kept
        refine ⟨a.id :: gone, left, last, ?_, ?_, last_kept, ?_, ?_⟩
        · rw [order_succ next ok, order, List.cons_append]
        · simp only [ok, Except.bind]
          exact run
        · rwa [cost]
        · intro before id after eq
          -- nothing fits at the beginning, and later the run is that of the next state
          cases before with
          | nil => exact fit
          | cons first before =>
            obtain ⟨rfl, rest⟩ := List.cons.inj eq
            rw [cost]
            exact unfit before id after rest

end Stop

end Removal

namespace Node

variable {κ : Type} [Scalar κ]

/-- The nodes of a tree in the order in which greedy pruning removes them. -/
def removalOrder (maxHoles : HoleBudget) (t : Node κ) : List Nat :=
  (Removal.ofNode t).order maxHoles t.size (Removal.ofNode t).start

/-- What is left of a tree when some nodes are gone. -/
def remaining (gone : List Nat) : Nat → Bool := leaving (fun _ => true) gone

theorem remaining_eq_true {gone : List Nat} {id : Nat} :
    remaining gone id = true ↔ id ∉ gone := by
  simp [remaining, leaving_eq_true]

theorem kept_start_eq (t : Node κ) : (Removal.ofNode t).start.kept = fun _ => true :=
  funext Removal.kept_start

theorem removes_removalOrder (maxHoles : HoleBudget) (t : Node κ) :
    t.Removes (fun _ => true) (t.removalOrder maxHoles) := by
  have removes := (Removal.consistent_start t).removes_order maxHoles t.size
  rwa [kept_start_eq] at removes

section Remaining

variable {t : Node κ} {maxHoles : HoleBudget} {id : Nat} {gone left before after : List Nat}

theorem removes_remaining (order : t.removalOrder maxHoles = before ++ after) :
    t.Removes (remaining before) after := by
  have removes := t.removes_removalOrder maxHoles
  rw [order] at removes
  exact removes.split

theorem removable_remaining (order : t.removalOrder maxHoles = before ++ id :: after) :
    t.Removable (remaining before) id := by
  have removes := t.removes_removalOrder maxHoles
  rw [order] at removes
  exact removes.removable

theorem closedOn_remaining (order : t.removalOrder maxHoles = gone ++ left) :
    ClosedOn (remaining gone) (numbered [] 0 [t]) := by
  have removes := t.removes_removalOrder maxHoles
  rw [order] at removes
  exact removes.closedOn (closedOn_of_parents fun _ _ _ _ => rfl)

theorem remaining_zero (order : t.removalOrder maxHoles = gone ++ left) :
    remaining gone 0 = true := by
  have removes := t.removes_removalOrder maxHoles
  rw [order] at removes
  exact removes.front.root rfl

theorem remaining_append (before after : List Nat) :
    remaining (before ++ after) = leaving (remaining before) after :=
  leaving_append

end Remaining

section Costs

variable {t : Node κ} {maxHoles : HoleBudget} {before gone after : List Nat}

/-- What a run compares with its threshold when some nodes are gone: at first the charge of the whole
tree, then the sum over what is left. -/
def costAfter (t : Node κ) (gone : List Nat) : κ := (Removal.ofNode t).start.costAfter t gone

theorem costAfter_nil (t : Node κ) : t.costAfter [] = t.totalCharge := by
  cases t
  rfl

theorem costAfter_of_ne_nil (some : gone ≠ []) : t.costAfter gone = t.keptSum (remaining gone) := by
  cases gone with
  | nil => exact absurd rfl some
  | cons id gone => rw [costAfter, Removal.State.costAfter, kept_start_eq, remaining]

variable [OrderedCosts κ]

theorem costAfter_nonneg (t : Node κ) (gone : List Nat) : Scalar.zero ≤ t.costAfter gone := by
  by_cases none : gone = []
  · rw [none, costAfter_nil]
    exact t.totalCharge_nonneg
  · rw [costAfter_of_ne_nil none]
    exact t.keptSum_nonneg _

/-- Once a node is gone, removing more never makes the rest dearer. -/
theorem costAfter_append_le (some : before ≠ []) :
    t.costAfter (before ++ after) ≤ t.costAfter before := by
  rw [costAfter_of_ne_nil some, costAfter_of_ne_nil (by simp [some])]
  refine keptSum_le fun id => ?_
  simp only [remaining_eq_true, List.mem_append, not_or]
  exact And.left

end Costs

/-- For its threshold a run removes the first nodes of the order, as few as make the cost fit, or all
of them. -/
structure Stops (t : Node κ) (maxHoles : HoleBudget) (maxCost : κ) (gone left : List Nat) :
    Prop where
  order : t.removalOrder maxHoles = gone ++ left
  ended : left = [] ∨ fits maxCost (t.costAfter gone) = true
  unfit : ∀ before id after, gone = before ++ id :: after →
    fits maxCost (t.costAfter before) = false

/-- Greedy pruning for a threshold removes the shortest part of the order after which the cost fits,
or all of it. -/
theorem exists_stops (t : Node κ) (maxHoles : HoleBudget) {maxCost : κ}
    (defined : Scalar.isNaN maxCost = false) :
    ∃ gone left check, t.Stops maxHoles maxCost gone left ∧
      t.pruneGreedy maxHoles maxCost
        = .ok ((t.reconstruct (remaining gone)).toPruning maxCost check) := by
  have enough : (List.range t.size).countP (Removal.ofNode t).start.kept ≤ t.size := by
    simpa using List.countP_le_length (l := List.range t.size)
  obtain ⟨gone, left, s, order, run, kept, ended, unfit⟩ :=
    (Removal.consistent_start t).descend_order maxHoles maxCost t.size enough
  obtain ⟨s', run', -, -, -, answer⟩ := t.exists_greedy_run maxHoles defined
  obtain rfl : s = s' := Except.ok.inj (run.symm.trans run')
  rw [kept_start_eq] at kept
  rw [kept] at answer
  exact ⟨gone, left, _, ⟨order, ended, unfit⟩, answer⟩

/-! ### Exact costs -/

section Weights

variable {t : Node Exact} {maxHoles : HoleBudget} {left before after : List Nat}

theorem costAfter_eq_keptWeight (t : Node Exact) (gone : List Nat) :
    t.costAfter gone = number (t.keptWeight (remaining gone)) := by
  rw [← keptCharge_eq_keptWeight]
  by_cases none : gone = []
  · rw [none, costAfter_nil, totalCharge_eq]
    rfl
  · rw [costAfter_of_ne_nil none]
    rfl

theorem keptWeight_remaining (order : t.removalOrder maxHoles = before ++ (after ++ left)) :
    t.keptWeight (remaining (before ++ after)) + (after.map t.weight).sum
      = t.keptWeight (remaining before) := by
  rw [remaining_append]
  exact keptWeight_leaving (removes_remaining order).front

end Weights

end Node

end SureCode
