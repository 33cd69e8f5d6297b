import Mathlib
import SureCode.Proofs.Pruning.CostTable
import SureCode.Proofs.Pruning.Picks
import SureCode.Pruning.LeastCost

/-!
# The least cost is attained

The least cost of an outline is the cost of some selection within the hole budget, and no selection
within it costs less (`leastCost?_spec`). There always is one: keeping everything opens no hole, and
without a budget nothing but the root need be kept.
-/

namespace SureCode

open SureCode.Tree Exact

namespace Picks

variable {start : Nat} {ts : Forest} {status : Nat → Status}

/-- Keeping everything opens no hole. -/
theorem exists_all (proper : Proper start ts) (free : ∀ i, status i = .free) :
    ∃ items cost, Picks Item.price status ts items 0 cost := by
  induction ts using forest_induction generalizing start with
  | nil => exact ⟨[], 0, .nil⟩
  | cons item us ts below rest =>
    obtain ⟨-, proper_below, proper_rest⟩ := proper.split
    obtain ⟨items₁, cost₁, picks₁⟩ := below proper_below
    obtain ⟨items₂, cost₂, picks₂⟩ := rest proper_rest
    exact ⟨_, _, .keep (by simp [free]) picks₁ picks₂⟩

/-- Keeping nothing costs nothing. -/
theorem exists_none (free : ∀ i, status i = .free) (ts : Forest) :
    ∃ holes, Picks Item.price status ts [] holes 0 := by
  induction ts using forest_induction with
  | nil => exact ⟨0, .nil⟩
  | cons item us ts below rest =>
    obtain ⟨holes, picks⟩ := rest
    exact ⟨holes + 1, .drop (by simp [free]) picks⟩

end Picks

namespace Outline

variable {rows row holes used start : Nat} {left own : Array (Option Exact)} {ts : Forest}
  {status : Nat → Status}

/-- Every cost of a row of costs by holes is a number. -/
structure ProperCosts (rows : Nat) (costs : Array (Option Exact)) : Prop where
  size_eq : costs.size = rows
  numeric : ∀ holes : Nat, Numeric costs[holes]?.join

theorem ProperCosts.lt {costs : Array (Option Exact)} {x : Exact} (proper : ProperCosts rows costs)
    (cost : costs[holes]?.join = some x) : holes < rows := by
  by_contra outside
  have : costs[holes]? = none := by
    rw [Array.getElem?_eq_none_iff, proper.size_eq]
    exact not_lt.1 outside
  simp [this] at cost

theorem cost_withoutHoles {cost : Exact} :
    (withoutHoles rows cost)[holes]?.join = if holes = 0 ∧ 0 < rows then some cost else none := by
  by_cases lt : holes < rows
  · by_cases zero : holes = 0
    · have pos : 0 < rows := by omega
      simp [withoutHoles, zero, pos]
    · simp [withoutHoles, lt, zero]
  · have : ¬ (holes = 0 ∧ 0 < rows) := by omega
    simp [withoutHoles, lt, this]

theorem proper_withoutHoles (x : ℚ) : ProperCosts rows (withoutHoles rows (number x)) := by
  refine ⟨by simp [withoutHoles], fun holes => ?_⟩
  rw [cost_withoutHoles]
  split
  · exact numeric_some x
  · exact numeric_none

/-! ### One item -/

/-- The cost of dropping an item. -/
def droppedCost? (left : Array (Option Exact)) (holes : Nat) : Option Exact :=
  if holes = 0 then none else left[holes - 1]?.join

/-- The cost of keeping an item with some of the holes to the left of it. -/
def keptCost? (left own : Array (Option Exact)) (holes used : Nat) : Option Exact :=
  addCosts left[used]?.join own[holes - used]?.join

theorem cost_extendHoles (lt : holes < left.size) :
    (extendHoles left own)[holes]?.join
      = (List.range (holes + 1)).foldl
          (fun least used => cheaper least (keptCost? left own holes used))
          (droppedCost? left holes) := by
  simp [extendHoles, lt, keptCost?, droppedCost?]

theorem numeric_droppedCost? (proper : ProperCosts rows left) :
    Numeric (droppedCost? left holes) := by
  unfold droppedCost?
  split
  · exact numeric_none
  · exact proper.numeric _

theorem numeric_keptCost? (left_proper : ProperCosts rows left)
    (own_proper : ProperCosts rows own) :
    Numeric (keptCost? left own holes used) :=
  (left_proper.numeric _).addCosts (own_proper.numeric _)

theorem proper_extendHoles (left_proper : ProperCosts rows left)
    (own_proper : ProperCosts rows own) :
    ProperCosts rows (extendHoles left own) := by
  have size_eq : (extendHoles left own).size = rows := by simp [extendHoles, left_proper.size_eq]
  refine ⟨size_eq, fun holes x cost => ?_⟩
  by_cases lt : holes < left.size
  · rw [cost_extendHoles lt] at cost
    rcases foldl_cheaper_eq_some cost with dropped | ⟨used, -, kept⟩
    · exact numeric_droppedCost? left_proper x dropped
    · exact numeric_keptCost? left_proper own_proper x kept
  · simp [extendHoles, lt] at cost

/-- A cost after one item is a cost before it with the item dropped, or a sum with a cost of keeping
it. -/
theorem extendHoles_eq_some {x : Exact} (left_proper : ProperCosts rows left)
    (own_proper : ProperCosts rows own) (cost : (extendHoles left own)[holes]?.join = some x) :
    (∃ row, holes = row + 1 ∧ left[row]?.join = some x) ∨
      ∃ row used y z, holes = row + used ∧ left[row]?.join = some y ∧ own[used]?.join = some z ∧
        x = y + z := by
  have lt : holes < left.size :=
    left_proper.size_eq ▸ (proper_extendHoles left_proper own_proper).lt cost
  rw [cost_extendHoles lt] at cost
  rcases foldl_cheaper_eq_some cost with dropped | ⟨row, mem, kept⟩
  · unfold droppedCost? at dropped
    split at dropped
    · simp at dropped
    · exact .inl ⟨holes - 1, by omega, dropped⟩
  · obtain ⟨y, z, before, below, sum⟩ := addCosts_eq_some kept
    have := List.mem_range.1 mem
    exact .inr ⟨row, holes - row, y, z, by omega, before, below, sum⟩

theorem atMost_extendHoles_drop {x : ℚ} (left_proper : ProperCosts rows left)
    (own_proper : ProperCosts rows own) (lt : row + 1 < rows) (atMost : AtMost left[row]?.join x) :
    AtMost (extendHoles left own)[row + 1]?.join x := by
  rw [cost_extendHoles (left_proper.size_eq.symm ▸ lt)]
  exact atMost_foldl_first (fun used _ => numeric_keptCost? left_proper own_proper)
    (by simpa [droppedCost?] using atMost)

theorem atMost_extendHoles_keep {x y : ℚ} (left_proper : ProperCosts rows left)
    (own_proper : ProperCosts rows own) (lt : row + used < rows)
    (before : AtMost left[row]?.join x) (below : AtMost own[used]?.join y) :
    AtMost (extendHoles left own)[row + used]?.join (x + y) := by
  rw [cost_extendHoles (left_proper.size_eq.symm ▸ lt)]
  have mem : row ∈ List.range (row + used + 1) := List.mem_range.2 (by omega)
  refine atMost_foldl_of_mem (numeric_droppedCost? left_proper)
    (fun used _ => numeric_keptCost? left_proper own_proper) mem ?_
  rw [keptCost?, Nat.add_sub_cancel_left]
  exact before.addCosts below

/-! ### A forest -/

theorem holeCostsAll_nil : holeCostsAll rows left [] = left := by
  rw [holeCostsAll]

theorem holeCostsAll_cons {item : Item Exact} {us : Forest} :
    holeCostsAll rows left (node item us :: ts)
      = holeCostsAll rows
          (extendHoles left (holeCostsAll rows (withoutHoles rows item.cost) us)) ts := by
  rw [holeCostsAll, holeCosts]

theorem proper_holeCostsAll (proper : Proper start ts) (left_proper : ProperCosts rows left) :
    ProperCosts rows (holeCostsAll rows left ts) := by
  induction ts using forest_induction generalizing start left with
  | nil => rwa [holeCostsAll_nil]
  | cons item us ts below rest =>
    obtain ⟨-, price⟩ := proper.cost
    obtain ⟨-, proper_below, proper_rest⟩ := proper.split
    rw [holeCostsAll_cons]
    exact rest proper_rest
      (proper_extendHoles left_proper (below proper_below (price ▸ proper_withoutHoles _)))

/-- A selection taken in after a row of costs has a cost of at most its own. -/
theorem atMost_holeCostsAll {items : List Nat} {cost x : ℚ}
    (picks : Picks Item.price status ts items holes cost) (proper : Proper start ts)
    (left_proper : ProperCosts rows left) (lt : row + holes < rows)
    (atMost : AtMost left[row]?.join x) :
    AtMost (holeCostsAll rows left ts)[row + holes]?.join (x + cost) := by
  induction picks generalizing start left row x with
  | nil => rwa [holeCostsAll_nil, add_zero, add_zero]
  | @drop item us ts items holes cost may rest ih =>
    obtain ⟨-, price⟩ := proper.cost
    obtain ⟨-, proper_below, proper_rest⟩ := proper.split
    have own : ProperCosts rows (holeCostsAll rows (withoutHoles rows item.cost) us) :=
      proper_holeCostsAll proper_below (price ▸ proper_withoutHoles _)
    have := ih proper_rest (proper_extendHoles left_proper own) (by omega)
      (atMost_extendHoles_drop left_proper own (by omega) atMost)
    rwa [holeCostsAll_cons, add_comm holes 1, ← add_assoc]
  | @keep item us ts items₁ holes₁ cost₁ items₂ holes₂ cost₂ may picks_below picks_rest ih₁ ih₂ =>
    obtain ⟨-, price⟩ := proper.cost
    obtain ⟨-, proper_below, proper_rest⟩ := proper.split
    have own_left : ProperCosts rows (withoutHoles rows item.cost) := price ▸ proper_withoutHoles _
    have own := proper_holeCostsAll proper_below own_left
    have own_atMost : AtMost (holeCostsAll rows (withoutHoles rows item.cost) us)[0 + holes₁]?.join
        (item.price + cost₁) := by
      refine ih₁ proper_below own_left (by omega) ?_
      have pos : 0 < rows := by omega
      simpa [cost_withoutHoles, pos, price] using atMost_self item.price
    rw [zero_add] at own_atMost
    have := ih₂ proper_rest (proper_extendHoles left_proper own) (by omega)
      (atMost_extendHoles_keep left_proper own (by omega) atMost own_atMost)
    have cost_eq : x + (item.price + cost₁ + cost₂) = x + (item.price + cost₁) + cost₂ := by ring
    rwa [holeCostsAll_cons, cost_eq, ← add_assoc]

/-- Every cost after a forest is that of a selection taken in after a cost before it. -/
theorem picks_of_holeCostsAll {target : ℚ} (proper : Proper start ts)
    (left_proper : ProperCosts rows left) (free : ∀ i, status i = .free)
    (cost : (holeCostsAll rows left ts)[holes]?.join = some (number target)) :
    ∃ row x items opened paid, left[row]?.join = some (number x) ∧
      Picks Item.price status ts items opened paid ∧ holes = row + opened ∧ target = x + paid := by
  induction ts using forest_induction generalizing start left holes target with
  | nil =>
    rw [holeCostsAll_nil] at cost
    exact ⟨holes, target, [], 0, 0, cost, .nil, rfl, (add_zero target).symm⟩
  | cons item us ts below rest =>
    obtain ⟨-, price⟩ := proper.cost
    obtain ⟨-, proper_below, proper_rest⟩ := proper.split
    have own_left : ProperCosts rows (withoutHoles rows item.cost) := price ▸ proper_withoutHoles _
    have own := proper_holeCostsAll proper_below own_left
    rw [holeCostsAll_cons] at cost
    obtain ⟨row₂, x₂, items₂, opened₂, paid₂, before, picks₂, rfl, rfl⟩ :=
      rest proper_rest (proper_extendHoles left_proper own) cost
    rcases extendHoles_eq_some left_proper own before with
      ⟨row, rfl, dropped⟩ | ⟨row, used, _, _, rfl, earlier, inside, sum⟩
    · exact ⟨row, x₂, items₂, opened₂ + 1, paid₂, dropped, .drop (by simp [free]) picks₂, by omega,
        rfl⟩
    · obtain ⟨p, rfl⟩ := left_proper.numeric _ _ earlier
      obtain ⟨q, rfl⟩ := own.numeric _ _ inside
      obtain ⟨row₁, x₁, items₁, opened₁, paid₁, first, picks₁, rfl, rfl⟩ :=
        below proper_below own_left inside
      rw [cost_withoutHoles, price] at first
      split_ifs at first with zero
      obtain rfl : item.price = x₁ := Exact.number.inj (Option.some.inj first)
      obtain rfl : x₂ = p + (item.price + paid₁) := Exact.number.inj sum
      exact ⟨row, p, _, _, _, earlier, .keep (by simp [free]) picks₁ picks₂,
        by omega, by ring⟩

/-! ### The least cost -/

theorem exists_entry {costs : Array (Option Exact)} {x : Exact}
    (least : costs.toList.foldl (fun least o => cheaper least o) none = some x) :
    ∃ holes : Nat, costs[holes]?.join = some x := by
  rcases foldl_cheaper_eq_some least with absurd | ⟨_, mem, rfl⟩
  · simp at absurd
  · obtain ⟨holes, at_holes⟩ := List.mem_iff_getElem?.1 mem
    exact ⟨holes, by simpa using congrArg Option.join at_holes⟩

theorem atMost_foldl {costs : Array (Option Exact)} {x : ℚ} (proper : ProperCosts rows costs)
    (atMost : AtMost costs[holes]?.join x) :
    AtMost (costs.toList.foldl (fun least o => cheaper least o) none) x := by
  obtain ⟨q, le, eq⟩ := atMost
  have at_holes : costs[holes]? = some (some (number q)) := Option.join_eq_some_iff.1 eq
  refine atMost_foldl_of_mem numeric_none (fun o mem => ?_) ?_ ⟨q, le, rfl⟩
  · obtain ⟨other, at_other⟩ := List.mem_iff_getElem?.1 mem
    have : costs[other]?.join = o := by simpa using congrArg Option.join at_other
    exact this ▸ proper.numeric other
  · exact List.mem_iff_getElem?.2 ⟨holes, by simpa using at_holes⟩

/-- The costs of an outline by their holes, the root's included. -/
def costsByHoles (outline : Outline Exact) (most : Nat) : Array (Option Exact) :=
  holeCostsAll (HoleBudget.rows (some most) outline.size)
    (withoutHoles (HoleBudget.rows (some most) outline.size) outline.rootCharge) outline.forest

section LeastCost

variable {outline : Outline Exact} {charge : ℚ} {most : Nat}

theorem leastCost?_eq_foldl : outline.leastCost? (some most)
    = (outline.costsByHoles most).toList.foldl (fun least o => cheaper least o) none :=
  (Array.foldl_toList _).symm

theorem proper_costsByHoles (proper : Proper 0 outline.forest)
    (root : outline.rootCharge = number charge) :
    ProperCosts (HoleBudget.rows (some most) outline.size) (outline.costsByHoles most) :=
  proper_holeCostsAll proper (root ▸ proper_withoutHoles charge)

/-- No selection within the hole budget costs less than the least cost. -/
theorem atMost_leastCost? {items : List Nat} {holes : Nat} {cost : ℚ}
    (proper : Proper 0 outline.forest) (root : outline.rootCharge = number charge)
    (picks : Picks Item.price status outline.forest items holes cost)
    (allows : HoleBudget.Allows (some most) holes) :
    AtMost (outline.leastCost? (some most)) (charge + cost) := by
  have first : (withoutHoles (HoleBudget.rows (some most) outline.size) outline.rootCharge)[0]?.join
      = some (number charge) := by
    simp [cost_withoutHoles, HoleBudget.rows_pos, root]
  have lt : holes < HoleBudget.rows (some most) outline.size := by
    have inside := picks.length_add_holes_le
    have : HoleBudget.add (some most) 0 holes < HoleBudget.rows (some most) outline.size :=
      HoleBudget.add_lt_rows (by rw [size]; omega) allows
    simpa [HoleBudget.add] using this
  have last := atMost_holeCostsAll picks proper (root ▸ proper_withoutHoles charge) (by omega)
    (first ▸ atMost_self charge)
  rw [zero_add] at last
  rw [leastCost?_eq_foldl]
  exact atMost_foldl (proper_costsByHoles proper root) last

/-- The least cost of an outline is that of a selection within the hole budget, and no such
selection costs less. -/
theorem leastCost?_spec (maxHoles : HoleBudget) (proper : Proper 0 outline.forest)
    (root : outline.rootCharge = number charge) (free : ∀ i, status i = .free) :
    ∃ least, outline.leastCost? maxHoles = some (number (charge + least)) ∧
      (∃ items holes, Picks Item.price status outline.forest items holes least ∧ maxHoles.Allows holes) ∧
        ∀ items holes cost, Picks Item.price status outline.forest items holes cost →
          maxHoles.Allows holes → least ≤ cost := by
  cases maxHoles with
  | none =>
    obtain ⟨holes, picks⟩ := Picks.exists_none free outline.forest
    refine ⟨0, by simp [leastCost?, root], ⟨[], holes, picks, by simp [HoleBudget.Allows]⟩, ?_⟩
    exact fun items holes cost picks _ => picks.cost_nonneg proper
  | some most =>
    -- keeping everything opens no hole, so there is a least cost
    obtain ⟨_, _, all⟩ := Picks.exists_all proper free
    obtain ⟨q, -, least⟩ := atMost_leastCost? proper root all (fun _ _ => Nat.zero_le _)
    obtain ⟨holes, entry⟩ := exists_entry (leastCost?_eq_foldl ▸ least)
    obtain ⟨row, x, items, opened, paid, before, picks, rfl, rfl⟩ :=
      picks_of_holeCostsAll proper (root ▸ proper_withoutHoles charge) free entry
    rw [cost_withoutHoles] at before
    split_ifs at before with zero
    obtain rfl : charge = x := Exact.number.inj (root.symm.trans (Option.some.inj before))
    refine ⟨paid, least, ⟨items, opened, picks, ?_⟩, fun items holes cost picks allows => ?_⟩
    · have := (proper_costsByHoles proper root).lt entry
      rintro _ ⟨⟩
      simp only [HoleBudget.rows] at this
      omega
    · obtain ⟨q', le, eq⟩ := atMost_leastCost? proper root picks allows
      have : charge + paid = q' := Exact.number.inj (Option.some.inj (least.symm.trans eq))
      linarith

end LeastCost

end Outline

end SureCode
