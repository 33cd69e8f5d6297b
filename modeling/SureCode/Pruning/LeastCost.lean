import SureCode.Pruning.CostTable
import SureCode.Pruning.Outline

/-!
# The least cost

The cost that no selection within a hole budget can stay under. Without a budget it is the charge of
the root alone. With one, each item has the least costs of keeping it by the number of holes opened
below it.
-/

namespace SureCode

open SureCode.Tree

variable {κ : Type} [Scalar κ]

namespace Outline

/-- Takes in one item under a kept parent: it is dropped as a fresh hole, or kept with any part of
the holes. -/
def extendHoles (left own : Array (Option κ)) : Array (Option κ) :=
  Array.ofFn fun holes : Fin left.size =>
    let dropped := if holes.val = 0 then none else left[holes.val - 1]?.join
    let kept (used : Nat) : Option κ := addCosts left[used]?.join own[holes.val - used]?.join
    (List.range (holes.val + 1)).foldl (fun least used => cheaper least (kept used)) dropped

/-- The costs by holes of one cost without holes. -/
def withoutHoles (rows : Nat) (cost : κ) : Array (Option κ) :=
  Array.ofFn fun holes : Fin rows => if holes.val = 0 then some cost else none

mutual

/-- The least costs of keeping an item, by the holes below it. -/
def holeCosts (rows : Nat) : Tree (Item κ) → Array (Option κ)
  | node item ts => holeCostsAll rows (withoutHoles rows item.cost) ts

/-- The least costs after sibling items have been taken in. -/
def holeCostsAll (rows : Nat) (left : Array (Option κ)) : List (Tree (Item κ)) → Array (Option κ)
  | [] => left
  | t :: ts => holeCostsAll rows (extendHoles left (holeCosts rows t)) ts

end

/-- The least cost of a selection within a hole budget, if there is any selection. -/
def leastCost? (outline : Outline κ) : HoleBudget → Option κ
  | none => some outline.rootCharge
  | some most =>
    let rows := HoleBudget.rows (some most) outline.size
    let costs := holeCostsAll rows (withoutHoles rows outline.rootCharge) outline.forest
    costs.foldl cheaper none

end Outline

end SureCode
