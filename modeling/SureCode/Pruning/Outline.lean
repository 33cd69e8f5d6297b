import SureCode.Node.Basic
import SureCode.Tree.Index
import SureCode.Tree.SideTable

/-!
# Outlines

The outline of a tree is what the exact engine decides about. An item is a node below the root with
a usable cost. Items are numbered in preorder and hang below one another like the nodes they stand
for; a node without a usable cost has no item and follows the one that owns it: the nearest item
above it, or the root.
-/

namespace SureCode

open SureCode.Tree

variable {κ : Type}

/-- A node below the root that is retained or not by a decision of its own. -/
structure Item (κ : Type) where
  number : Nat
  cost : κ
deriving Repr, Inhabited

/-- The items of a tree. -/
structure Outline (κ : Type) where
  /-- What the root counts against every budget. -/
  rootCharge : κ
  forest : List (Tree (Item κ))
  /-- The item that owns each node, by the node's number in preorder. An item owns its own node; the
  root owns itself and what no item owns. -/
  owners : SideTable (Option Nat)
deriving Repr

namespace Node

mutual

/-- The items of a tree, of which the first has the number `next`. -/
def itemsFrom [Scalar κ] (next : Nat) : Node κ → List (Tree (Item κ))
  | node a ts =>
    match a.cost? with
    | some cost => [node ⟨next, cost⟩ (itemsAllFrom (next + 1) ts)]
    | none => itemsAllFrom next ts

/-- The items of sibling trees, of which the first has the number `next`. -/
def itemsAllFrom [Scalar κ] (next : Nat) : List (Node κ) → List (Tree (Item κ))
  | [] => []
  | t :: ts =>
    let items := itemsFrom next t
    items ++ itemsAllFrom (next + sizeAll items) ts

end

mutual

/-- The owner of each node of a tree in preorder, where the first item has the number `next`. -/
def ownersFrom [Scalar κ] (above : Option Nat) (next : Nat) : Node κ → List (Option Nat)
  | node a ts =>
    if a.cost?.isSome then some next :: ownersAllFrom (some next) (next + 1) ts
    else above :: ownersAllFrom above next ts

/-- The owner of each node of sibling trees in preorder. -/
def ownersAllFrom [Scalar κ] (above : Option Nat) (next : Nat) : List (Node κ) → List (Option Nat)
  | [] => []
  | t :: ts =>
    ownersFrom above next t ++ ownersAllFrom above (next + sizeAll (itemsFrom next t)) ts

end

end Node

namespace Outline

/-- The outline of a tree. -/
def ofNode [Scalar κ] (t : Node κ) : Outline κ where
  rootCharge := t.label.charge
  forest := Node.itemsAllFrom 0 t.children
  owners := ⟨(none :: Node.ownersAllFrom none 0 t.children).toArray⟩

/-- The number of items. -/
def size (outline : Outline κ) : Nat := sizeAll outline.forest

/-- The items by number. -/
def index (outline : Outline κ) : TreeIndex (Item κ) := .ofForest outline.forest

/-- Whether a node is retained when its owner is. The root is always retained. -/
def keeps (outline : Outline κ) (itemKept : Nat → Bool) (id : Nat) : Bool :=
  match outline.owners.get? id with
  | some (some item) => itemKept item
  | _ => true

end Outline

namespace Node

mutual

theorem length_ownersFrom [Scalar κ] (above : Option Nat) (next : Nat) (t : Node κ) :
    (ownersFrom above next t).length = t.size := by
  match t with
  | node a ts =>
    by_cases h : a.cost?.isSome
    · simp [ownersFrom, h, length_ownersAllFrom (some next) (next + 1) ts]
    · simp [ownersFrom, h, length_ownersAllFrom above next ts]

theorem length_ownersAllFrom [Scalar κ] (above : Option Nat) (next : Nat) (ts : List (Node κ)) :
    (ownersAllFrom above next ts).length = sizeAll ts := by
  match ts with
  | [] => simp [ownersAllFrom, sizeAll]
  | t :: ts =>
    simp [ownersAllFrom, sizeAll, length_ownersFrom above next t, length_ownersAllFrom above _ ts]

end

end Node

end SureCode
