import SureCode.Node.Basic
import SureCode.Tree.Index
import SureCode.Tree.Walk

/-!
# Folding

The items of a tree in one pass over its nodes, from the first number below the root to the last. A
node with a usable cost becomes the next item, below the item that owns the parent of the node. Any
other node is folded into that item: it has the owner of its parent. The root has no owner, and an
item whose node has no owner above it has no parent. The pass fails where a table has no value to
read or to replace.
-/

namespace SureCode

open SureCode.Tree

variable {κ : Type}

/-- An item as one pass finds it. -/
structure FoldedItem (κ : Type) where
  cost : κ
  parent : Option Nat
  children : List Nat
deriving Repr

/-- What one pass has found so far: the items by number, and the owners of the nodes by number. -/
structure Folding (κ : Type) where
  items : SideTable (FoldedItem κ)
  owners : SideTable (Option Nat)
deriving Repr

namespace Folding

/-- Nothing is found yet, and none of so many nodes has an owner. -/
def start (count : Nat) : Folding κ := ⟨.ofList [], .filled count none⟩

/-- The items with the next number among the children of its parent, if it has one. -/
def adopt? (items : SideTable (FoldedItem κ)) : Option Nat → Option (SideTable (FoldedItem κ))
  | none => some items
  | some parent => items.modify? parent fun entry =>
      { entry with children := entry.children ++ [items.size] }

/-- The items with a further one, which comes last among the children of its parent, and its
number. -/
def addItem? (items : SideTable (FoldedItem κ)) (cost : κ) (parent : Option Nat) :
    Option (Nat × SideTable (FoldedItem κ)) :=
  (adopt? items parent).map (·.push ⟨cost, parent, []⟩)

/-- The owner of the parent of a node, if there is a parent. -/
def inherited? {α : Type} (index : TreeIndex α) (f : Folding κ) (id : Nat) :
    Option (Option Nat) :=
  match index.parent? id with
  | none => some none
  | some above => f.owners.get? above

/-- Takes in the node with a number, after all nodes with smaller ones. -/
def step? [Scalar κ] (index : TreeIndex (Construct κ)) (f : Folding κ) (id : Nat) :
    Option (Folding κ) := do
  let inherited ← f.inherited? index id
  let a ← index.label? id
  match a.cost? with
  | none => return { f with owners := ← f.owners.set? id inherited }
  | some cost =>
    let (item, items) ← addItem? f.items cost inherited
    return ⟨items, ← f.owners.set? id (some item)⟩

/-- The items and the owners of a tree. -/
def ofNode? [Scalar κ] (t : Node κ) : Option (Folding κ) :=
  let index := TreeIndex.ofTree t
  (index.ids.filter (· != 0)).foldlM (step? index) (start index.size)

/-- One past the last item of the subtree of each item. -/
def stops? (f : Folding κ) : Option (SideTable Nat) := (f.items.map (·.children)).stops?

end Folding

end SureCode
