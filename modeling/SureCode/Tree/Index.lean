import SureCode.Tree.Basic

/-!
# The index of a tree

An index numbers the nodes of a tree in preorder and keeps, for every number, the label, the parent,
the children and the end of the node's subtree. The strict descendants of a node are the numbers
between its own and that end.
-/

namespace SureCode

namespace Tree

variable {α : Type}

/-- What an index knows of one node. -/
structure Entry (α : Type) where
  label : α
  /-- The numbers of the nodes above it, the nearest first. -/
  ancestors : List Nat
  /-- The numbers of its children, from left to right. -/
  children : List Nat
  /-- One past the last number of its subtree. -/
  stop : Nat
deriving Repr, Inhabited

/-- The numbers of some sibling trees, the first of which has the number `start`. -/
def siblingNumbers : Nat → List (Tree α) → List Nat
  | _, [] => []
  | start, t :: ts => start :: siblingNumbers (start + t.size) ts

mutual

/-- The entries of a tree whose root has the number `start`. -/
def entries (ancestors : List Nat) (start : Nat) : Tree α → List (Entry α)
  | node a ts =>
    let below := entriesAll (start :: ancestors) (start + 1) ts
    ⟨a, ancestors, siblingNumbers (start + 1) ts, start + 1 + below.length⟩ :: below

/-- The entries of some sibling trees, the first of which has the number `start`. -/
def entriesAll (ancestors : List Nat) (start : Nat) : List (Tree α) → List (Entry α)
  | [] => []
  | t :: ts =>
    let first := entries ancestors start t
    first ++ entriesAll ancestors (start + first.length) ts

end

end Tree

/-- The nodes of a tree by number. -/
structure TreeIndex (α : Type) where
  entries : Array (Tree.Entry α)
deriving Repr

namespace TreeIndex

variable {α : Type}

/-- The index of a tree. -/
def ofTree (t : Tree α) : TreeIndex α := ⟨(t.entries [] 0).toArray⟩

/-- The index of a forest. -/
def ofForest (ts : List (Tree α)) : TreeIndex α := ⟨(Tree.entriesAll [] 0 ts).toArray⟩

/-- The number of nodes. -/
def size (index : TreeIndex α) : Nat := index.entries.size

/-- The numbers in preorder. -/
def ids (index : TreeIndex α) : List Nat := List.range index.size

def label? (index : TreeIndex α) (id : Nat) : Option α := index.entries[id]?.map (·.label)

/-- The node above a node; the root, and a number of no node, have none. -/
def parent? (index : TreeIndex α) (id : Nat) : Option Nat :=
  index.entries[id]?.bind (·.ancestors.head?)

/-- A node with the nodes above it, the nearest first. -/
def path (index : TreeIndex α) (id : Nat) : List Nat :=
  id :: (index.entries[id]?.map (·.ancestors)).getD []

def children (index : TreeIndex α) (id : Nat) : List Nat :=
  (index.entries[id]?.map (·.children)).getD []

/-- One past the last number of a node's subtree. -/
def stop (index : TreeIndex α) (id : Nat) : Nat := (index.entries[id]?.map (·.stop)).getD id

/-- The strict descendants of a node in preorder. -/
def descendants (index : TreeIndex α) (id : Nat) : List Nat :=
  List.range' (id + 1) (index.stop id - (id + 1))

/-- A node with its strict descendants in preorder. -/
def subtree (index : TreeIndex α) (id : Nat) : List Nat :=
  List.range' id (index.stop id - id)

end TreeIndex

namespace Tree

variable {α : Type}

mutual

theorem map_label_entries (ancestors : List Nat) (start : Nat) (t : Tree α) :
    (t.entries ancestors start).map (·.label) = t.preorder := by
  match t with
  | node a ts => simp [entries, map_label_entriesAll (start :: ancestors) (start + 1) ts]

theorem map_label_entriesAll (ancestors : List Nat) (start : Nat) (ts : List (Tree α)) :
    (entriesAll ancestors start ts).map (·.label) = preorderAll ts := by
  match ts with
  | [] => simp [entriesAll, preorderAll]
  | t :: ts =>
    simp [entriesAll, preorderAll, map_label_entries ancestors start t,
      map_label_entriesAll ancestors _ ts]

end

theorem length_entries (ancestors : List Nat) (start : Nat) (t : Tree α) :
    (t.entries ancestors start).length = t.size := by
  rw [← length_preorder, ← map_label_entries ancestors start t, List.length_map]

end Tree

theorem TreeIndex.size_ofTree {α : Type} (t : Tree α) : (TreeIndex.ofTree t).size = t.size := by
  simp [TreeIndex.size, TreeIndex.ofTree, Tree.length_entries]

end SureCode
