/-!
# Trees

Ordered trees with a label at every node. The view of a tree is the list of its labels in preorder;
the functions below walk a tree in that order, each by one recursion on trees and on lists of trees.
-/

namespace SureCode

/-- A label with the trees below it, from left to right. -/
inductive Tree (α : Type) where
  | node (label : α) (children : List (Tree α))
deriving Repr

namespace Tree

variable {α β γ σ : Type}

instance [Inhabited α] : Inhabited (Tree α) := ⟨node default []⟩

def label : Tree α → α
  | node a _ => a

def children : Tree α → List (Tree α)
  | node _ ts => ts

@[simp] theorem label_node (a : α) (ts : List (Tree α)) : (node a ts).label = a := rfl

@[simp] theorem children_node (a : α) (ts : List (Tree α)) : (node a ts).children = ts := rfl

/-- A tree without children. -/
def leaf (a : α) : Tree α := node a []

def isLeaf (t : Tree α) : Bool := t.children.isEmpty

/-! ### Preorder -/

mutual

/-- The number of nodes. -/
def size : Tree α → Nat
  | node _ ts => sizeAll ts + 1

/-- The number of nodes of all trees. -/
def sizeAll : List (Tree α) → Nat
  | [] => 0
  | t :: ts => size t + sizeAll ts

end

mutual

/-- The labels, each before those below it. -/
def preorder : Tree α → List α
  | node a ts => a :: preorderAll ts

/-- The labels of all trees. -/
def preorderAll : List (Tree α) → List α
  | [] => []
  | t :: ts => preorder t ++ preorderAll ts

end

mutual

/-- The tree at every node, each before those below it. -/
def subtrees : Tree α → List (Tree α)
  | node a ts => node a ts :: subtreesAll ts

/-- The trees at the nodes of all trees. -/
def subtreesAll : List (Tree α) → List (Tree α)
  | [] => []
  | t :: ts => subtrees t ++ subtreesAll ts

end

mutual

/-- The tree with every label changed. -/
def map (f : α → β) : Tree α → Tree β
  | node a ts => node (f a) (mapAll f ts)

/-- The trees with every label changed. -/
def mapAll (f : α → β) : List (Tree α) → List (Tree β)
  | [] => []
  | t :: ts => map f t :: mapAll f ts

end

mutual

/-- Changes the labels in preorder and passes a state along. -/
def mapAccum (f : σ → α → β × σ) : σ → Tree α → Tree β × σ
  | s, node a ts =>
    let (b, s) := f s a
    let (us, s) := mapAccumAll f s ts
    (node b us, s)

/-- Changes the labels of all trees and passes a state along. -/
def mapAccumAll (f : σ → α → β × σ) : σ → List (Tree α) → List (Tree β) × σ
  | s, [] => ([], s)
  | s, t :: ts =>
    let (u, s) := mapAccum f s t
    let (us, s) := mapAccumAll f s ts
    (u :: us, s)

end

mutual

/-- The tree with the subtree at the `i`-th node replaced; the tree itself if it has no such node.
-/
def modifyAt (f : Tree α → Tree α) : Nat → Tree α → Tree α
  | 0, t => f t
  | i + 1, node a ts => node a (modifyAllAt f i ts)

/-- The trees with the subtree at the `i`-th of all their nodes replaced. -/
def modifyAllAt (f : Tree α → Tree α) : Nat → List (Tree α) → List (Tree α)
  | _, [] => []
  | i, t :: ts =>
    if i < t.size then modifyAt f i t :: ts else t :: modifyAllAt f (i - t.size) ts

end

/-! ### Views -/

@[simp] theorem size_node (a : α) (ts : List (Tree α)) : (node a ts).size = sizeAll ts + 1 := by
  simp [size]

@[simp] theorem preorder_node (a : α) (ts : List (Tree α)) :
    (node a ts).preorder = a :: preorderAll ts := by
  simp [preorder]

theorem size_pos (t : Tree α) : 0 < t.size := by
  cases t
  simp

theorem sizeAll_append (ts us : List (Tree α)) : sizeAll (ts ++ us) = sizeAll ts + sizeAll us := by
  induction ts with
  | nil => simp [sizeAll]
  | cons t ts ih => simp only [List.cons_append, sizeAll, ih, Nat.add_assoc]

theorem preorderAll_eq_flatMap (ts : List (Tree α)) :
    preorderAll ts = ts.flatMap preorder := by
  induction ts with
  | nil => simp [preorderAll]
  | cons t ts ih => simp [preorderAll, ih]

theorem mapAll_eq_map (f : α → β) (ts : List (Tree α)) : mapAll f ts = ts.map (map f) := by
  induction ts with
  | nil => simp [mapAll]
  | cons t ts ih => simp [mapAll, ih]

@[simp] theorem map_node (f : α → β) (a : α) (ts : List (Tree α)) :
    (node a ts).map f = node (f a) (ts.map (map f)) := by
  simp [map, mapAll_eq_map]

mutual

theorem length_preorder (t : Tree α) : t.preorder.length = t.size := by
  match t with
  | node a ts => simp [length_preorderAll ts]

theorem length_preorderAll (ts : List (Tree α)) : (preorderAll ts).length = sizeAll ts := by
  match ts with
  | [] => simp [preorderAll, sizeAll]
  | t :: ts => simp [preorderAll, sizeAll, length_preorder t, length_preorderAll ts]

end

mutual

theorem preorder_map (f : α → β) (t : Tree α) : (t.map f).preorder = t.preorder.map f := by
  match t with
  | node a ts => simp [map, preorderAll_mapAll f ts]

theorem preorderAll_mapAll (f : α → β) (ts : List (Tree α)) :
    preorderAll (mapAll f ts) = (preorderAll ts).map f := by
  match ts with
  | [] => simp [mapAll, preorderAll]
  | t :: ts => simp [mapAll, preorderAll, preorder_map f t, preorderAll_mapAll f ts]

end

mutual

theorem map_map (f : β → γ) (g : α → β) (t : Tree α) :
    (t.map g).map f = t.map fun a => f (g a) := by
  match t with
  | node a ts => rw [Tree.map, Tree.map, Tree.map, mapAll_mapAll f g ts]

theorem mapAll_mapAll (f : β → γ) (g : α → β) (ts : List (Tree α)) :
    mapAll f (mapAll g ts) = mapAll (fun a => f (g a)) ts := by
  match ts with
  | [] => rfl
  | t :: ts => rw [mapAll, mapAll, mapAll, map_map f g t, mapAll_mapAll f g ts]

end

mutual

theorem map_congr {f g : α → β} (t : Tree α) (same : ∀ a ∈ t.preorder, f a = g a) :
    t.map f = t.map g := by
  match t with
  | node a ts =>
    rw [preorder, List.forall_mem_cons] at same
    rw [Tree.map, Tree.map, same.1, mapAll_congr ts same.2]

theorem mapAll_congr {f g : α → β} (ts : List (Tree α)) (same : ∀ a ∈ preorderAll ts, f a = g a) :
    mapAll f ts = mapAll g ts := by
  match ts with
  | [] => rfl
  | t :: ts =>
    rw [preorderAll, List.forall_mem_append] at same
    rw [mapAll, mapAll, map_congr t same.1, mapAll_congr ts same.2]

end

end Tree

end SureCode
