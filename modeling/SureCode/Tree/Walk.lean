import SureCode.Tree.Basic
import SureCode.Tree.SideTable

/-!
# Walks

A walk passes the nodes of a tree in preorder without a recursion on the tree. It keeps a stack of
the subtrees that are still to come, takes the first of them and puts the children of its root on
the stack in its place. A pass that changes the nodes is a recursion on the tree (`Tree.forEach`).

On its way it can fill tables: every node it comes to has the next number, and the tables hold the
node, the number of its parent and the numbers of its children. Where the subtrees end is found from
the children afterwards, in one pass from the last number to the first, since a subtree ends where
that of its last child does. Either pass fails where a table has no value to read or to replace. How
large a tree can get is not a matter of this module.
-/

namespace SureCode

namespace Tree

variable {α β σ : Type}

/-- The subtrees that a walk takes from its stack, in this order. -/
def walk : List (Tree α) → List (Tree α)
  | [] => []
  | node a ts :: stack => node a ts :: walk (ts ++ stack)
termination_by stack => sizeAll stack
decreasing_by
  rw [sizeAll_append, sizeAll, size_node]
  omega

mutual

/-- Changes the label of every node, which is seen with all that is below it, and then those of the
nodes below, and passes a state along. -/
def forEach (f : σ → Tree α → β × σ) : σ → Tree α → Tree β × σ
  | s, node a ts =>
    let (b, s) := f s (node a ts)
    let (us, s) := forEachAll f s ts
    (node b us, s)

/-- Changes the labels of all trees and passes a state along. -/
def forEachAll (f : σ → Tree α → β × σ) : σ → List (Tree α) → List (Tree β) × σ
  | s, [] => ([], s)
  | s, t :: ts =>
    let (u, s) := forEach f s t
    let (us, s) := forEachAll f s ts
    (u :: us, s)

end

end Tree

/-- The tables that a walk fills. -/
structure Walk (α : Type) where
  nodes : SideTable (Tree α)
  parents : SideTable (Option Nat)
  children : SideTable (List Nat)
deriving Repr

namespace Walk

open SureCode.Tree

variable {α : Type}

/-- The tables before the first node. -/
def start : Walk α := ⟨.ofList [], .ofList [], .ofList []⟩

/-- Sibling trees, each with the number of their parent; the tree of a root has none. -/
def under (parent : Option Nat) (ts : List (Tree α)) : List (Tree α × Option Nat) :=
  ts.map fun t => (t, parent)

theorem map_fst_under (parent : Option Nat) (ts : List (Tree α)) :
    (under parent ts).map (·.1) = ts := by
  rw [under, List.map_map]
  exact List.map_id ts

/-- Enters a node below a parent, unless it is the root, and gives it the next number. -/
def enter? (w : Walk α) (t : Tree α) (parent : Option Nat) : Option (Nat × Walk α) := do
  let (id, nodes) := w.nodes.push t
  let (_, parents) := w.parents.push parent
  let (_, children) := w.children.push []
  let children ← match parent with
    | none => some children
    | some above => children.modify? above (· ++ [id])
  return (id, ⟨nodes, parents, children⟩)

/-- Enters all nodes of the trees on a stack. -/
def run? : Walk α → List (Tree α × Option Nat) → Option (Walk α)
  | w, [] => some w
  | w, (node a ts, parent) :: stack =>
    (w.enter? (node a ts) parent).bind fun (id, w) =>
      run? w (under (some id) ts ++ stack)
termination_by _ stack => sizeAll (stack.map (·.1))
decreasing_by
  rw [List.map_append, map_fst_under, sizeAll_append, List.map_cons, sizeAll, size_node]
  omega

/-- The tables of a tree. -/
def ofTree? (t : Tree α) : Option (Walk α) := start.run? (under none [t])

end Walk

namespace SideTable

/-- One past the last number of a node's subtree, given its children and the same of all nodes
behind it. -/
def stopBehind? (stops : SideTable Nat) (id : Nat) (children : List Nat) : Option Nat :=
  match children.getLast? with
  | some last => stops.get? last
  | none => some (id + 1)

/-- Notes where the subtree of a node ends, when this is known of all nodes behind it. -/
def noteStop? (stops : SideTable Nat) : Nat × List Nat → Option (SideTable Nat)
  | (id, children) => (stops.stopBehind? id children).bind (stops.set? id)

/-- One past the last number of each subtree, given the children of each node. -/
def stops? (children : SideTable (List Nat)) : Option (SideTable Nat) :=
  children.entries.reverse.foldlM noteStop? (.filled children.size 0)

end SideTable

end SureCode
