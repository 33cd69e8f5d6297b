import SureCode.Pruning.Basic

/-!
# Reconstruction

A keep decision says of every node, by its number in preorder, whether to keep it. A node is
retained when the decision keeps it and everything above it. Reconstruction gives two trees: the
retained nodes alone, and the whole tree with every node marked. Each node of either tree is named
by its code and its number, so the nodes of the two trees can be matched.
-/

namespace SureCode

open SureCode.Tree

variable {κ : Type}

/-- The two trees of a keep decision, with their accounts. -/
structure Reconstruction (κ : Type) where
  /-- The retained nodes only; nothing if the root is not among them. -/
  pruned : Option (Node κ)
  /-- The whole tree with every node marked. -/
  annotated : Node κ
  /-- The summed charge of the retained nodes. -/
  errorOfTree : κ
  /-- The number of retained nodes. -/
  kept : Nat
  /-- The number of nodes. -/
  total : Nat
deriving Repr

/-- A construct with its mark and its name. -/
def Construct.marked (a : Construct κ) (id : Nat) (deleted : Bool) : Construct κ :=
  { a with deleted := some deleted, name := some (a.code ++ "::" ++ toString id) }

namespace Node

mutual

/-- The retained nodes of a tree whose root has the number `id` and a retained parent. -/
def retainedAt (keep : Nat → Bool) (id : Nat) : Node κ → Option (Node κ)
  | node a ts =>
    if keep id then some (node (a.marked id false) (retainedAllAt keep (id + 1) ts)) else none

/-- The retained nodes of sibling trees under a retained parent, of which the first has the number
`id`. -/
def retainedAllAt (keep : Nat → Bool) (id : Nat) : List (Node κ) → List (Node κ)
  | [] => []
  | t :: ts =>
    (retainedAt keep id t).toList ++ retainedAllAt keep (id + t.size) ts

end

mutual

/-- The marked nodes of a tree whose root has the number `id`. -/
def markedAt (keep : Nat → Bool) (parentKept : Bool) (id : Nat) : Node κ → Node κ
  | node a ts =>
    let kept := parentKept && keep id
    node (a.marked id !kept) (markedAllAt keep kept (id + 1) ts)

/-- The marked nodes of sibling trees, of which the first has the number `id`. -/
def markedAllAt (keep : Nat → Bool) (parentKept : Bool) (id : Nat) :
    List (Node κ) → List (Node κ)
  | [] => []
  | t :: ts => markedAt keep parentKept id t :: markedAllAt keep parentKept (id + t.size) ts

end

mutual

/-- The charges of the retained nodes in preorder, in a tree whose root has the number `id` and a
retained parent. -/
def chargesAt [Scalar κ] (keep : Nat → Bool) (id : Nat) : Node κ → List κ
  | node a ts => if keep id then a.charge :: chargesAllAt keep (id + 1) ts else []

/-- The charges of the retained nodes of sibling trees under a retained parent. -/
def chargesAllAt [Scalar κ] (keep : Nat → Bool) (id : Nat) : List (Node κ) → List κ
  | [] => []
  | t :: ts => chargesAt keep id t ++ chargesAllAt keep (id + t.size) ts

end

/-- The two trees of a keep decision. -/
def reconstruct [Scalar κ] (keep : Nat → Bool) (t : Node κ) : Reconstruction κ :=
  let charges := chargesAt keep 0 t
  { pruned := retainedAt keep 0 t
    annotated := markedAt keep true 0 t
    errorOfTree := charges.foldl (· + ·) Scalar.zero
    kept := charges.length
    total := t.size }

end Node

namespace Reconstruction

/-- The retained share of the nodes. -/
def fracIncluded [Scalar κ] (r : Reconstruction κ) : κ :=
  if r.total = 0 then Scalar.zero else (r.kept : κ) / (r.total : κ)

/-- The answer for a threshold that a keep decision gives. -/
def toPruning [Scalar κ] (r : Reconstruction κ) (maxCost : κ) (check : Check) : Pruning κ where
  maxCost
  check
  pruned := r.pruned
  annotated := some r.annotated
  errorOfTree := r.errorOfTree
  fracIncluded := r.fracIncluded

end Reconstruction

end SureCode
