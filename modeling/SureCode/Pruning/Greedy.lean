import SureCode.Pruning.Reconstruction
import SureCode.Tree.Index
import SureCode.Tree.SideTable

/-!
# The greedy engine

Prunes one tree for one threshold by removing one node after another until what remains fits. A node
can be removed once all its children are gone; the root cannot. The dearest removable node goes
first. When the hole budget is spent, only nodes whose children were all removed are considered,
since removing such a node joins the holes below it into one.

Candidates wait in two queues, all of them in one and those with removed children in the other as
well. A candidate that was removed by way of the other queue stays behind and is passed over.
-/

namespace SureCode

open SureCode.Tree

variable {κ : Type}

/-! ### Candidates -/

/-- A node that may be removed. -/
structure Candidate (κ : Type) where
  cost : κ
  /-- What the node and everything below it cost at the start. -/
  subtreeCost : κ
  id : Nat
deriving Repr

namespace Candidate

/-- Whether the first candidate is removed before the second: the dearer one, else the one with the
dearer subtree, else the one that comes first in preorder. -/
def precedes [Scalar κ] (a b : Candidate κ) : Bool :=
  Scalar.totalLt b.cost a.cost
    || Scalar.same a.cost b.cost
      && (Scalar.totalLt b.subtreeCost a.subtreeCost
        || Scalar.same a.subtreeCost b.subtreeCost && a.id ≤ b.id)

/-- A queue with one more candidate. -/
def enqueue [Scalar κ] (a : Candidate κ) : List (Candidate κ) → List (Candidate κ)
  | [] => [a]
  | b :: rest => if a.precedes b then a :: b :: rest else b :: enqueue a rest

end Candidate

mutual

/-- The charge of a tree: of its root and of the trees below it, added up from the bottom. -/
def Node.totalCharge [Scalar κ] : Node κ → κ
  | node a ts => a.charge + Scalar.sum (Node.totalCharges ts)

/-- The charges of sibling trees. -/
def Node.totalCharges [Scalar κ] : List (Node κ) → List κ
  | [] => []
  | t :: ts => Node.totalCharge t :: Node.totalCharges ts

end

/-! ### Removal -/

/-- What greedy pruning knows of a tree from the start. -/
structure Removal (κ : Type) where
  index : TreeIndex (Construct κ)
  costs : SideTable κ
  subtreeCosts : SideTable κ

/-- How far greedy pruning has come. -/
structure Removal.State (κ : Type) where
  deleted : SideTable Bool
  /-- How many children of each node are left. -/
  liveChildren : SideTable Nat
  /-- The candidates, the next to be removed first. -/
  leaves : List (Candidate κ)
  /-- The candidates whose children were all removed. -/
  extending : List (Candidate κ)
  /-- The number of maximal deleted subtrees. -/
  holes : Nat
  /-- What the remaining nodes cost. -/
  retained : κ

namespace Removal

open Removal (State)

def ofNode [Scalar κ] (t : Node κ) : Removal κ where
  index := .ofTree t
  costs := ⟨(t.preorder.map (·.charge)).toArray⟩
  subtreeCosts := ⟨(t.subtrees.map Node.totalCharge).toArray⟩

/-- The candidate for removing a node. -/
def candidate [Scalar κ] (r : Removal κ) (id : Nat) : Candidate κ where
  cost := (r.costs.get? id).getD Scalar.zero
  subtreeCost := (r.subtreeCosts.get? id).getD Scalar.zero
  id

/-- Nothing is removed yet. -/
def start [Scalar κ] (r : Removal κ) : State κ where
  deleted := .filled r.index.size false
  liveChildren := .ofFn r.index.size fun id => (r.index.children id).length
  leaves :=
    let childless := r.index.ids.filter fun id => id != 0 && (r.index.children id).isEmpty
    (childless.map r.candidate).mergeSort Candidate.precedes
  extending := []
  holes := 0
  retained := (r.subtreeCosts.get? 0).getD Scalar.zero

/-- Whether a node has been removed. -/
def State.isDeleted (s : State κ) (id : Nat) : Bool := (s.deleted.get? id).getD false

/-- The next candidate, out of the queue of those that extend a hole or out of all, with the state
in which it and all that were passed over have left the queue. -/
def State.next (s : State κ) (extendOnly : Bool) : Option (Candidate κ × State κ) :=
  let queue := if extendOnly then s.extending else s.leaves
  match queue.dropWhile fun a => s.isDeleted a.id with
  | [] => none
  | a :: rest =>
    some (a, if extendOnly then { s with extending := rest } else { s with leaves := rest })

/-- The cost of what is not deleted. -/
def retainedCost [Scalar κ] (r : Removal κ) (deleted : SideTable Bool) : κ :=
  let live := r.index.ids.filter fun id => deleted.get? id == some false
  Scalar.sum (live.map fun id => (r.costs.get? id).getD Scalar.zero)

/-- Removes a candidate with everything below it. Its removed children stop being holes of their
own, and its parent becomes a candidate when it has no child left. -/
def remove [Scalar κ] (r : Removal κ) (s : State κ) (a : Candidate κ) :
    Except (PruneError κ) (State κ) :=
  match r.index.parent? a.id with
  | none => .error (.missingParent a.id)
  | some parent =>
    let deleted := (r.index.subtree a.id).foldl (fun d id => (d.set? id true).getD d) s.deleted
    let left := (s.liveChildren.get? parent).getD 0 - 1
    let freed := left == 0 && parent != 0
    let queued (queue : List (Candidate κ)) : List (Candidate κ) :=
      if freed then (r.candidate parent).enqueue queue else queue
    .ok {
      deleted
      liveChildren := (s.liveChildren.set? parent left).getD s.liveChildren
      leaves := queued s.leaves
      extending := queued s.extending
      holes := s.holes + 1 - (r.index.children a.id).length
      retained := r.retainedCost deleted }

/-- Removes candidates until the cost fits or none is left. Each removal leaves one node less to
remove. -/
def descend [Scalar κ] (r : Removal κ) (maxHoles : Option Nat) (maxCost : κ) :
    Nat → State κ → Except (PruneError κ) (State κ)
  | 0, s => .ok s
  | steps + 1, s =>
    if fits maxCost s.retained then .ok s
    else
      let extendOnly := match maxHoles with
        | some most => decide (most ≤ s.holes)
        | none => false
      match s.next extendOnly with
      | none => .ok s
      | some (a, s) => do
        let s ← r.remove s a
        descend r maxHoles maxCost steps s

end Removal

/-- Prunes a tree for one threshold. Running out of removable nodes is no failure: what is left then
is the answer, and it does not fit. -/
def Node.pruneGreedy [Scalar κ] (maxHoles : Option Nat) (t : Node κ) (maxCost : κ) :
    Except (PruneError κ) (Pruning κ) :=
  if Scalar.isNaN maxCost then .error (.invalidThreshold maxCost)
  else do
    let removal := Removal.ofNode t
    let s ← removal.descend maxHoles maxCost t.size removal.start
    let check : Check := if fits maxCost s.retained then .sat else .unsat
    return (t.reconstruct fun id => !s.isDeleted id).toPruning maxCost check

/-- Prunes a tree for every threshold by itself. A failure stays with its threshold. -/
def Node.pruneGreedyAll [Scalar κ] (maxHoles : Option Nat) (t : Node κ) (thresholds : List κ) :
    List (Except (PruneError κ) (Pruning κ)) :=
  thresholds.map fun threshold => t.pruneGreedy maxHoles threshold

end SureCode
