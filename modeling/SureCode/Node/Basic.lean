import SureCode.Kind
import SureCode.Scalar
import SureCode.Span
import SureCode.Text.Quoted
import SureCode.Tree.Basic

/-!
# Nodes

A node is a tree of constructs. A construct has its kind, its code and its span from the parser; the
gaps, the stretches of the span that no child covers, from layout; its tokens with their
log-probabilities and its negative log-likelihood from attribution; and the deleted mark and the
name from pruning.
-/

namespace SureCode

/-- One construct of a program, without those inside it. -/
structure Construct (κ : Type) where
  kind : Kind
  code : String
  span : Span
  /-- The parts of the span that no child covers, in source order. -/
  gaps : List Span := []
  tokens : List String := []
  logprobs : List κ := []
  /-- The negative log-likelihood of its own tokens, once they are known. -/
  nll : Option κ := none
  /-- Whether pruning left it out, once it has decided. -/
  deleted : Option Bool := none
  name : Option String := none
deriving Repr, Inhabited

/-- A construct with the constructs inside it. -/
abbrev Node (κ : Type) := Tree (Construct κ)

namespace Construct

variable {κ : Type}

/-- The most that one construct counts against a budget. -/
def maxCost [Scalar κ] : κ := ((10 : Nat) : κ)

/-- `x`, or the nearer of two bounds if it lies outside them. -/
def clamp [Scalar κ] (low high x : κ) : κ :=
  if x < low then low else if high < x then high else x

/-- The cost of a construct, if it has a usable one. -/
def cost? [Scalar κ] (a : Construct κ) : Option κ :=
  match a.nll with
  | some nll => if Scalar.isNaN nll then none else some (clamp Scalar.zero maxCost nll)
  | none => none

/-- What a construct counts against a budget: nothing without a usable cost. -/
def charge [Scalar κ] (a : Construct κ) : κ := a.cost?.getD Scalar.zero

/-- Pruning has left the construct out. -/
def isDeleted (a : Construct κ) : Bool := a.deleted == some true

/-- Kind, span and code on one line. -/
def summary (a : Construct κ) : String :=
  a.kind.label ++ "@" ++ a.span.toString ++ " " ++ Text.quoted a.code
    ++ (if a.isDeleted then " (deleted)" else "")

end Construct

namespace Node

open SureCode.Tree

variable {κ : Type}

/-- The number of nodes that are not deleted. -/
def retained (t : Node κ) : Nat := t.preorder.countP fun a => !a.isDeleted

mutual

/-- The number of maximal deleted subtrees, in a tree whose parent is deleted or not. -/
def holesUnder (parentDeleted : Bool) : Node κ → Nat
  | node a ts =>
    (if a.isDeleted && !parentDeleted then 1 else 0) + holesUnderAll a.isDeleted ts

/-- The number of maximal deleted subtrees below one parent. -/
def holesUnderAll (parentDeleted : Bool) : List (Node κ) → Nat
  | [] => 0
  | t :: ts => holesUnder parentDeleted t + holesUnderAll parentDeleted ts

end

/-- The number of holes: maximal deleted subtrees whose parent is retained. -/
def holes (t : Node κ) : Nat := holesUnder false t

mutual

/-- The dump of a tree at some depth, one node a line. -/
def dumpAt (depth : Nat) : Node κ → List String
  | node a ts =>
    (String.ofList (List.replicate (2 * depth) ' ') ++ a.summary) :: dumpAllAt (depth + 1) ts

/-- The dumps of sibling trees. -/
def dumpAllAt (depth : Nat) : List (Node κ) → List String
  | [] => []
  | t :: ts => dumpAt depth t ++ dumpAllAt depth ts

end

/-- The dump of a tree: one node a line, indented by its depth. -/
def dump (t : Node κ) : List String := dumpAt 0 t

end Node

end SureCode
