import SureCode.Node.Basic
import SureCode.Text.Blank

/-!
# Containment

Whether what is left of one tree can be found in another. What a node contributes to the text by
itself is its signature. The signatures of a tree that are not deleted form its shape, in which
siblings of the same signature are one: the later of them stands in the place of the earlier. A
shape is found in another when the roots have the same signature and each child is found in the
child with its signature.
-/

namespace SureCode

open SureCode.Tree

variable {κ : Type}

/-- What a construct contributes to a source by itself: its gaps, without white space. Gaps that are
no slice of the source contribute nothing. -/
def Construct.signature (source : List Char) (a : Construct κ) : String :=
  String.ofList (Text.withoutBlanks (a.gaps.flatMap fun gap => (gap.slice? source).getD []))

/-- The signatures of a tree, those of siblings distinct. -/
abbrev Shape := Tree String

namespace Shape

/-- Puts a shape among its siblings, into the place of the one with its signature if there is one.
-/
def place (t : Shape) : List Shape → List Shape
  | [] => [t]
  | u :: us => if u.label = t.label then t :: us else u :: place t us

/-- The child with a signature. -/
def child? (ts : List Shape) (signature : String) : Option Shape :=
  ts.find? fun t => t.label == signature

end Shape

/-- Why one tree is not found in another. -/
inductive Mismatch where
  | nodesDiffer (pruned target : String)
  | noChild (signature : String)
deriving DecidableEq, Repr

/-- The wording of a mismatch. -/
def Mismatch.message : Mismatch → String
  | nodesDiffer pruned target =>
    "nodes differ: pruned " ++ Text.quoted pruned ++ ", target " ++ Text.quoted target
  | noChild signature => "target has no child " ++ Text.quoted signature

namespace Node

mutual

/-- The shape of a tree on its source. The root counts even if it is deleted. -/
def shape (source : List Char) : Node κ → Shape
  | node a ts => node (a.signature source) (shapes source [] ts)

/-- The shapes of sibling trees that are not deleted, put among others. -/
def shapes (source : List Char) (placed : List Shape) : List (Node κ) → List Shape
  | [] => placed
  | t :: ts =>
    shapes source (if t.label.isDeleted then placed else (shape source t).place placed) ts

end

/-- The signature of every node in preorder. -/
def signatures (source : List Char) (t : Node κ) : List String :=
  t.preorder.map (·.signature source)

end Node

namespace Shape

mutual

/-- The first mismatch of a shape with a target, a node before its children. -/
def mismatch? (target : Shape) : Shape → Option Mismatch
  | node signature ts =>
    if target.label ≠ signature then some (.nodesDiffer signature target.label)
    else mismatchAll? target.children ts

/-- The first mismatch of siblings with the children of a target. -/
def mismatchAll? (targets : List Shape) : List Shape → Option Mismatch
  | [] => none
  | t :: ts =>
    match child? targets t.label with
    | none => some (.noChild t.label)
    | some target => (mismatch? target t).or (mismatchAll? targets ts)

end

end Shape

/-- The first mismatch of a pruned tree with a target. A tree that is absent has none. -/
def mismatch? (targetSource : List Char) (target : Node κ) (prunedSource : List Char)
    (pruned : Option (Node κ)) : Option Mismatch :=
  pruned.bind fun pruned =>
    Shape.mismatch? (target.shape targetSource) (pruned.shape prunedSource)

/-- Whether the pruned tree is found in the target. -/
def isContained (targetSource : List Char) (target : Node κ) (prunedSource : List Char)
    (pruned : Option (Node κ)) : Bool :=
  (mismatch? targetSource target prunedSource pruned).isNone

@[simp] theorem isContained_none (targetSource prunedSource : List Char) (target : Node κ) :
    isContained targetSource target prunedSource none = true := rfl

end SureCode
