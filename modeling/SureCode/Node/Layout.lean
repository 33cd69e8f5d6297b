import SureCode.Node.Basic

/-!
# Layout

How a tree lies on its source. `Node.layout` fills in code and gaps from the spans; `Node.validate`
checks the two invariants of a laid-out tree: the code of every node is its slice of the source, and
the gaps of a node together with the spans of its children tile its span.
-/

namespace SureCode

/-! ### Gaps -/

/-- The parts of the source from `cursor` to `stop` that the given spans leave uncovered. -/
def gapsFrom (cursor stop : Nat) : List Span → List Span
  | [] => (if lt : cursor < stop then [⟨cursor, stop, Nat.le_of_lt lt⟩] else [])
  | s :: rest =>
    (if lt : cursor < s.start then [⟨cursor, s.start, Nat.le_of_lt lt⟩] else [])
      ++ gapsFrom (max cursor s.stop) stop rest

/-- The parts of a span that its children leave uncovered. A span without children is its own gap,
even an empty one. -/
def gaps (span : Span) (children : List Span) : List Span :=
  match children with
  | [] => [span]
  | _ => gapsFrom span.start span.stop children

/-! ### Faults -/

/-- What is wrong with how a node lies on its source. -/
inductive SpanFault where
  | outOfSource (span : Span) (bytes : Nat)
  | codeMismatch (span : Span)
  | misplaced (parent child : Span)
  | partition (span : Span)
deriving DecidableEq, Repr

/-- The wording of a fault. -/
def SpanFault.message : SpanFault → String
  | outOfSource span bytes =>
    "node " ++ span.toString ++ " lies outside the source (" ++ toString bytes ++ " bytes)"
  | codeMismatch span =>
    "code of node " ++ span.toString ++ " does not match its source slice"
  | misplaced parent child =>
    "child " ++ child.toString ++ " of " ++ parent.toString
      ++ " is outside its parent or overlaps a sibling"
  | partition span =>
    "intervals of node " ++ span.toString ++ " do not partition its uncovered span"

/-- The order of spans by their starts and then by their ends. -/
def Span.precedes (s t : Span) : Bool :=
  s.start < t.start || s.start == t.start && s.stop ≤ t.stop

/-- Whether the spans follow one another without gap or overlap, from `cursor` to `stop`. -/
def tiles (cursor stop : Nat) : List Span → Bool
  | [] => cursor == stop
  | s :: rest => s.start == cursor && tiles s.stop stop rest

/-- The first child that leaves its parent or begins before the child on its left ends. -/
def firstMisplaced (parent : Span) (cursor : Nat) : List Span → Option Span
  | [] => none
  | s :: rest =>
    if s.start < cursor || !parent.encloses s then some s else firstMisplaced parent s.stop rest

namespace Node

open SureCode.Tree

variable {κ : Type}

/-- The spans of the children. -/
def childSpans (t : Node κ) : List Span := t.children.map (·.label.span)

mutual

/-- Fills in the code and the gaps of every node from its span. A span that is no slice of the
source has the empty code. -/
def layout (source : List Char) : Node κ → Node κ
  | node a ts =>
    node { a with
      code := String.ofList ((a.span.slice? source).getD [])
      gaps := SureCode.gaps a.span (ts.map (·.label.span)) } (layoutAll source ts)

/-- Fills in the code and the gaps of sibling trees. -/
def layoutAll (source : List Char) : List (Node κ) → List (Node κ)
  | [] => []
  | t :: ts => layout source t :: layoutAll source ts

end

/-- The fault of the root of a tree itself, if it has one. -/
def ownFault? (source : List Char) (t : Node κ) : Option SpanFault :=
  let a := t.label
  match a.span.slice? source with
  | none => some (.outOfSource a.span (Text.byteLength source))
  | some slice =>
    if String.ofList slice ≠ a.code then some (.codeMismatch a.span)
    else match firstMisplaced a.span a.span.start t.childSpans with
      | some child => some (.misplaced a.span child)
      | none =>
        let pieces := (a.gaps ++ t.childSpans).mergeSort Span.precedes
        if tiles a.span.start a.span.stop pieces then none else some (.partition a.span)

/-- Accepts a tree that lies on its source as laid out, and else names the first fault in preorder.
-/
def validate (source : List Char) (t : Node κ) : Except SpanFault Unit :=
  match t.subtrees.findSome? (ownFault? source) with
  | some fault => .error fault
  | none => .ok ()

end Node

end SureCode
