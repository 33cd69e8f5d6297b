import SureCode.Node.Basic
import SureCode.Token.Basic

/-!
# Marks

The grammar brackets the tokens of a text: a mark is a token, or a construct over the marks it
consists of. Marks keep every token; `Mark.nodes` turns them into nodes, which keep only what has a
text of its own.

Layout tokens never count towards a span. A construct is left out in favour of its children when its
kind is transparent, and in favour of its only child when both have the same span; a construct
without any text vanishes.
-/

namespace SureCode

/-- A token, or a construct over what it consists of. -/
inductive Mark where
  | token (token : Token)
  | construct (kind : Kind) (parts : List Mark)
deriving Repr, Inhabited

namespace Mark

mutual

/-- The tokens under a mark. -/
def tokens : Mark → List Token
  | token t => [t]
  | construct _ parts => tokensAll parts

/-- The tokens under some marks. -/
def tokensAll : List Mark → List Token
  | [] => []
  | m :: ms => tokens m ++ tokensAll ms

end

/-- The smallest span around two stretches, each of which may have no text. -/
def coverSpan : Option Span → Option Span → Option Span
  | none, s => s
  | s, none => s
  | some s, some t => some (s.cover t)

/-- The nodes that a construct with the given span and children comes to. -/
def settle {κ : Type} (kind : Kind) (span : Option Span) (children : List (Node κ)) :
    List (Node κ) :=
  match span with
  | none => children
  | some span =>
    if kind.isTransparent then children
    else match children with
      | [child] =>
        if child.label.span = span then [child]
        else [.node { kind, code := "", span } [child]]
      | children => [.node { kind, code := "", span } children]

mutual

/-- The span of a mark, if it has text, and the nodes it comes to. -/
def nodes {κ : Type} : Mark → Option Span × List (Node κ)
  | token t => (if t.kind.isLayout then none else some t.span, [])
  | construct kind parts =>
    let (span, children) := nodesAll parts
    (span, settle kind span children)

/-- The span around some marks and the nodes they come to. -/
def nodesAll {κ : Type} : List Mark → Option Span × List (Node κ)
  | [] => (none, [])
  | m :: ms =>
    let (span, ts) := nodes m
    let (span', ts') := nodesAll ms
    (coverSpan span span', ts ++ ts')

end

end Mark

end SureCode
