import SureCode.Attribution.OffsetMap
import SureCode.Node.Basic

/-!
# Attribution

Every node of a laid-out tree is charged for the tokens that its own gaps touch. Its children are
charged by themselves, so a token that reaches from a gap into a child counts for both.
-/

namespace SureCode

open SureCode.Tree

variable {κ : Type}

/-- What attribution leaves: the tree as far as it was annotated, and why it stopped if it did. -/
structure Attribution (κ : Type) where
  tree : Node κ
  failure : Option AttributionError
deriving Repr

namespace OffsetMap

/-- The tokens that the gaps of a construct touch. -/
def tokensOf (map : OffsetMap) (a : Construct κ) : Except AttributionError (List Nat) := do
  let touched ← a.gaps.mapM map.tokensIn
  return map.ascending touched.flatten

/-- A construct charged for the tokens that its gaps touch. -/
def annotate [Scalar κ] (map : OffsetMap) (tokens : Array String) (logprobs : Array κ)
    (a : Construct κ) : Except AttributionError (Construct κ) := do
  let touched ← map.tokensOf a
  let own := touched.filterMap (logprobs[·]?)
  return { a with
    tokens := touched.filterMap (tokens[·]?)
    logprobs := own
    nll := some (own.foldl (· - ·) Scalar.zero) }

end OffsetMap

/-- Annotates a construct unless something has failed before. -/
def annotateUnlessFailed [Scalar κ] (map : OffsetMap) (tokens : Array String) (logprobs : Array κ)
    (failure : Option AttributionError) (a : Construct κ) :
    Construct κ × Option AttributionError :=
  match failure with
  | some e => (a, some e)
  | none =>
    match map.annotate tokens logprobs a with
    | .ok annotated => (annotated, none)
    | .error e => (a, some e)

/-- Charges the nodes of a tree in preorder, up to the first one that a gap outside the source
stops. -/
def Node.attribute [Scalar κ] (source : List Char) (tokens : List String) (logprobs : List κ)
    (t : Node κ) : Attribution κ :=
  if tokens.length ≠ logprobs.length then
    ⟨t, some (.lengthMismatch tokens.length logprobs.length)⟩
  else match OffsetMap.ofTokens source tokens with
    | .error e => ⟨t, some e⟩
    | .ok map =>
      let (tree, failure) :=
        t.mapAccum (annotateUnlessFailed map tokens.toArray logprobs.toArray) none
      ⟨tree, failure⟩

/-- The annotated tree, if attribution came to its end. -/
def Attribution.toExcept (r : Attribution κ) : Except AttributionError (Node κ) :=
  match r.failure with
  | none => .ok r.tree
  | some e => .error e

end SureCode
