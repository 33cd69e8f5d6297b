import SureCode.Kind
import SureCode.Span

/-!
# Tokens

A token is a kind and the span it has in the source. Layout tokens may be empty.
-/

namespace SureCode

/-- A piece of source text with its kind. -/
structure Token where
  kind : Kind
  span : Span
deriving DecidableEq, Repr, Inhabited

namespace Token

/-- A token without text. -/
def empty (kind : Kind) (offset : Nat) : Token := ⟨kind, .empty offset⟩

/-- The text of a token in its source. -/
def text? (token : Token) (source : List Char) : Option (List Char) := token.span.slice? source

end Token

end SureCode
