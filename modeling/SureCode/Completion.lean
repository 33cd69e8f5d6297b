import SureCode.Json.Basic
import SureCode.Text.Blank

/-!
# Completions

A generated text with the tokens that spell it and their log-probabilities. A generator runs on past
the line that was asked for, so there is a view of a completion's first line.
-/

namespace SureCode

variable {κ : Type}

/-- A generated text. -/
structure Completion (κ : Type) where
  text : String
  tokens : List String := []
  logprobs : List κ := []
deriving Repr, DecidableEq

namespace Completion

/-- The part of a text before its first line break. -/
def line (text : List Char) : List Char := text.takeWhile (· != '\n')

/-- Tokens with their log-probabilities up to the first line break. The token with the line break
keeps what it has before it, unless that is blank. -/
def lineTokens : List (String × κ) → List (String × κ)
  | [] => []
  | (token, logprob) :: rest =>
    if token.toList.contains '\n' then
      let head := line token.toList
      if (Text.trimmed head).isEmpty then [] else [(String.ofList head, logprob)]
    else (token, logprob) :: lineTokens rest

/-- The first line, trimmed, with the tokens that spell it. Tokens without log-probability and
log-probabilities without token are dropped. -/
def firstLine (c : Completion κ) : Completion κ :=
  let pairs := lineTokens (c.tokens.zip c.logprobs)
  { text := String.ofList (Text.trimmed (line c.text.toList))
    tokens := pairs.map (·.1)
    logprobs := pairs.map (·.2) }

/-- The names of the fields. -/
def fieldNames : List String := ["text", "tokens", "token_logprobs"]

/-- The completion in a document. -/
def ofJson? [Scalar κ] (json : Json κ) : Option (Completion κ) := do
  let fields ← json.toFields? fieldNames
  let text ← fields.required "text" Json.toString?
  let tokens ← fields.withDefault "tokens" [] (Json.toList? Json.toString?)
  let logprobs ← fields.withDefault "token_logprobs" [] (Json.toList? Json.toScalar?)
  return ⟨text, tokens, logprobs⟩

/-- The document of a completion. -/
def toJson [Scalar κ] (c : Completion κ) : Json κ :=
  .object
    [("text", .string c.text), ("tokens", .ofList .string c.tokens),
     ("token_logprobs", .ofList .ofScalar c.logprobs)]

/-- The first line has a log-probability for each of its tokens. -/
theorem length_logprobs_firstLine (c : Completion κ) :
    c.firstLine.logprobs.length = c.firstLine.tokens.length := by
  simp [firstLine]

end Completion

end SureCode
