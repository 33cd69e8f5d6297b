import SureCode.Span
import SureCode.Text.Blank
import SureCode.Text.Quoted

/-!
# Offset maps

A list of tokens spells a source when both are the same text apart from white space. The offset map
of such a spelling says of every byte of the source which token it came from; the bytes of white
space came from none.
-/

namespace SureCode

/-- Why tokens cannot be charged to a source. -/
inductive AttributionError where
  | lengthMismatch (tokens logprobs : Nat)
  | tokenMismatch (token offset : Nat) (expected found : Char)
  | overrun (token : Nat)
  | truncated (offset : Nat)
  | outOfRange (span : Span) (bytes : Nat)
deriving DecidableEq, Repr

/-- The wording of an error. -/
def AttributionError.message : AttributionError → String
  | lengthMismatch tokens logprobs =>
    toString tokens ++ " tokens but " ++ toString logprobs ++ " log-probabilities"
  | tokenMismatch token offset expected found =>
    "token " ++ toString token ++ " disagrees with the source at offset " ++ toString offset
      ++ ": expected " ++ Text.quotedChar expected ++ ", found " ++ Text.quotedChar found
  | overrun token => "token " ++ toString token ++ " runs past the end of the source"
  | truncated offset => "tokens stop at offset " ++ toString offset ++ " before the source does"
  | outOfRange span bytes =>
    "interval " ++ span.toString ++ " lies outside the source (" ++ toString bytes ++ " bytes)"

/-- For each byte of a source the token that it came from. -/
structure OffsetMap where
  /-- The number of tokens. -/
  tokens : Nat
  owners : Array (Option Nat)
deriving Repr

namespace OffsetMap

/-- The characters of some tokens that are not white space, each with the number of its token. -/
def letters (tokens : List String) : List (Nat × Char) :=
  tokens.zipIdx.flatMap fun (token, number) =>
    (Text.withoutBlanks token.toList).map fun c => (number, c)

/-- The owner of every byte of a source that begins at `offset`, where `letters` are to spell it. -/
def spell (offset : Nat) : List Char → List (Nat × Char) →
    Except AttributionError (List (Option Nat))
  | [], [] => .ok []
  | [], (token, _) :: _ => .error (.overrun token)
  | c :: cs, letters =>
    if Text.isBlank c then do
      let owners ← spell (offset + c.utf8Size) cs letters
      return List.replicate c.utf8Size none ++ owners
    else match letters with
      | [] => .error (.truncated offset)
      | (token, found) :: letters =>
        if c = found then do
          let owners ← spell (offset + c.utf8Size) cs letters
          return List.replicate c.utf8Size (some token) ++ owners
        else .error (.tokenMismatch token offset c found)

/-- The map of a source that the tokens spell. -/
def ofTokens (source : List Char) (tokens : List String) : Except AttributionError OffsetMap := do
  let owners ← spell 0 source (letters tokens)
  return ⟨tokens.length, owners.toArray⟩

/-- The number of bytes of the source. -/
def bytes (map : OffsetMap) : Nat := map.owners.size

/-- The token that a byte came from. -/
def tokenAt? (map : OffsetMap) (offset : Nat) : Option Nat := map.owners[offset]?.join

/-- Some tokens in ascending order, each once. -/
def ascending (map : OffsetMap) (touched : List Nat) : List Nat :=
  (List.range map.tokens).filter touched.contains

/-- The tokens of the bytes of a span, which must lie within the source. -/
def tokensIn (map : OffsetMap) (span : Span) : Except AttributionError (List Nat) :=
  if span.stop ≤ map.bytes then
    let touched := (List.range' span.start (span.stop - span.start)).filterMap map.tokenAt?
    .ok (map.ascending touched)
  else .error (.outOfRange span map.bytes)

theorem mem_ascending (map : OffsetMap) (touched : List Nat) (token : Nat) :
    token ∈ map.ascending touched ↔ token < map.tokens ∧ token ∈ touched := by
  simp [ascending]

/-- A spelling accounts for every byte of the source. -/
theorem length_of_spell {offset : Nat} {source : List Char} {letters : List (Nat × Char)}
    {owners : List (Option Nat)} (spelled : spell offset source letters = .ok owners) :
    owners.length = Text.byteLength source := by
  induction source generalizing offset letters owners with
  | nil =>
    cases letters with
    | nil =>
      simp only [spell, Except.ok.injEq] at spelled
      simp [← spelled]
    | cons letter letters => simp [spell] at spelled
  | cons c cs ih =>
    have step {letters' : List (Nat × Char)} {owner : Option Nat}
        (h : (do let owners ← spell (offset + c.utf8Size) cs letters'
                 return List.replicate c.utf8Size owner ++ owners) = Except.ok owners) :
        owners.length = Text.byteLength (c :: cs) := by
      cases rest : spell (offset + c.utf8Size) cs letters' with
      | error e =>
        rw [rest] at h
        cases h
      | ok others =>
        rw [rest] at h
        cases h
        simp [ih rest]
    unfold spell at spelled
    split at spelled
    · exact step spelled
    · split at spelled
      · cases spelled
      · split at spelled
        · exact step spelled
        · cases spelled

end OffsetMap

end SureCode
