import Mathlib
import SureCode.Proofs.Attribution.Basic
import SureCode.Proofs.Attribution.OffsetMap
import SureCode.Proofs.Conservation
import SureCode.Proofs.Exact
import SureCode.Proofs.Node.Validity

/-!
# What attribution makes of a tree

A gap outside the source stops attribution in the middle of a tree. In a tree that passes the check
of its layout all gaps lie inside the source, so attribution fails before it changes anything or
charges every node for the tokens of the bytes in its gaps (`attribute_cases`). Trees that are
parsed pass the check, so for them attribution fails exactly when the lists of tokens and
log-probabilities differ in length or the tokens do not spell the text (`attribute_parse`).
-/

namespace SureCode

open SureCode.Tree

/-! ### Gaps inside the source -/

namespace Node

variable {κ : Type} {source : List Char} {t u : Node κ}

/-- A node without fault lies between characters of its source. -/
theorem boundaries_of_ownFault? (valid : ownFault? source u = none) :
    Text.Boundary source u.label.span.start ∧ Text.Boundary source u.label.span.stop :=
  Text.exists_slice_iff.1 ⟨_, (ownFault?_eq_none_iff.1 valid).1⟩

/-- The gaps of an accepted tree lie inside its source. -/
theorem stop_gap_le (valid : t.validate source = .ok ()) {a : Construct κ} (mem : a ∈ t.preorder)
    {gap : Span} (gap_mem : gap ∈ a.gaps) : gap.stop ≤ Text.byteLength source := by
  obtain ⟨u, sub, rfl⟩ := mem_preorder_iff.1 mem
  have own := validate_eq_ok_iff.1 valid u sub
  obtain ⟨-, -, tiled⟩ := ownFault?_eq_none_iff.1 own
  have piece : gap ∈ (u.label.gaps ++ childSpans u).mergeSort Span.precedes :=
    List.mem_mergeSort.2 (List.mem_append_left _ gap_mem)
  exact (stop_le_of_tiles tiled piece).trans (boundaries_of_ownFault? own).2.le

end Node

/-! ### Charged constructs -/

/-- A construct that lists the tokens with some numbers and bears their cost. -/
def Construct.charged {κ : Type} [Scalar κ] (tokens : List String) (logprobs : List κ)
    (a : Construct κ) (numbers : List ℕ) : Construct κ :=
  { a with
    tokens := numbers.filterMap (tokens[·]?)
    logprobs := numbers.filterMap (logprobs[·]?)
    nll := some ((numbers.filterMap (logprobs[·]?)).foldl (· - ·) Scalar.zero) }

namespace OffsetMap

variable {κ : Type} {map : OffsetMap} {gaps : List Span} {token : ℕ}

/-- The tokens of the bytes in some spans, in ascending order. -/
def touched (map : OffsetMap) (gaps : List Span) : List ℕ :=
  map.ascending <| gaps.flatMap fun gap =>
    (List.range' gap.start (gap.stop - gap.start)).filterMap map.tokenAt?

theorem mem_touched : token ∈ map.touched gaps ↔
    token < map.tokens ∧ ∃ gap ∈ gaps, ∃ byte ∈ gap, map.tokenAt? byte = some token := by
  have mem_gap (gap : Span) (byte : ℕ) :
      byte ∈ List.range' gap.start (gap.stop - gap.start) ↔ byte ∈ gap := by
    have := gap.ordered
    rw [List.mem_range'_1, Span.mem_iff]
    omega
  simp only [touched, mem_ascending, List.mem_flatMap, List.mem_filterMap, mem_gap]

theorem pairwise_touched (map : OffsetMap) (gaps : List Span) :
    (map.touched gaps).Pairwise (· < ·) :=
  List.pairwise_lt_range.filter _

/-- Where all gaps of a construct lie inside the source, it has the tokens of the bytes in them. -/
theorem tokensOf_eq {a : Construct κ} (inside : ∀ gap ∈ a.gaps, gap.stop ≤ map.bytes) :
    map.tokensOf a = .ok (map.touched a.gaps) := by
  have step : ∀ gap ∈ a.gaps, map.tokensIn gap = .ok (map.touched [gap]) := fun gap mem => by
    rw [tokensIn, if_pos (inside gap mem), touched, List.flatMap_singleton]
  rw [tokensOf, mapM_eq_ok_map step]
  refine congrArg Except.ok (List.filter_congr fun number below => ?_)
  rw [List.mem_range] at below
  rw [Bool.eq_iff_iff, List.contains_iff_mem, List.contains_iff_mem, ← List.flatMap_def,
    List.mem_flatMap]
  simp only [touched, mem_ascending, List.flatMap_singleton, List.mem_flatMap, below, true_and]

theorem annotate_eq [Scalar κ] {a : Construct κ} (inside : ∀ gap ∈ a.gaps, gap.stop ≤ map.bytes)
    (tokens : List String) (logprobs : List κ) :
    map.annotate tokens.toArray logprobs.toArray a
      = .ok (a.charged tokens logprobs (map.touched a.gaps)) := by
  rw [annotate, tokensOf_eq inside]
  simp only [bind, Except.bind, pure, Except.pure, List.getElem?_toArray, Construct.charged]

end OffsetMap

/-! ### All or nothing -/

namespace Node

open OffsetMap Text

variable {κ : Type} [Scalar κ] {source : List Char} {t : Node κ}

/-- Tokens that spell the source of an accepted tree charge all its nodes. -/
theorem attribute_of_ofTokens (valid : t.validate source = .ok ()) {tokens : List String}
    {logprobs : List κ} (eq : tokens.length = logprobs.length) {map : OffsetMap}
    (made : ofTokens source tokens = .ok map) :
    t.attribute source tokens logprobs
      = ⟨t.map fun a => a.charged tokens logprobs (map.touched a.gaps), none⟩ := by
  have step : ∀ a ∈ t.preorder,
      annotateUnlessFailed map tokens.toArray logprobs.toArray none a
        = (a.charged tokens logprobs (map.touched a.gaps), none) := fun a mem => by
    have inside : ∀ gap ∈ a.gaps, gap.stop ≤ map.bytes := fun gap gap_mem =>
      (maps_of_ofTokens made).2.1 ▸ stop_gap_le valid mem gap_mem
    rw [annotateUnlessFailed, annotate_eq inside]
  rw [Node.attribute, if_neg (not_not.2 eq), made]
  dsimp only
  rw [mapAccum_eq_map t step]

/-- What attribution may make of an accepted tree: the lists differ in length, the tokens do not
spell the source, or every construct is charged. Only the last changes the tree. -/
theorem attribute_cases (valid : t.validate source = .ok ()) (tokens : List String)
    (logprobs : List κ) :
    (tokens.length ≠ logprobs.length ∧ t.attribute source tokens logprobs
        = ⟨t, some (.lengthMismatch tokens.length logprobs.length)⟩) ∨
      tokens.length = logprobs.length ∧
        ((∃ e, ofTokens source tokens = .error e ∧
            t.attribute source tokens logprobs = ⟨t, some e⟩) ∨
          ∃ map, ofTokens source tokens = .ok map ∧ t.attribute source tokens logprobs
            = ⟨t.map fun a => a.charged tokens logprobs (map.touched a.gaps), none⟩) := by
  by_cases ne : tokens.length ≠ logprobs.length
  · exact .inl ⟨ne, by rw [Node.attribute, if_pos ne]⟩
  refine .inr ⟨not_not.1 ne, ?_⟩
  cases made : ofTokens source tokens with
  | error e => exact .inl ⟨e, rfl, by rw [Node.attribute, if_neg ne, made]⟩
  | ok map => exact .inr ⟨map, rfl, attribute_of_ofTokens valid (not_not.1 ne) made⟩

/-- Attribution of a parsed tree is all or nothing, whether or not the text fits the grammar. It
fails exactly when the lists differ in length or the tokens do not spell the text, it then leaves the
tree as it was, and no gap ever lies outside the text. -/
theorem attribute_parse {text : String} (parsed : (parse text).tree = some t) (tokens : List String)
    (logprobs : List κ) :
    ((∃ e, (t.attribute text.toList tokens logprobs).failure = some e) ↔
        tokens.length ≠ logprobs.length ∨
          withoutBlanks text.toList ≠ withoutBlanks (joined tokens)) ∧
      (∀ e, (t.attribute text.toList tokens logprobs).failure = some e →
        (t.attribute text.toList tokens logprobs).tree = t) ∧
      ∀ span bytes,
        (t.attribute text.toList tokens logprobs).failure ≠ some (.outOfRange span bytes) := by
  have spells : (∃ map, ofTokens text.toList tokens = .ok map) ↔
      withoutBlanks text.toList = withoutBlanks (joined tokens) := exists_ofTokens_iff
  obtain ⟨ne, result⟩ | ⟨eq, ⟨e, failed, result⟩ | ⟨map, made, result⟩⟩ :=
    attribute_cases (validate_of_tree_parse parsed) tokens logprobs
  all_goals rw [result]
  · exact ⟨iff_of_true ⟨_, rfl⟩ (.inl ne), fun _ _ => rfl, nofun⟩
  · rw [failed] at spells
    have differ : withoutBlanks text.toList ≠ withoutBlanks (joined tokens) := fun same => by
      obtain ⟨_, ⟨⟩⟩ := spells.2 same
    refine ⟨iff_of_true ⟨e, rfl⟩ (.inr differ), fun _ _ => rfl, ?_⟩
    rintro span bytes ⟨⟩
    exact answers_of_fault (fault_of_spell (ofTokens_eq_error_iff.1 failed))
  · have same := spells.1 ⟨map, made⟩
    exact ⟨iff_of_false (by simp) (by simp [eq, same]), nofun, nofun⟩

/-- A call without its closing bracket has a tree all the same. Tokens of another call leave it as
it was, and tokens that spell the call do not fail. -/
theorem attribute_parse_call :
    ∃ tree : Node Exact, (parse "f(1").tree = some tree ∧
      (∃ e, (tree.attribute "f(1".toList ["f(", "2"] [.number 0, .number 1]).failure = some e) ∧
      (tree.attribute "f(1".toList ["f(", "2"] [.number 0, .number 1]).tree = tree ∧
      (tree.attribute "f(1".toList ["f(", " 1"] [.number 0, .number 1]).failure = none := by
  have read : (parse (κ := Exact) "f(1").tree.isSome = true := by
    rw [tree_parse_eq, tokenize_call, Option.isSome_map]
    decide +kernel
  obtain ⟨tree, parsed⟩ := Option.isSome_iff_exists.1 read
  obtain ⟨fails, unchanged, -⟩ := attribute_parse parsed ["f(", "2"] [.number 0, .number 1]
  obtain ⟨e, failed⟩ := fails.2 (.inr (by decide +kernel))
  obtain ⟨fails', -, -⟩ := attribute_parse parsed ["f(", " 1"] [.number 0, .number 1]
  refine ⟨tree, parsed, ⟨e, failed⟩, unchanged e failed, ?_⟩
  rw [Option.eq_none_iff_forall_ne_some]
  exact not_exists.1 (mt fails'.1 (by decide +kernel))

end Node

end SureCode
