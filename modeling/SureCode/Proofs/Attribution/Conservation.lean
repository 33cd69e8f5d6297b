import Mathlib
import SureCode.Proofs.Attribution.Charges

/-!
# Costs are conserved

A letter of a token lies in some spans when all its bytes do (`LiesIn`). The nodes of an accepted
tree begin and end between characters, so a letter with one byte in the gaps of a node lies in them,
even where they part it (`mem_gaps_congr`), and the letters in the span of the tree are those in the
gaps of its nodes (`exists_liesIn_iff`). So attribution lists at each node the tokens with a letter
in its gaps, and every token with a letter in the tree is listed. Where no token is listed at two
nodes, the costs of all nodes add up to the cost of these tokens (`attribute_conserves`).
-/

namespace SureCode

open SureCode.Tree

/-! ### Bytes of characters -/

namespace Text

variable {source before : List Char} {c : Char} {byte other n : ℕ} {s : Span}

/-- Every byte of a text is one of a character. -/
theorem exists_char (lt : byte < byteLength source) :
    ∃ before c, before ++ [c] <+: source ∧ byteLength before ≤ byte ∧
      byte < byteLength before + c.utf8Size := by
  induction source generalizing byte with
  | nil => cases lt
  | cons d source ih =>
    rw [byteLength_cons] at lt
    by_cases first : byte < d.utf8Size
    · exact ⟨[], d, ⟨source, rfl⟩, Nat.zero_le _, by simpa using first⟩
    · have later : byte - d.utf8Size < byteLength source := by omega
      obtain ⟨before, c, place, from_byte, to_byte⟩ := ih later
      refine ⟨d :: before, c, List.cons_prefix_cons.2 ⟨rfl, place⟩, ?_, ?_⟩
      all_goals
        rw [byteLength_cons]
        omega

/-- No boundary lies inside a character. -/
theorem Boundary.outside (boundary : Boundary source n) (place : before ++ [c] <+: source) :
    n ≤ byteLength before ∨ byteLength before + c.utf8Size ≤ n := by
  obtain ⟨after, rfl⟩ := place
  rw [List.append_assoc] at boundary
  by_cases le : n ≤ byteLength before
  · exact .inl le
  · obtain ⟨middle, rest, split, rfl⟩ := boundary.split (by omega)
    cases middle with
    | nil => simp at le
    | cons d middle =>
      obtain ⟨rfl, -⟩ := List.cons.inj split
      rw [byteLength_cons]
      omega

/-- A byte of the character after some text. -/
def InChar (before : List Char) (c : Char) (byte : ℕ) : Prop :=
  byteLength before ≤ byte ∧ byte < byteLength before + c.utf8Size

theorem inChar_byteLength (before : List Char) (c : Char) : InChar before c (byteLength before) :=
  ⟨le_rfl, Nat.lt_add_of_pos_right (Char.utf8Size_pos c)⟩

/-- A span between two boundaries has all bytes of a character or none. -/
theorem mem_span_congr (first : Boundary source s.start) (last : Boundary source s.stop)
    (place : before ++ [c] <+: source) (inside : InChar before c byte)
    (inside' : InChar before c other) : byte ∈ s ↔ other ∈ s := by
  have start := first.outside place
  have stop := last.outside place
  unfold InChar at inside inside'
  rw [Span.mem_iff, Span.mem_iff]
  omega

end Text

/-! ### Letters of tokens in a source -/

namespace OffsetMap

open Text

variable {source : List Char} {tokens : List String} {map : OffsetMap} {token byte : ℕ} {c : Char}
  {spans : List Span}

/-- A letter of a token stands at an offset of the source: as many letters come before it in the
source as in the tokens. -/
def SpelledAt (source : List Char) (tokens : List String) (token offset : ℕ) (c : Char) : Prop :=
  ∃ k, SourceLetter source k offset c ∧ TokenLetter tokens k token c

/-- All bytes of a character at an offset are in some spans. -/
def Covers (spans : List Span) (offset : ℕ) (c : Char) : Prop :=
  ∀ byte, offset ≤ byte → byte < offset + c.utf8Size → ∃ s ∈ spans, byte ∈ s

/-- Some letter of a token lies in some spans of the source. -/
def LiesIn (source : List Char) (tokens : List String) (token : ℕ) (spans : List Span) : Prop :=
  ∃ offset c, SpelledAt source tokens token offset c ∧ Covers spans offset c

theorem LiesIn.lt (lies : LiesIn source tokens token spans) : token < tokens.length := by
  obtain ⟨offset, c, ⟨k, -, front, text, back, -, -, rfl, rfl, -⟩, -⟩ := lies
  simp

/-- The bytes of a token are those of its letters. -/
theorem tokenAt?_eq_some_iff (maps : Maps source tokens map) :
    map.tokenAt? byte = some token ↔ ∃ before c k,
      LetterAt source k before c ∧ TokenLetter tokens k token c ∧ InChar before c byte := by
  constructor
  · intro owned
    have within : byte < byteLength source := by
      by_contra beyond
      rw [maps.beyond byte (not_lt.1 beyond)] at owned
      cases owned
    obtain ⟨before, c, place, inside⟩ := exists_char within
    cases blank : isBlank c with
    | true =>
      rw [maps.blank place blank byte inside.1 inside.2] at owned
      cases owned
    | false =>
      have letter : LetterAt source (withoutBlanks before).length before c := ⟨blank, place, rfl⟩
      obtain ⟨token', letter', here⟩ := maps.letter ⟨before, letter, rfl⟩
      rw [here byte inside.1 inside.2, Option.some.injEq] at owned
      exact ⟨before, c, _, letter, owned ▸ letter', inside⟩
  · rintro ⟨before, c, k, letter, token_letter, inside⟩
    obtain ⟨token', letter', here⟩ := maps.letter ⟨before, letter, rfl⟩
    have same := (getElem?_letters_iff.2 letter').symm.trans (getElem?_letters_iff.2 token_letter)
    obtain ⟨rfl, -⟩ := Prod.mk.inj (Option.some.inj same)
    exact here byte inside.1 inside.2

end OffsetMap

/-! ### Letters in the gaps of a tree -/

namespace Node

open OffsetMap Text

variable {κ : Type} {source before : List Char} {tokens : List String} {map : OffsetMap}
  {t u : Node κ} {a : Construct κ} {byte other token : ℕ} {c : Char}

/-- The gaps of a node have the bytes of its span that are in no child. -/
theorem exists_gap_iff (own : ownFault? source u = none) :
    (∃ gap ∈ u.label.gaps, byte ∈ gap) ↔ byte ∈ u.label.span ∧ ∀ s ∈ u.childSpans, byte ∉ s := by
  have shared := countP_gaps byte own
  have gaps : (∃ gap ∈ u.label.gaps, byte ∈ gap) ↔ 0 < u.label.gaps.countP (byte ∈ ·) := by
    simp [List.countP_pos_iff]
  have children : (∀ s ∈ u.childSpans, byte ∉ s) ↔ u.childSpans.countP (byte ∈ ·) = 0 := by
    simp [List.countP_eq_zero]
  rw [gaps, children]
  by_cases inside : byte ∈ u.label.span
  · rw [if_pos inside] at shared
    simp only [inside, true_and]
    omega
  · rw [if_neg inside] at shared
    simp only [inside, false_and, iff_false]
    omega

/-- The gaps of a node in an accepted tree have all bytes of a character or none. -/
theorem mem_gaps_congr (valid : t.validate source = .ok ()) (mem : a ∈ t.preorder)
    (place : before ++ [c] <+: source) (inside : InChar before c byte)
    (inside' : InChar before c other) :
    (∃ gap ∈ a.gaps, byte ∈ gap) ↔ ∃ gap ∈ a.gaps, other ∈ gap := by
  obtain ⟨u, sub, rfl⟩ := mem_preorder_iff.1 mem
  have owns := validate_eq_ok_iff.1 valid
  have congr {v : Node κ} (sub : v ∈ t.subtrees) : byte ∈ v.label.span ↔ other ∈ v.label.span := by
    obtain ⟨first, last⟩ := boundaries_of_ownFault? (owns v sub)
    exact mem_span_congr first last place inside inside'
  have children : ∀ s ∈ childSpans u, byte ∉ s ↔ other ∉ s := by
    intro s span_mem
    obtain ⟨v, child, rfl⟩ := List.mem_map.1 span_mem
    exact not_congr (congr (mem_subtrees_of_child sub child))
  rw [exists_gap_iff (owns u sub), exists_gap_iff (owns u sub), congr sub, forall₂_congr children]

/-- The bytes in the gaps of the nodes of an accepted tree are those of its span. -/
theorem exists_gap_preorder_iff (valid : t.validate source = .ok ()) :
    (∃ a ∈ t.preorder, ∃ gap ∈ a.gaps, byte ∈ gap) ↔ byte ∈ t.label.span := by
  have owns : ∀ u ∈ subtreesAll [t], ownFault? source u = none := by
    simpa [subtreesAll] using validate_eq_ok_iff.1 valid
  have shared := countP_flatMap_gaps byte owns
  have gaps : (∃ a ∈ t.preorder, ∃ gap ∈ a.gaps, byte ∈ gap) ↔
      0 < ((preorderAll [t]).flatMap (·.gaps)).countP (byte ∈ ·) := by
    rw [List.countP_pos_iff, preorderAll, preorderAll, List.append_nil]
    constructor
    · rintro ⟨a, mem, gap, gap_mem, inside⟩
      exact ⟨gap, List.mem_flatMap.2 ⟨a, mem, gap_mem⟩, decide_eq_true inside⟩
    · rintro ⟨gap, gap_mem, inside⟩
      obtain ⟨a, mem, gap_mem⟩ := List.mem_flatMap.1 gap_mem
      exact ⟨a, mem, gap, gap_mem, of_decide_eq_true inside⟩
  rw [gaps, shared, List.countP_pos_iff]
  simp

/-- The letters in the span of an accepted tree are those in the gaps of its nodes. -/
theorem exists_liesIn_iff (valid : t.validate source = .ok ()) :
    (∃ a ∈ t.preorder, LiesIn source tokens token a.gaps) ↔
      LiesIn source tokens token [t.label.span] := by
  constructor
  · rintro ⟨a, mem, offset, c, spelled, covers⟩
    refine ⟨offset, c, spelled, fun byte from_byte to_byte => ?_⟩
    have inside := (exists_gap_preorder_iff valid).1 ⟨a, mem, covers byte from_byte to_byte⟩
    exact ⟨_, List.mem_singleton_self _, inside⟩
  · rintro ⟨_, c, ⟨k, ⟨before, letter, rfl⟩, token_letter⟩, covers⟩
    have first := inChar_byteLength before c
    have within : byteLength before ∈ t.label.span := by simpa using covers _ first.1 first.2
    obtain ⟨a, mem, gap⟩ := (exists_gap_preorder_iff valid).2 within
    refine ⟨a, mem, _, c, ⟨k, ⟨before, letter, rfl⟩, token_letter⟩, fun byte lower upper => ?_⟩
    exact (mem_gaps_congr valid mem letter.place first ⟨lower, upper⟩).1 gap

/-- A node of an accepted tree is charged for the tokens with a letter in its gaps. -/
theorem mem_touched_iff (valid : t.validate source = .ok ()) (mem : a ∈ t.preorder)
    (made : ofTokens source tokens = .ok map) :
    token ∈ map.touched a.gaps ↔ LiesIn source tokens token a.gaps := by
  obtain ⟨maps, -, count⟩ := maps_of_ofTokens made
  rw [mem_touched]
  constructor
  · rintro ⟨-, gap, gap_mem, byte, byte_mem, owned⟩
    obtain ⟨before, c, k, letter, token_letter, inside⟩ := (tokenAt?_eq_some_iff maps).1 owned
    refine ⟨_, c, ⟨k, ⟨before, letter, rfl⟩, token_letter⟩, fun other from_byte to_byte => ?_⟩
    exact (mem_gaps_congr valid mem letter.place inside ⟨from_byte, to_byte⟩).1
      ⟨gap, gap_mem, byte_mem⟩
  · intro lies
    refine ⟨count ▸ lies.lt, ?_⟩
    obtain ⟨_, c, ⟨k, ⟨before, letter, rfl⟩, token_letter⟩, covers⟩ := lies
    have first := inChar_byteLength before c
    obtain ⟨gap, gap_mem, byte_mem⟩ := covers _ first.1 first.2
    exact ⟨gap, gap_mem, _, byte_mem,
      (tokenAt?_eq_some_iff maps).2 ⟨before, c, k, letter, token_letter, first⟩⟩

/-- What it is for an attributed tree to list letters: each construct lists the tokens with a letter
in its gaps, in ascending order and each once, and each token with a letter in the tree is
listed. -/
structure ListsLetters [Scalar κ] (source : List Char) (tokens : List String) (logprobs : List κ)
    (t u : Node κ) (listed : Construct κ → List ℕ) : Prop where
  charged : u = t.map fun a => a.charged tokens logprobs (listed a)
  ascending : ∀ a ∈ t.preorder, (listed a).Pairwise (· < ·)
  mem_listed : ∀ a ∈ t.preorder, ∀ token, token ∈ listed a ↔ LiesIn source tokens token a.gaps
  covered : ∀ token, LiesIn source tokens token [t.label.span] → ∃ a ∈ t.preorder, token ∈ listed a

theorem exists_listsLetters [Scalar κ] {logprobs : List κ} (valid : t.validate source = .ok ())
    (attributed : (t.attribute source tokens logprobs).toExcept = .ok u) :
    ∃ listed, ListsLetters source tokens logprobs t u listed := by
  obtain ⟨-, result⟩ | ⟨-, ⟨e, -, result⟩ | ⟨map, made, result⟩⟩ :=
    attribute_cases valid tokens logprobs
  all_goals rw [result] at attributed
  · cases attributed
  · cases attributed
  · refine ⟨fun a => map.touched a.gaps, (Except.ok.inj attributed).symm,
      fun a _ => map.pairwise_touched a.gaps, fun a mem _ => mem_touched_iff valid mem made,
      fun token lies => ?_⟩
    obtain ⟨a, mem, lies⟩ := (exists_liesIn_iff valid).2 lies
    exact ⟨a, mem, (mem_touched_iff valid mem made).2 lies⟩

end Node

/-! ### Sums of costs -/

section Sums

open OffsetMap Exact
open scoped Classical

variable {source : List Char} {tokens : List String} {values : List ℚ}

theorem sum_filterMap_getElem? (values : List ℚ) (numbers : List ℕ) :
    (numbers.filterMap (values[·]?)).sum = (numbers.map fun n => values.getD n 0).sum := by
  induction numbers with
  | nil => rfl
  | cons n numbers ih =>
    rw [List.filterMap_cons, List.map_cons, List.sum_cons, ← ih, List.getD_eq_getElem?_getD]
    cases values[n]? <;> simp

/-- The cost of the tokens that a construct lists. -/
theorem nll_charged (tokens : List String) (values : List ℚ) (a : Construct Exact)
    {numbers : List ℕ} (nodup : numbers.Nodup) :
    (a.charged tokens (values.map number) numbers).nll
      = some (number (-∑ n ∈ numbers.toFinset, values.getD n 0)) := by
  have own : numbers.filterMap ((values.map number)[·]?)
      = (numbers.filterMap (values[·]?)).map number := by
    rw [List.map_filterMap]
    exact List.filterMap_congr fun n _ => List.getElem?_map
  rw [Construct.charged, own, zero_eq_number, foldl_sub_number, zero_sub, sum_filterMap_getElem?,
    List.sum_toFinset _ nodup]

/-- Where no number has a property at two elements, the sums over the numbers with the property at
each element add up to the sum over the numbers that have it at all. -/
theorem sum_map_filter_of_apart {α : Type} {l : List α} {P : ℕ → α → Prop}
    (apart : l.Pairwise fun a b => ∀ n, ¬ (P n a ∧ P n b)) (s : Finset ℕ) (v : ℕ → ℚ) :
    (l.map fun a => ∑ n ∈ s with P n a, v n).sum = ∑ n ∈ s with ∃ a ∈ l, P n a, v n := by
  induction l with
  | nil => simp
  | cons a l ih =>
    obtain ⟨first, rest⟩ := List.pairwise_cons.1 apart
    have disjoint : Disjoint (s.filter fun n => P n a) (s.filter fun n => ∃ b ∈ l, P n b) := by
      rw [Finset.disjoint_filter]
      rintro n - here ⟨b, mem, there⟩
      exact first b mem n ⟨here, there⟩
    rw [List.map_cons, List.sum_cons, ih rest, ← Finset.sum_union disjoint, ← Finset.filter_or]
    simp only [List.exists_mem_cons_iff]

/-- In a tree that lies on its source as laid out, attribution lists at each node the tokens with a
letter in its gaps, and every token with a letter in the tree at some node. Where no token has letters
in the gaps of two nodes, the costs of the nodes add up, exactly, to the negated sum of the
log-probabilities of the tokens with a letter in the tree. -/
theorem attribute_conserves (source : List Char) (tokens : List String) :
    (∀ {κ : Type} [Scalar κ] {logprobs : List κ} {t u : Node κ},
      t.validate source = .ok () → (t.attribute source tokens logprobs).toExcept = .ok u →
        ∃ listed, Node.ListsLetters source tokens logprobs t u listed) ∧
    ∀ {values : List ℚ} {t u : Node Exact},
      t.validate source = .ok () →
      (t.attribute source tokens (values.map number)).toExcept = .ok u →
      t.preorder.Pairwise (fun a b => ∀ token,
        ¬ (LiesIn source tokens token a.gaps ∧ LiesIn source tokens token b.gaps)) →
      ∃ costs : List ℚ, u.preorder.map (·.nll) = costs.map (fun cost => some (number cost)) ∧
        costs.sum = -∑ token ∈ Finset.range tokens.length with
          LiesIn source tokens token [t.label.span], values.getD token 0 := by
  refine ⟨Node.exists_listsLetters, fun {values t u} valid attributed apart => ?_⟩
  obtain ⟨listed, lists⟩ := Node.exists_listsLetters valid attributed
  have numbers : ∀ a ∈ t.preorder, (listed a).toFinset
      = {token ∈ Finset.range tokens.length | LiesIn source tokens token a.gaps} := by
    intro a mem
    ext token
    rw [List.mem_toFinset, lists.mem_listed a mem, Finset.mem_filter, Finset.mem_range]
    exact (and_iff_right_of_imp LiesIn.lt).symm
  let own (a : Construct Exact) : ℚ :=
    ∑ token ∈ Finset.range tokens.length with LiesIn source tokens token a.gaps, values.getD token 0
  refine ⟨(t.preorder.map own).map (-·), ?_, ?_⟩
  · rw [lists.charged, preorder_map, List.map_map, List.map_map, List.map_map]
    refine List.map_congr_left fun a mem => ?_
    have nodup := (lists.ascending a mem).imp fun lt => lt.ne
    refine (nll_charged tokens values a nodup).trans ?_
    rw [numbers a mem]
    rfl
  · rw [← List.sum_neg, sum_map_filter_of_apart apart]
    simp only [Node.exists_liesIn_iff valid]

/-- The tree of `x+é`, in which the gaps of the last name part the two bytes of its letter. -/
def accentedSum : Node Exact :=
  Tree.map (fun a => { a with logprobs := [], nll := none }) <|
    node (Node.placed "x+é" 0 [(1, 2)])
      [leaf (Node.placed "x" 0 [(0, 1)]), leaf (Node.placed "é" 2 [(3, 4), (2, 3)])]

/-- The blank token counts for nothing. -/
theorem attribute_conserves_accentedSum :
    let source := "x+é".toList
    let tokens := ["x", " ", "+", "é"]
    let values : List ℚ := [-1, -8, -1 / 2, -1 / 4]
    accentedSum.validate source = .ok () ∧
      accentedSum.preorder.Pairwise (fun a b => ∀ token,
        ¬ (LiesIn source tokens token a.gaps ∧ LiesIn source tokens token b.gaps)) ∧
      ∃ (u : Node Exact) (costs : List ℚ),
        (accentedSum.attribute source tokens (values.map number)).toExcept = .ok u ∧
        (∃ listed, Node.ListsLetters source tokens (values.map number) accentedSum u listed) ∧
        u.preorder.map (·.nll) = costs.map (fun cost => some (number cost)) ∧
        costs.sum = 7 / 4 := by
  intro source tokens values
  let map : OffsetMap := ⟨4, #[some 0, some 2, some 3, some 3]⟩
  have valid : accentedSum.validate source = .ok () := by cbv
  have made : ofTokens source tokens = .ok map := by cbv
  have lies {a : Construct Exact} (mem : a ∈ accentedSum.preorder) (token : ℕ) :
      LiesIn source tokens token a.gaps ↔ token ∈ map.touched a.gaps :=
    (Node.mem_touched_iff valid mem made).symm
  have apart : accentedSum.preorder.Pairwise (fun a b => ∀ token,
      ¬ (LiesIn source tokens token a.gaps ∧ LiesIn source tokens token b.gaps)) := by
    have distinct : accentedSum.preorder.Pairwise fun a b =>
        ∀ token ∈ map.touched a.gaps, token ∉ map.touched b.gaps := by decide +kernel
    refine distinct.imp_of_mem fun mem mem' apart token => ?_
    rw [lies mem, lies mem']
    exact fun both => apart token both.1 both.2
  have charged : accentedSum.attribute source tokens (values.map number) = ⟨accentedSum.map
      fun a => a.charged tokens (values.map number) (map.touched a.gaps), none⟩ :=
    Node.attribute_of_ofTokens valid rfl made
  have attributed := congrArg Attribution.toExcept charged
  obtain ⟨costs, nll, sum⟩ := (attribute_conserves source tokens).2 valid attributed apart
  refine ⟨valid, apart, _, costs, attributed,
    (attribute_conserves source tokens).1 valid attributed, nll, ?_⟩
  have listed : ∀ token ∈ Finset.range 4,
      LiesIn source tokens token [accentedSum.label.span] ↔ token ≠ 1 := by
    have touched : ∀ token ∈ Finset.range 4,
        (∃ a ∈ accentedSum.preorder, token ∈ map.touched a.gaps) ↔ token ≠ 1 := by decide +kernel
    intro token below
    rw [← touched token below, ← Node.exists_liesIn_iff valid]
    exact exists_congr fun a => and_congr_right fun mem => lies mem token
  have root : (Finset.range 4).filter
      (fun token => LiesIn source tokens token [accentedSum.label.span]) = {0, 2, 3} := by
    rw [Finset.filter_congr listed]
    decide
  rw [sum]
  change -∑ token ∈ (Finset.range 4).filter _, _ = _
  rw [root]
  norm_num [values]

end Sums

end SureCode
