import Mathlib
import SureCode.Proofs.Grammar.Erasure

/-!
# Trees by the numbers of tokens

Where the tokens with text are numbered in the order of the text, a node of a tree is a stretch of
numbers. Marks have such an outline whatever the spans of their tokens are (`outline_map`). Its
stretches lie inside one another in order (`within_outline`), and the nodes of marks over tokens
that follow one another are the outline with spans for numbers (`nodes_eq_outline`).
-/

namespace SureCode

/-- The tokens that are no layout. -/
def lexemes (ts : List Token) : List Token := ts.filter fun t => !t.kind.isLayout

theorem lexemes_append (ts us : List Token) : lexemes (ts ++ us) = lexemes ts ++ lexemes us :=
  List.filter_append ..

theorem lexemes_map {f : Token → Token} (same : ∀ t, (f t).kind = t.kind) (ts : List Token) :
    lexemes (ts.map f) = (lexemes ts).map f := by
  simp [lexemes, List.filter_map, Function.comp_def, same]

/-- A construct by the numbers of its tokens: the first of them and how many they are. -/
structure Part where
  kind : Kind
  first : Nat
  count : Nat
deriving DecidableEq, Repr

namespace Mark

/-- What a construct over some tokens comes to: a part of its own, unless its kind is transparent or
its only part has all its tokens. -/
def gather (kind : Kind) (first count : Nat) (parts : List (Tree Part)) : List (Tree Part) :=
  if count = 0 || kind.isTransparent then parts
  else match parts with
    | [part] => if part.label.count = count then [part] else [.node ⟨kind, first, count⟩ [part]]
    | parts => [.node ⟨kind, first, count⟩ parts]

mutual

/-- How many tokens with text there are under a mark, and the parts it comes to, when the first of
them has the given number. -/
def outline (first : Nat) : Mark → Nat × List (Tree Part)
  | token t => (if t.kind.isLayout then 0 else 1, [])
  | construct kind marks =>
    let (count, parts) := outlineAll first marks
    (count, gather kind first count parts)

/-- How many tokens with text there are under some marks, and the parts they come to. -/
def outlineAll (first : Nat) : List Mark → Nat × List (Tree Part)
  | [] => (0, [])
  | m :: ms =>
    let (count, parts) := outline first m
    let (count', parts') := outlineAll (first + count) ms
    (count + count', parts ++ parts')

end

mutual

theorem outline_map {f : Token → Token} (same : ∀ t, (f t).kind = t.kind) (first : Nat) (m : Mark) :
    outline first (map f m) = outline first m := by
  match m with
  | .token t => rw [map_token, outline, outline, same]
  | .construct kind marks =>
    rw [map_construct, outline, outline, outlineAll_map same first marks]

/-- The outline of marks does not depend on spans. -/
theorem outlineAll_map {f : Token → Token} (same : ∀ t, (f t).kind = t.kind) (first : Nat)
    (ms : List Mark) : outlineAll first (ms.map (map f)) = outlineAll first ms := by
  match ms with
  | [] => rfl
  | m :: ms =>
    rw [List.map_cons, outlineAll, outlineAll, outline_map same first m]
    simp only [outlineAll_map same _ ms]

end

theorem outlineAll_append (first : Nat) (ms ns : List Mark) :
    outlineAll first (ms ++ ns)
      = ((outlineAll first ms).1 + (outlineAll (first + (outlineAll first ms).1) ns).1,
        (outlineAll first ms).2 ++ (outlineAll (first + (outlineAll first ms).1) ns).2) := by
  induction ms generalizing first with
  | nil => simp [outlineAll]
  | cons m ms ih => simp [outlineAll, ih, Nat.add_assoc]

end Mark

/-! ### Stretches of numbers -/

/-- Parts that follow one another between two numbers, none of them empty, each around those below
it. -/
inductive Within : Nat → List (Tree Part) → Nat → Prop where
  | nil {start stop : Nat} (le : start ≤ stop) : Within start [] stop
  | cons {start stop : Nat} {p : Part} {below after : List (Tree Part)} (before : start ≤ p.first)
      (nonempty : 0 < p.count) (inside : Within p.first below (p.first + p.count))
      (rest : Within (p.first + p.count) after stop) : Within start (.node p below :: after) stop

namespace Within

variable {start middle stop : Nat} {ps qs : List (Tree Part)}

theorem le (within : Within start ps stop) : start ≤ stop := by
  induction within with
  | nil le => exact le
  | cons before _ _ _ _ ih => omega

theorem append (first : Within start ps middle) (second : Within middle qs stop) :
    Within start (ps ++ qs) stop := by
  induction first with
  | nil le =>
    cases second with
    | nil le' => exact .nil (le.trans le')
    | cons before nonempty inside rest => exact .cons (le.trans before) nonempty inside rest
  | cons before nonempty inside _ _ ih => exact .cons before nonempty inside (ih second)

theorem gather {count : Nat} (kind : Kind) (within : Within start ps (start + count)) :
    Within start (Mark.gather kind start count ps) (start + count) := by
  unfold Mark.gather
  split
  · exact within
  · rename_i proper
    have nonempty : 0 < count := Nat.pos_of_ne_zero (by simp_all)
    have around : Within start [.node ⟨kind, start, count⟩ ps] (start + count) :=
      .cons le_rfl nonempty within (.nil le_rfl)
    split
    · split
      · exact within
      · exact around
    · exact around

end Within

namespace Mark

mutual

theorem within_outline (first : Nat) (m : Mark) :
    Within first (outline first m).2 (first + (outline first m).1) := by
  match m with
  | .token t =>
    rw [outline]
    exact .nil (Nat.le_add_right _ _)
  | .construct kind marks =>
    rw [outline]
    exact (within_outlineAll first marks).gather kind

/-- The parts of marks are stretches inside one another in order. -/
theorem within_outlineAll (first : Nat) (ms : List Mark) :
    Within first (outlineAll first ms).2 (first + (outlineAll first ms).1) := by
  match ms with
  | [] =>
    rw [outlineAll]
    exact .nil le_rfl
  | m :: ms =>
    rw [outlineAll]
    dsimp only
    rw [← Nat.add_assoc]
    exact (within_outline first m).append (within_outlineAll _ ms)

end

mutual

theorem count_outline (first : Nat) (m : Mark) :
    (outline first m).1 = (lexemes m.tokens).length := by
  match m with
  | .token t =>
    rw [outline, tokens, lexemes]
    cases layout : t.kind.isLayout <;> simp [layout]
  | .construct kind marks =>
    rw [outline, tokens]
    exact count_outlineAll first marks

theorem count_outlineAll (first : Nat) (ms : List Mark) :
    (outlineAll first ms).1 = (lexemes (tokensAll ms)).length := by
  match ms with
  | [] => rfl
  | m :: ms =>
    rw [outlineAll]
    dsimp only
    rw [count_outline first m, count_outlineAll _ ms, tokensAll, lexemes_append, List.length_append]

end

end Mark

/-! ### Spans for numbers -/

theorem Span.eq_iff {s t : Span} : s = t ↔ s.start = t.start ∧ s.stop = t.stop := by
  cases s
  cases t
  simp

/-- Spans by number that follow one another, none of them empty. -/
structure Orderly (spans : Nat → Span) (count : Nat) : Prop where
  nonempty : ∀ i < count, (spans i).start < (spans i).stop
  apart : ∀ {i j}, i < j → j < count → (spans i).stop ≤ (spans j).start

/-- Some tokens have the spans that are numbered from a number on, layout tokens left out. -/
def Numbered (spans : Nat → Span) (first : Nat) (tokens : List Token) : Prop :=
  (lexemes tokens).map (·.span) = (List.range' first (lexemes tokens).length).map spans

theorem Numbered.split {spans : Nat → Span} {first : Nat} {ts us : List Token}
    (numbered : Numbered spans first (ts ++ us)) :
    Numbered spans first ts ∧ Numbered spans (first + (lexemes ts).length) us := by
  rw [Numbered, lexemes_append, List.map_append, List.length_append, ← List.range'_append_1,
    List.map_append] at numbered
  exact List.append_inj numbered (by simp)

/-- The span around the tokens of so many numbers. -/
def stretch (spans : Nat → Span) (first count : Nat) : Option Span :=
  if count = 0 then none else some ((spans first).cover (spans (first + count - 1)))

namespace Part

/-- The span around the tokens of a part. -/
def span (spans : Nat → Span) (p : Part) : Span :=
  (spans p.first).cover (spans (p.first + p.count - 1))

/-- The construct that a part stands for. -/
def construct {κ : Type} (spans : Nat → Span) (p : Part) : Construct κ :=
  { kind := p.kind, code := "", span := p.span spans }

end Part

namespace Orderly

variable {spans : Nat → Span} {count first : Nat} (orderly : Orderly spans count)

include orderly

theorem start_lt (first last : Nat) (lt : first < last) (bound : last < count) :
    (spans first).start < (spans last).start :=
  (orderly.nonempty first (lt.trans bound)).trans_le (orderly.apart lt bound)

theorem stop_lt (first last : Nat) (lt : first < last) (bound : last < count) :
    (spans first).stop < (spans last).stop :=
  (orderly.apart lt bound).trans_lt (orderly.nonempty last bound)

/-- The span around a stretch of tokens reaches from the first to the last. -/
theorem cover_eq (first last : Nat) (le : first ≤ last) (bound : last < count) :
    ((spans first).cover (spans last)).start = (spans first).start ∧
      ((spans first).cover (spans last)).stop = (spans last).stop := by
  rcases le.eq_or_lt with rfl | lt
  · rw [Span.cover_self]
    exact ⟨rfl, rfl⟩
  · exact ⟨Nat.min_eq_left (orderly.start_lt first last lt bound).le,
      Nat.max_eq_right (orderly.stop_lt first last lt bound).le⟩

theorem coverSpan_stretch {m n : Nat}
    (bound : first + (m + n) ≤ count) :
    Mark.coverSpan (stretch spans first m) (stretch spans (first + m) n)
      = stretch spans first (m + n) := by
  rcases Nat.eq_zero_or_pos m with rfl | positive
  · simp [stretch, Mark.coverSpan]
  rcases Nat.eq_zero_or_pos n with rfl | positive'
  · change Mark.coverSpan (stretch spans first m) none = stretch spans first m
    cases stretch spans first m <;> rfl
  obtain ⟨front_start, front_stop⟩ := orderly.cover_eq first (first + m - 1)
    (by omega) (by omega)
  obtain ⟨back_start, back_stop⟩ := orderly.cover_eq (first + m) (first + m + n - 1)
    (by omega) (by omega)
  obtain ⟨start, stop⟩ := orderly.cover_eq first (first + m + n - 1)
    (by omega) (by omega)
  have starts := orderly.start_lt first (first + m) (by omega) (by omega)
  have stops := orderly.stop_lt (first + m - 1) (first + m + n - 1) (by omega)
    (by omega)
  rw [stretch, if_neg positive.ne', stretch, if_neg positive'.ne', stretch, if_neg (by omega),
    Mark.coverSpan, Option.some.injEq, ← Nat.add_assoc, Span.eq_iff, start, stop]
  change min _ _ = _ ∧ max _ _ = _
  omega

/-- Of the parts of a stretch only one with all its tokens has its span. -/
theorem span_eq_iff {p : Part} {n : Nat} (before : first ≤ p.first)
    (nonempty : 0 < p.count) (after : p.first + p.count ≤ first + n) (bound : first + n ≤ count) :
    p.span spans = (spans first).cover (spans (first + n - 1)) ↔ p.count = n := by
  obtain ⟨start, stop⟩ := orderly.cover_eq first (first + n - 1)
    (by omega) (by omega)
  obtain ⟨part_start, part_stop⟩ := orderly.cover_eq p.first (p.first + p.count - 1) (by omega) (by omega)
  constructor
  · intro same
    rw [Part.span, Span.eq_iff, part_start, part_stop, start, stop] at same
    by_contra differs
    rcases before.eq_or_lt with eq | lt
    · have := orderly.stop_lt (p.first + p.count - 1) (first + n - 1) (by omega)
        (by omega)
      omega
    · have := orderly.start_lt first p.first lt (by omega)
      omega
  · intro all
    have same : p.first = first := by omega
    rw [Part.span, all, same]

/-- What a construct comes to, with spans for numbers. -/
theorem settle_gather {κ : Type} (kind : Kind) {n : Nat}
    {parts : List (Tree Part)} (within : Within first parts (first + n)) (bound : first + n ≤ count) :
    Mark.settle kind (stretch spans first n) (parts.map (Tree.map (Part.construct (κ := κ) spans)))
      = (Mark.gather kind first n parts).map (Tree.map (Part.construct spans)) := by
  unfold Mark.settle Mark.gather stretch
  rcases Nat.eq_zero_or_pos n with rfl | positive
  · simp
  rw [if_neg positive.ne']
  dsimp only
  cases transparent : kind.isTransparent with
  | true => simp
  | false =>
    simp only [positive.ne', decide_false, Bool.or_self, if_false, Bool.false_eq_true]
    match parts, within with
    | [], _ => rfl
    | [.node p below], .cons before nonempty inside (.nil after) =>
      have same := orderly.span_eq_iff before nonempty after bound
      rw [apply_ite (List.map _)]
      exact ite_congr (propext same) (fun _ => rfl) fun _ => rfl
    | .node p below :: .node q above :: rest, _ => simp [Part.construct, Part.span]

end Orderly

namespace Mark

variable {κ : Type} {spans : Nat → Span} {count : Nat}

mutual

theorem nodes_eq_outline (orderly : Orderly spans count) (first : Nat) (m : Mark)
    (numbered : Numbered spans first m.tokens) (bound : first + (outline first m).1 ≤ count) :
    nodes m = (stretch spans first (outline first m).1,
      (outline first m).2.map (Tree.map (Part.construct (κ := κ) spans))) := by
  match m with
  | .token t =>
    rw [tokens] at numbered
    rw [nodes, outline]
    cases layout : t.kind.isLayout with
    | true => rfl
    | false =>
      have same : t.span = spans first := by simpa [Numbered, lexemes, layout] using numbered
      simp [stretch, same]
  | .construct kind marks =>
    rw [tokens] at numbered
    rw [outline] at bound ⊢
    rw [nodes, nodesAll_eq_outline orderly first marks numbered bound]
    dsimp only
    rw [orderly.settle_gather kind (within_outlineAll first marks) bound]

/-- The nodes of marks are their outline, with the spans of their tokens for the numbers. -/
theorem nodesAll_eq_outline (orderly : Orderly spans count) (first : Nat) (ms : List Mark)
    (numbered : Numbered spans first (tokensAll ms))
    (bound : first + (outlineAll first ms).1 ≤ count) :
    nodesAll ms = (stretch spans first (outlineAll first ms).1,
      (outlineAll first ms).2.map (Tree.map (Part.construct (κ := κ) spans))) := by
  match ms with
  | [] => rfl
  | m :: ms =>
    rw [tokensAll] at numbered
    rw [outlineAll] at bound ⊢
    dsimp only at bound ⊢
    obtain ⟨here, later⟩ := numbered.split
    rw [← count_outline first m] at later
    rw [nodesAll, nodes_eq_outline orderly first m here (by omega),
      nodesAll_eq_outline orderly _ ms later (by omega)]
    dsimp only
    rw [orderly.coverSpan_stretch bound, List.map_append]

end

end Mark

end SureCode
