import Mathlib
import SureCode.Node.Layout
import SureCode.Proofs.Token.Coverage
import SureCode.Proofs.Tree.Index

/-!
# Laid-out trees are valid

Spans that follow one another inside a stretch tile it together with the gaps between them
(`tiles_mergeSort_gaps`). So where all nodes of a tree lie inside their parents one after another
(`Nested`), the tree with its code and gaps filled in passes the check (`validate_layout`).
-/

namespace SureCode

open SureCode.Tree

/-! ### Tilings -/

section Tilings

variable {spans : List Span} {cursor stop : Nat}

/-- Spans that follow one another between two offsets. -/
def Follow : Nat → List Span → Nat → Prop
  | cursor, [], stop => cursor ≤ stop
  | cursor, s :: rest, stop => cursor ≤ s.start ∧ Follow s.stop rest stop

theorem Follow.le (follow : Follow cursor spans stop) : cursor ≤ stop := by
  induction spans generalizing cursor with
  | nil => exact follow
  | cons s rest ih =>
    obtain ⟨before, rest⟩ := follow
    have := ih rest
    have := s.ordered
    omega

/-- The span between two offsets, unless it is empty. -/
def between (cursor stop : Nat) : List Span :=
  if lt : cursor < stop then [⟨cursor, stop, Nat.le_of_lt lt⟩] else []

theorem gapsFrom_nil (cursor stop : Nat) : gapsFrom cursor stop [] = between cursor stop := rfl

theorem gapsFrom_cons {s : Span} (before : cursor ≤ s.start) (rest : List Span) :
    gapsFrom cursor stop (s :: rest) = between cursor s.start ++ gapsFrom s.stop stop rest := by
  have := s.ordered
  rw [gapsFrom, Nat.max_eq_right (by omega)]
  rfl

theorem tiles_between (le : cursor ≤ stop) {rest : List Span} {last : Nat}
    (tiled : tiles stop last rest = true) : tiles cursor last (between cursor stop ++ rest) = true := by
  unfold between
  split
  · simpa [tiles] using tiled
  · obtain rfl : cursor = stop := by omega
    exact tiled

/-- Spans with the gaps before, between and after them, in order. -/
def woven (cursor stop : Nat) : List Span → List Span
  | [] => between cursor stop
  | s :: rest => between cursor s.start ++ s :: woven s.stop stop rest

theorem perm_woven (follow : Follow cursor spans stop) :
    (gapsFrom cursor stop spans ++ spans).Perm (woven cursor stop spans) := by
  induction spans generalizing cursor with
  | nil => simp [woven, gapsFrom_nil]
  | cons s rest ih =>
    rw [gapsFrom_cons follow.1, woven, List.append_assoc]
    exact (List.perm_middle.trans ((ih follow.2).cons s)).append_left _

theorem tiles_woven (follow : Follow cursor spans stop) :
    tiles cursor stop (woven cursor stop spans) = true := by
  induction spans generalizing cursor with
  | nil =>
    rw [woven, ← List.append_nil (between cursor stop)]
    exact tiles_between follow (by simp [tiles])
  | cons s rest ih => exact tiles_between follow.1 (by simp [tiles, ih follow.2])

theorem precedes_iff {s t : Span} :
    s.precedes t = true ↔ s.start < t.start ∨ s.start = t.start ∧ s.stop ≤ t.stop := by
  simp [Span.precedes]

/-- The pieces of a tiling are in order. -/
theorem pairwise_of_tiles (tiled : tiles cursor stop spans = true) :
    spans.Pairwise (fun s t => s.precedes t = true) ∧ ∀ s ∈ spans, cursor ≤ s.start := by
  induction spans generalizing cursor with
  | nil => simp
  | cons s rest ih =>
    rw [tiles, Bool.and_eq_true, beq_iff_eq] at tiled
    obtain ⟨rfl, tiled⟩ := tiled
    obtain ⟨sorted, after⟩ := ih tiled
    have ordered := s.ordered
    refine ⟨List.pairwise_cons.2 ⟨fun t mem => ?_, sorted⟩, fun t mem => ?_⟩
    · have := after t mem
      have := t.ordered
      rw [precedes_iff]
      omega
    · rcases List.mem_cons.1 mem with rfl | mem
      · exact Nat.le_refl _
      · exact ordered.trans (after t mem)

/-- Sorting the pieces of a tiling brings them into order. -/
theorem mergeSort_eq_of_tiles {pieces : List Span} (tiled : tiles cursor stop spans = true)
    (perm : pieces.Perm spans) : pieces.mergeSort Span.precedes = spans := by
  have trans : ∀ s t u : Span, s.precedes t = true → t.precedes u = true → s.precedes u = true :=
    fun s t u first second => by rw [precedes_iff] at *; omega
  have total : ∀ s t : Span, (s.precedes t || t.precedes s) = true :=
    fun s t => by rw [Bool.or_eq_true, precedes_iff, precedes_iff]; omega
  have sorted := List.pairwise_mergeSort trans total pieces
  refine List.Perm.eq_of_pairwise (fun s t _ _ first second => ?_) sorted
    (pairwise_of_tiles tiled).1 ((List.mergeSort_perm _ _).trans perm)
  rw [precedes_iff] at first second
  obtain ⟨start, stop, _⟩ := s
  obtain ⟨start', stop', _⟩ := t
  simp only at first second
  obtain ⟨rfl, rfl⟩ : start = start' ∧ stop = stop' := by omega
  rfl

theorem firstMisplaced_eq_none {parent : Span} (start_le : parent.start ≤ cursor)
    (follow : Follow cursor spans parent.stop) : firstMisplaced parent cursor spans = none := by
  induction spans generalizing cursor with
  | nil => rfl
  | cons s rest ih =>
    obtain ⟨before, rest_follow⟩ := follow
    have ordered := s.ordered
    have stop_le := rest_follow.le
    have inside : parent.encloses s = true := by simp [Span.encloses]; omega
    rw [firstMisplaced, if_neg (by simp [inside, before])]
    exact ih (by omega) rest_follow

/-- The gaps of a span and the spans of its children tile it. -/
theorem tiles_mergeSort_gaps {span : Span} (follow : Follow span.start spans span.stop) :
    tiles span.start span.stop ((gaps span spans ++ spans).mergeSort Span.precedes) = true := by
  cases spans with
  | nil =>
    have whole : tiles span.start span.stop [span] = true := by simp [tiles]
    rw [mergeSort_eq_of_tiles whole (by simp [gaps])]
    exact whole
  | cons s rest =>
    have tiled := tiles_woven follow
    have gaps_eq : gaps span (s :: rest) = gapsFrom span.start span.stop (s :: rest) := rfl
    rw [gaps_eq, mergeSort_eq_of_tiles tiled (perm_woven follow)]
    exact tiled

end Tilings

/-! ### Nested nodes -/

variable {κ : Type} {source : List Char}

/-- Trees that follow one another between two offsets, each with its children inside it, and with
all ends between characters. -/
inductive Nested (source : List Char) : Nat → List (Node κ) → Nat → Prop where
  | nil {cursor stop : Nat} (le : cursor ≤ stop) : Nested source cursor [] stop
  | cons {cursor stop : Nat} {a : Construct κ} {us ts : List (Node κ)}
      (before : cursor ≤ a.span.start) (first : Text.Boundary source a.span.start)
      (last : Text.Boundary source a.span.stop) (inside : Nested source a.span.start us a.span.stop)
      (after : Nested source a.span.stop ts stop) : Nested source cursor (node a us :: ts) stop

namespace Nested

variable {cursor middle stop : Nat} {ts us : List (Node κ)}

theorem follow (nested : Nested source cursor ts stop) :
    Follow cursor (ts.map fun (t : Node κ) => t.label.span) stop := by
  induction nested with
  | nil le => exact le
  | cons before _ _ _ _ _ after => exact ⟨before, after⟩

theorem append (first : Nested source cursor ts middle) (second : Nested source middle us stop) :
    Nested source cursor (ts ++ us) stop := by
  induction first with
  | nil le =>
    cases second with
    | nil le' => exact .nil (le.trans le')
    | cons before first last inside after =>
      exact .cons (le.trans before) first last inside after
  | cons before first last inside _ _ after => exact .cons before first last inside (after second)

end Nested

namespace Node

variable {t : Node κ} {cursor stop : Nat} {ts : List (Node κ)}

theorem label_layout (source : List Char) (t : Node κ) :
    (layout source t).label = { t.label with
      code := String.ofList ((t.label.span.slice? source).getD [])
      gaps := SureCode.gaps t.label.span t.childSpans } := by
  cases t
  simp [layout, childSpans]

theorem children_layout (source : List Char) (t : Node κ) :
    (layout source t).children = layoutAll source t.children := by
  cases t
  simp [layout]

theorem spans_layoutAll (source : List Char) (ts : List (Node κ)) :
    (layoutAll source ts).map (fun (t : Node κ) => t.label.span)
      = ts.map fun (t : Node κ) => t.label.span := by
  induction ts with
  | nil => rfl
  | cons t ts ih => rw [layoutAll, List.map_cons, List.map_cons, ih, label_layout]

theorem childSpans_layout (source : List Char) (t : Node κ) :
    (layout source t).childSpans = t.childSpans := by
  rw [childSpans, children_layout, spans_layoutAll]
  rfl

/-- A node whose children follow one another inside it has no fault of its own once laid out. -/
theorem ownFault?_layout (first : Text.Boundary source t.label.span.start)
    (last : Text.Boundary source t.label.span.stop)
    (follow : Follow t.label.span.start t.childSpans t.label.span.stop) :
    ownFault? source (layout source t) = none := by
  obtain ⟨slice, cut⟩ := Text.exists_slice first last
  have tiled := tiles_mergeSort_gaps follow
  simp only [ownFault?, label_layout, childSpans_layout, cut, Option.getD_some,
    firstMisplaced_eq_none (Nat.le_refl _) follow, tiled, ne_eq, not_true_eq_false, if_false,
    if_true]

/-- Nested trees have no fault once they are laid out. -/
theorem findSome?_ownFault?_layoutAll (nested : Nested source cursor ts stop) :
    (subtreesAll (layoutAll source ts)).findSome? (ownFault? source) = none := by
  induction nested with
  | nil => rfl
  | @cons cursor stop a us ts before first last inside after inner outer =>
    have own : ownFault? source (layout source (node a us)) = none :=
      ownFault?_layout first last inside.follow
    rw [layoutAll, subtreesAll, List.findSome?_append, outer, Option.or_none]
    rw [layout] at own ⊢
    rw [subtrees, List.findSome?_cons, own, inner]

/-- Nested trees pass the check once they are laid out. -/
theorem validate_layout (nested : Nested source cursor (t :: ts) stop) :
    (layout source t).validate source = .ok () := by
  have none := findSome?_ownFault?_layoutAll nested
  rw [layoutAll, subtreesAll, List.findSome?_append, Option.or_eq_none_iff] at none
  rw [validate, none.1]

end Node

end SureCode
