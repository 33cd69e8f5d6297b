import Mathlib
import SureCode.Proofs.Node.Layout

/-!
# What the check of a layout says

The check accepts a tree when no node has a fault of its own (`validate_eq_ok_iff`). Filling in code
and gaps leaves only faults of the spans: a laid-out tree is accepted exactly when every node lies
between characters of the source with its children inside it one after another
(`validate_layout_iff_wellPlaced`).

The check of one node asks that its gaps and the spans of its children tile its span, in whatever
order the gaps are listed. An offset lies in one piece of a tiling, so going down the tree it ends
up in one gap: an accepted tree gives every byte of its span to one gap of one node, and no other
byte to any (`validate_sound`).
-/

namespace SureCode

open SureCode.Tree

/-! ### Slices -/

namespace Text

variable {source rest slice : List Char} {n : Nat}

theorem dropBytes?_eq_some (eq : dropBytes? n source = some rest) :
    ∃ before, source = before ++ rest ∧ n = byteLength before := by
  fun_induction dropBytes? n source with
  | case1 => exact ⟨[], by simpa using eq, rfl⟩
  | case2 => cases eq
  | case3 n c cs fits ih =>
    obtain ⟨before, rfl, length⟩ := ih eq
    exact ⟨c :: before, rfl, by rw [byteLength_cons]; omega⟩
  | case4 => cases eq

theorem takeBytes?_eq_some (eq : takeBytes? n source = some slice) :
    ∃ after, source = slice ++ after ∧ n = byteLength slice := by
  fun_induction takeBytes? n source generalizing slice with
  | case1 cs =>
    obtain rfl := Option.some.inj eq
    exact ⟨cs, rfl, rfl⟩
  | case2 => cases eq
  | case3 n c cs fits ih =>
    obtain ⟨shorter, taken, rfl⟩ := Option.map_eq_some_iff.1 eq
    obtain ⟨after, rfl, length⟩ := ih taken
    exact ⟨after, rfl, by rw [byteLength_cons]; omega⟩
  | case4 => cases eq

/-- A span cuts a slice out of the text exactly when both its ends are boundaries. -/
theorem exists_slice_iff {s : Span} :
    (∃ slice, s.slice? source = some slice) ↔ Boundary source s.start ∧ Boundary source s.stop := by
  constructor
  · rintro ⟨slice, cut⟩
    obtain ⟨rest, dropped, taken⟩ := Option.bind_eq_some_iff.1 cut
    obtain ⟨before, rfl, start⟩ := dropBytes?_eq_some dropped
    obtain ⟨after, rfl, width⟩ := takeBytes?_eq_some taken
    have ordered := s.ordered
    exact ⟨⟨before, _, rfl, start⟩, ⟨before ++ slice, after, by simp, by simp; omega⟩⟩
  · rintro ⟨start, stop⟩
    exact exists_slice start stop

end Text

/-! ### Faults of one node -/

section Spans

variable {parent : Span} {spans : List Span} {cursor stop : Nat}

theorem follow_iff :
    Follow cursor spans stop ↔ cursor ≤ stop ∧ (∀ s ∈ spans, cursor ≤ s.start ∧ s.stop ≤ stop) ∧
      spans.Pairwise fun s s' => s.stop ≤ s'.start := by
  induction spans generalizing cursor with
  | nil => simp [Follow]
  | cons s rest ih =>
    have ordered := s.ordered
    rw [Follow, ih, List.forall_mem_cons, List.pairwise_cons]
    constructor
    · rintro ⟨before, le, inside, apart⟩
      refine ⟨by omega, ⟨⟨before, le⟩, fun s' mem => ?_⟩, fun s' mem => (inside s' mem).1, apart⟩
      have := inside s' mem
      omega
    · rintro ⟨-, ⟨⟨before, le⟩, inside⟩, after, apart⟩
      exact ⟨before, le, fun s' mem => ⟨after s' mem, (inside s' mem).2⟩, apart⟩

/-- No child is misplaced exactly when the children follow one another up to the end of their
parent. -/
theorem firstMisplaced_eq_none_iff (start_le : parent.start ≤ cursor) (le : cursor ≤ parent.stop) :
    firstMisplaced parent cursor spans = none ↔ Follow cursor spans parent.stop := by
  refine ⟨fun none => ?_, firstMisplaced_eq_none start_le⟩
  induction spans generalizing cursor with
  | nil => exact le
  | cons s rest ih =>
    have ordered := s.ordered
    rw [firstMisplaced] at none
    split at none
    · cases none
    · rename_i placed
      have placed : cursor ≤ s.start ∧ parent.start ≤ s.start ∧ s.stop ≤ parent.stop := by
        simpa [Span.encloses] using placed
      exact ⟨placed.1, ih (by omega) placed.2.2 none⟩

theorem mem_of_firstMisplaced {child : Span}
    (found : firstMisplaced parent cursor spans = some child) : child ∈ spans := by
  induction spans generalizing cursor with
  | nil => cases found
  | cons s rest ih =>
    rw [firstMisplaced] at found
    split at found
    · obtain rfl := Option.some.inj found
      exact List.mem_cons_self
    · exact List.mem_cons_of_mem s (ih found)

end Spans

namespace Node

variable {κ : Type} {source : List Char} {t u : Node κ} {fault : SpanFault}

theorem firstMisplaced_childSpans_iff (u : Node κ) :
    firstMisplaced u.label.span u.label.span.start u.childSpans = none ↔
      Follow u.label.span.start u.childSpans u.label.span.stop :=
  firstMisplaced_eq_none_iff (Nat.le_refl _) u.label.span.ordered

/-- What the check asks of one node. -/
theorem ownFault?_eq_none_iff :
    ownFault? source u = none ↔ u.label.span.slice? source = some u.label.code.toList ∧
      Follow u.label.span.start u.childSpans u.label.span.stop ∧
        tiles u.label.span.start u.label.span.stop
          ((u.label.gaps ++ u.childSpans).mergeSort Span.precedes) = true := by
  rw [← firstMisplaced_childSpans_iff]
  unfold ownFault?
  dsimp only
  cases cut : u.label.span.slice? source with
  | none => simp
  | some slice =>
    have same : String.ofList slice = u.label.code ↔ slice = u.label.code.toList :=
      ⟨fun eq => by rw [← eq, String.toList_ofList], fun eq => by rw [eq, String.ofList_toList]⟩
    rw [Option.some.injEq, ← same]
    by_cases code : String.ofList slice = u.label.code
    · cases firstMisplaced u.label.span u.label.span.start u.childSpans <;> simp [code]
    · simp [code]

theorem validate_eq_ok_iff :
    t.validate source = .ok () ↔ ∀ u ∈ t.subtrees, ownFault? source u = none := by
  rw [← List.findSome?_eq_none_iff, validate]
  split <;> simp [*]

theorem validate_eq_error_iff :
    t.validate source = .error fault ↔ t.subtrees.findSome? (ownFault? source) = some fault := by
  rw [validate]
  split <;> simp [*]

/-! ### Laid-out trees -/

/-- A node lies between characters of the source, and its children lie inside it one after another.
-/
structure WellPlaced (source : List Char) (u : Node κ) : Prop where
  first : Text.Boundary source u.label.span.start
  last : Text.Boundary source u.label.span.stop
  inside : ∀ s ∈ u.childSpans, u.label.span.encloses s = true
  ordered : u.childSpans.Pairwise fun s s' => s.stop ≤ s'.start

theorem wellPlaced_iff :
    WellPlaced source u ↔ (∃ slice, u.label.span.slice? source = some slice) ∧
      Follow u.label.span.start u.childSpans u.label.span.stop := by
  have encloses (s : Span) : u.label.span.encloses s = true ↔
      u.label.span.start ≤ s.start ∧ s.stop ≤ u.label.span.stop := by
    simp [Span.encloses]
  rw [Text.exists_slice_iff, follow_iff]
  simp only [← encloses]
  constructor
  · intro placed
    exact ⟨⟨placed.first, placed.last⟩, u.label.span.ordered, placed.inside, placed.ordered⟩
  · rintro ⟨⟨first, last⟩, -, inside, ordered⟩
    exact ⟨first, last, inside, ordered⟩

/-- A laid-out node has only the faults of its span and of its children's spans. -/
theorem ownFault?_layout_eq_some (found : ownFault? source (layout source u) = some fault) :
    ¬ WellPlaced source u ∧ (fault = .outOfSource u.label.span (Text.byteLength source) ∨
      ∃ s ∈ u.childSpans, fault = .misplaced u.label.span s) := by
  rw [wellPlaced_iff]
  cases cut : u.label.span.slice? source with
  | none =>
    simp only [ownFault?, label_layout, cut, Option.some.injEq] at found
    exact ⟨by simp, .inl found.symm⟩
  | some slice =>
    have placed := firstMisplaced_childSpans_iff u
    cases misplaced : firstMisplaced u.label.span u.label.span.start u.childSpans with
    | some child =>
      simp only [ownFault?, label_layout, childSpans_layout, cut, Option.getD_some, misplaced,
        ne_eq, not_true_eq_false, if_false, Option.some.injEq] at found
      refine ⟨?_, .inr ⟨child, mem_of_firstMisplaced misplaced, found.symm⟩⟩
      rintro ⟨-, follow⟩
      rw [placed.2 follow] at misplaced
      cases misplaced
    | none =>
      have tiled := tiles_mergeSort_gaps (placed.1 misplaced)
      simp [ownFault?, label_layout, childSpans_layout, cut, misplaced, tiled] at found

theorem ownFault?_layout_eq_none_iff :
    ownFault? source (layout source u) = none ↔ WellPlaced source u := by
  refine ⟨fun none => ?_, fun placed => ?_⟩
  · obtain ⟨cut, follow, -⟩ := ownFault?_eq_none_iff.1 none
    rw [label_layout, childSpans_layout] at follow
    rw [label_layout] at cut
    exact wellPlaced_iff.2 ⟨⟨_, cut⟩, follow⟩
  · exact ownFault?_layout placed.first placed.last (wellPlaced_iff.1 placed).2

theorem subtreesAll_layoutAll (source : List Char) (ts : List (Node κ)) :
    subtreesAll (layoutAll source ts) = (subtreesAll ts).map (layout source) := by
  induction ts using forest_induction with
  | nil => rfl
  | cons a us ts below rest =>
    rw [layoutAll, layout, subtreesAll, subtrees, below, rest, subtreesAll, subtrees,
      List.map_append, List.map_cons, layout]

theorem subtrees_layout (source : List Char) (t : Node κ) :
    (layout source t).subtrees = t.subtrees.map (layout source) := by
  simpa [layoutAll, subtreesAll] using subtreesAll_layoutAll source [t]

/-- A laid-out tree is accepted exactly when every node is well placed, and else the fault is one of
spans: a node that is no slice of the source, or a child that is out of place. -/
theorem validate_layout_iff_wellPlaced (source : List Char) (t : Node κ) :
    ((layout source t).validate source = .ok () ↔ ∀ u ∈ t.subtrees, WellPlaced source u) ∧
      ∀ fault, (layout source t).validate source = .error fault →
        ∃ u ∈ t.subtrees, ¬ WellPlaced source u ∧
          (fault = .outOfSource u.label.span (Text.byteLength source) ∨
            ∃ s ∈ childSpans u, fault = .misplaced u.label.span s) := by
  constructor
  · rw [validate_eq_ok_iff, subtrees_layout, List.forall_mem_map]
    exact forall₂_congr fun _ _ => ownFault?_layout_eq_none_iff
  · intro fault failed
    rw [validate_eq_error_iff, subtrees_layout] at failed
    obtain ⟨_, laid, found⟩ := List.exists_of_findSome?_eq_some failed
    obtain ⟨u, mem, rfl⟩ := List.mem_map.1 laid
    exact ⟨u, mem, ownFault?_layout_eq_some found⟩

end Node

/-! ### Places in lists of lists -/

section Places

variable {α β : Type} {p : β → Prop} [DecidablePred p]

/-- Where one element has a property, one place has it. -/
theorem existsUnique_of_countP {l : List β} (one : l.countP p = 1) :
    ∃! i : Nat, ∃ b, l[i]? = some b ∧ p b := by
  induction l with
  | nil => simp at one
  | cons b l ih =>
    rw [List.countP_cons] at one
    by_cases here : p b
    · have none : l.countP p = 0 := by simpa [here] using one
      refine ⟨0, ⟨b, rfl, here⟩, ?_⟩
      rintro (_ | i) ⟨c, at_place, holds⟩
      · rfl
      · rw [List.getElem?_cons_succ] at at_place
        have := List.countP_eq_zero.1 none c (List.mem_of_getElem? at_place)
        simp [holds] at this
    · obtain ⟨i, ⟨c, at_place, holds⟩, only⟩ := ih (by simpa [here] using one)
      refine ⟨i + 1, ⟨c, at_place, holds⟩, ?_⟩
      rintro (_ | j) ⟨d, at_place, holds⟩
      · obtain rfl := Option.some.inj at_place
        exact absurd holds here
      · exact congrArg (· + 1) (only j ⟨d, at_place, holds⟩)

theorem existsUnique_of_countP_flatMap {l : List α} {f : α → List β}
    (one : (l.flatMap f).countP p = 1) :
    ∃! place : Nat × Nat, ∃ a b, l[place.1]? = some a ∧ (f a)[place.2]? = some b ∧ p b := by
  induction l with
  | nil => simp at one
  | cons a l ih =>
    rw [List.flatMap_cons, List.countP_append] at one
    have absent {bs : List β} (none : bs.countP p = 0) {b : β} (mem : b ∈ bs) : ¬ p b := by
      simpa using List.countP_eq_zero.1 none b mem
    obtain ⟨none, one⟩ | ⟨one, none⟩ : (f a).countP p = 0 ∧ (l.flatMap f).countP p = 1 ∨
        (f a).countP p = 1 ∧ (l.flatMap f).countP p = 0 := by omega
    · obtain ⟨⟨i, j⟩, ⟨a', b, at_list, at_place, holds⟩, only⟩ := ih one
      refine ⟨(i + 1, j), ⟨a', b, at_list, at_place, holds⟩, ?_⟩
      rintro ⟨_ | i', j'⟩ ⟨c, d, at_list, at_place, holds⟩
      · obtain rfl := Option.some.inj at_list
        exact absurd holds (absent none (List.mem_of_getElem? at_place))
      · obtain ⟨rfl, rfl⟩ := Prod.mk.inj (only (i', j') ⟨c, d, at_list, at_place, holds⟩)
        rfl
    · obtain ⟨j, ⟨b, at_place, holds⟩, only⟩ := existsUnique_of_countP one
      refine ⟨(0, j), ⟨a, b, rfl, at_place, holds⟩, ?_⟩
      rintro ⟨_ | i', j'⟩ ⟨c, d, at_list, at_place, holds⟩
      · obtain rfl := Option.some.inj at_list
        rw [only j' ⟨d, at_place, holds⟩]
      · rw [List.getElem?_cons_succ] at at_list
        have mem := List.mem_flatMap.2
          ⟨c, List.mem_of_getElem? at_list, List.mem_of_getElem? at_place⟩
        exact absurd holds (absent none mem)

end Places

/-! ### Owners of bytes -/

/-- A span holds the offsets from its start on up to its stop. -/
instance : Membership Nat Span where
  mem s offset := s.start ≤ offset ∧ offset < s.stop

namespace Span

variable {s : Span} {offset : Nat}

theorem mem_iff : offset ∈ s ↔ s.start ≤ offset ∧ offset < s.stop := Iff.rfl

instance : Decidable (offset ∈ s) := inferInstanceAs (Decidable (_ ∧ _))

end Span

section Tilings

variable {spans : List Span} {cursor stop offset : Nat}

theorem le_of_tiles (tiled : tiles cursor stop spans = true) : cursor ≤ stop := by
  induction spans generalizing cursor with
  | nil => exact (beq_iff_eq.1 tiled).le
  | cons s rest ih =>
    rw [tiles, Bool.and_eq_true, beq_iff_eq] at tiled
    have := s.ordered
    have := ih tiled.2
    omega

/-- The pieces of a tiling end where it ends, or before. -/
theorem stop_le_of_tiles (tiled : tiles cursor stop spans = true) {s : Span} (mem : s ∈ spans) :
    s.stop ≤ stop := by
  induction spans generalizing cursor with
  | nil => cases mem
  | cons r rest ih =>
    rw [tiles, Bool.and_eq_true] at tiled
    rcases List.mem_cons.1 mem with rfl | mem
    · exact le_of_tiles tiled.2
    · exact ih tiled.2 mem

/-- Of the pieces of a tiling just one holds an offset between the ends. -/
theorem countP_of_tiles (tiled : tiles cursor stop spans = true) :
    spans.countP (offset ∈ ·) = if cursor ≤ offset ∧ offset < stop then 1 else 0 := by
  induction spans generalizing cursor with
  | nil =>
    have := beq_iff_eq.1 tiled
    rw [List.countP_nil, if_neg (by omega)]
  | cons s rest ih =>
    rw [tiles, Bool.and_eq_true, beq_iff_eq] at tiled
    have := s.ordered
    have := le_of_tiles tiled.2
    rw [List.countP_cons, ih tiled.2]
    simp only [Span.mem_iff, decide_eq_true_eq]
    split_ifs <;> omega

end Tilings

namespace Node

variable {κ : Type} {source : List Char} {t u : Node κ} {offset : Nat}

/-- The gaps and the children of a node without fault share out the bytes of its span. -/
theorem countP_gaps (offset : Nat) (valid : ownFault? source u = none) :
    u.label.gaps.countP (offset ∈ ·) + u.childSpans.countP (offset ∈ ·)
      = if offset ∈ u.label.span then 1 else 0 := by
  obtain ⟨-, -, tiled⟩ := ownFault?_eq_none_iff.1 valid
  rw [← List.countP_append, ← (List.mergeSort_perm _ Span.precedes).countP_eq]
  exact countP_of_tiles tiled

/-- Going down a forest, each byte of its spans ends up in one gap. -/
theorem countP_flatMap_gaps {ts : List (Node κ)} (offset : Nat)
    (valid : ∀ u ∈ subtreesAll ts, ownFault? source u = none) :
    ((preorderAll ts).flatMap (·.gaps)).countP (offset ∈ ·)
      = (ts.map fun t : Node κ => t.label.span).countP (offset ∈ ·) := by
  induction ts using forest_induction with
  | nil => rfl
  | cons a us ts below rest =>
    rw [subtreesAll, List.forall_mem_append, subtrees, List.forall_mem_cons] at valid
    obtain ⟨⟨own, valid_below⟩, valid_rest⟩ := valid
    have shared := countP_gaps offset own
    rw [childSpans, children_node, label_node, ← below valid_below] at shared
    rw [preorderAll, preorder_node, List.flatMap_append, List.flatMap_cons, List.countP_append,
      List.countP_append, rest valid_rest, shared, List.map_cons, List.countP_cons, label_node,
      Nat.add_comm]
    simp only [decide_eq_true_eq]

/-- The byte at an offset lies in a gap, given by the number of its node in preorder and its place
among the gaps of that node. -/
def OwnedBy (t : Node κ) (offset : Nat) (owner : Nat × Nat) : Prop :=
  ∃ a s, t.preorder[owner.1]? = some a ∧ a.gaps[owner.2]? = some s ∧ offset ∈ s

/-- In an accepted tree the code of every node is its slice of the source. Every byte of the tree's
span lies in one gap of one node, and no other byte lies in any gap. -/
theorem validate_sound (ok : t.validate source = .ok ()) :
    (∀ u ∈ t.subtrees, u.label.span.slice? source = some u.label.code.toList) ∧
      (∀ offset ∈ t.label.span, ∃! owner, t.OwnedBy offset owner) ∧
        ∀ offset ∉ t.label.span, ∀ owner, ¬ t.OwnedBy offset owner := by
  have valid := validate_eq_ok_iff.1 ok
  have shared (offset : Nat) : (t.preorder.flatMap (·.gaps)).countP (offset ∈ ·)
      = if offset ∈ t.label.span then 1 else 0 := by
    have valid : ∀ u ∈ subtreesAll [t], ownFault? source u = none := by
      simpa [subtreesAll] using valid
    simpa [preorderAll, List.countP_singleton] using countP_flatMap_gaps offset valid
  refine ⟨fun u mem => (ownFault?_eq_none_iff.1 (valid u mem)).1, fun offset inside => ?_,
    fun offset outside owner => ?_⟩
  · have one := shared offset
    rw [if_pos inside] at one
    exact existsUnique_of_countP_flatMap one
  · rintro ⟨a, s, at_tree, at_place, holds⟩
    have none := shared offset
    rw [if_neg outside, List.countP_eq_zero] at none
    have mem := List.mem_flatMap.2
      ⟨a, List.mem_of_getElem? at_tree, List.mem_of_getElem? at_place⟩
    simpa [holds] using none s mem

/-- A construct of some code from an offset on, its gaps given by their ends. -/
def placed (code : String) (start : Nat) (gaps : List (Nat × Nat)) : Construct Unit :=
  { kind := default, code
    span := ⟨start, start + Text.byteLength code.toList, Nat.le_add_right _ _⟩
    gaps := gaps.filterMap fun ends => Span.ofEnds? ends.1 ends.2 }

/-- A sum with its gaps out of order and an empty one among them, and an empty construct between
its operands. -/
def bracketedSum : Node Unit :=
  node (placed "x+(y)" 0 [(4, 5), (1, 3), (3, 3)])
    [leaf (placed "x" 0 [(0, 1)]), leaf (placed "" 1 [(1, 1)]), leaf (placed "y" 3 [(3, 4)])]

/-- The operator and the bracket after it belong to the second gap of the sum alone. -/
theorem validate_sound_bracketedSum :
    bracketedSum.validate "x+(y)".toList = .ok () ∧
      (∀ owner, bracketedSum.OwnedBy 2 owner ↔ owner = (0, 1)) ∧
        ∀ owner, ¬ bracketedSum.OwnedBy 5 owner := by
  have ok : bracketedSum.validate "x+(y)".toList = .ok () := by
    cbv
  obtain ⟨-, owned, free⟩ := validate_sound ok
  have owner : bracketedSum.OwnedBy 2 (0, 1) := ⟨_, _, rfl, rfl, by decide⟩
  refine ⟨ok, fun other => ⟨fun owned' => ?_, fun eq => eq ▸ owner⟩, free 5 (by decide)⟩
  exact (owned 2 (by decide)).unique owned' owner

end Node

end SureCode
