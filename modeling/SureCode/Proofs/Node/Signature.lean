import Mathlib
import SureCode.Proofs.Node.Layout
import SureCode.Proofs.Token.Words

/-!
# Signatures by words

What a laid-out node contributes by itself is, white space aside, the words of its stretch of tokens
that are in none of its children. So the signatures of a tree can be read off its outline and the
words of the text (`views_layoutAll`), wherever the words stand.
-/

namespace SureCode

open SureCode.Tree

variable {κ : Type} {source seen : List Char} {words : List (List Char)} {spans : Nat → Span}

/-- What a construct shows: its kind, its signature, and whether it is deleted. -/
def Construct.view (source : List Char) (a : Construct κ) : Kind × String × Bool :=
  (a.kind, a.signature source, a.isDeleted)

/-! ### Places between words -/

/-- A place in a text before which there are so many words. -/
structure Edge (source seen : List Char) (words : List (List Char)) (spans : Nat → Span)
    (n i : Nat) : Prop where
  before : Text.Before source n (seen ++ Text.withoutBlanks (words.take i).flatten)
  behind : ∀ j < i, (spans j).stop ≤ n
  ahead : ∀ j, i ≤ j → j < words.length → n ≤ (spans j).start

namespace Reading

variable {i : Nat} (reading : Reading source seen words spans)

include reading

theorem edge_start (lt : i < words.length) : Edge source seen words spans (spans i).start i where
  before := reading.start i lt
  behind _ before := reading.orderly.apart before lt
  ahead j le bound := by
    rcases le.eq_or_lt with rfl | lt
    · exact le_rfl
    · exact (reading.orderly.start_lt i j lt bound).le

theorem edge_stop (lt : i < words.length) :
    Edge source seen words spans (spans i).stop (i + 1) where
  before := reading.stop i lt
  behind j le := by
    rcases (Nat.lt_succ_iff.1 le).eq_or_lt with rfl | before
    · exact le_rfl
    · exact (reading.orderly.stop_lt j i before lt).le
  ahead _ le bound := reading.orderly.apart le bound

end Reading

/-- So many words from a number on, white space aside. -/
def content (words : List (List Char)) (first count : Nat) : List Char :=
  Text.withoutBlanks ((words.drop first).take count).flatten

/-- The text of some spans, white space aside. -/
def spelled (source : List Char) (gaps : List Span) : List Char :=
  Text.withoutBlanks (gaps.flatMap fun gap => (gap.slice? source).getD [])

/-- Between two places there are the words from the one to the other. -/
theorem Edge.spelled_between {n m i j : Nat} (reading : Reading source seen words spans)
    (first : Edge source seen words spans n i) (last : Edge source seen words spans m j)
    (le : i ≤ j) (bound : j ≤ words.length) :
    spelled source (between n m) = content words i (j - i) := by
  unfold between
  split
  · rename_i lt
    let span : Span := ⟨n, m, lt.le⟩
    obtain ⟨slice, cut, after⟩ := Text.Before.exists_slice (s := span) first.before
      last.before.boundary
    have same := after.unique last.before
    obtain ⟨count, rfl⟩ := Nat.exists_eq_add_of_le le
    rw [List.take_add, List.flatten_append, Text.withoutBlanks_append, ← List.append_assoc] at same
    rw [spelled, List.flatMap_singleton, cut, Option.getD_some, List.append_cancel_left same,
      content, Nat.add_sub_cancel_left]
  · rename_i ge
    rcases le.eq_or_lt with rfl | lt
    · simp [spelled, content, Text.withoutBlanks]
    · have lo := first.ahead i le_rfl (by omega)
      have hi := last.behind i lt
      have := reading.orderly.nonempty i (by omega)
      omega

/-! ### Signatures -/

/-- The words between two numbers that are in none of some parts, white space aside. -/
def ownWords (words : List (List Char)) (cursor stop : Nat) : List (Tree Part) → List Char
  | [] => content words cursor (stop - cursor)
  | node p _ :: ps =>
    content words cursor (p.first - cursor) ++ ownWords words (p.first + p.count) stop ps

mutual

/-- What the node of a part shows, and what the nodes below it do. -/
def views (words : List (List Char)) : Tree Part → Tree (Kind × String × Bool)
  | node p below =>
    node (p.kind, String.ofList (ownWords words p.first (p.first + p.count) below), false)
      (viewsAll words below)

/-- What the nodes of some parts show. -/
def viewsAll (words : List (List Char)) : List (Tree Part) → List (Tree (Kind × String × Bool))
  | [] => []
  | p :: ps => views words p :: viewsAll words ps

end

theorem spelled_append (gaps gaps' : List Span) :
    spelled source (gaps ++ gaps') = spelled source gaps ++ spelled source gaps' := by
  rw [spelled, List.flatMap_append, Text.withoutBlanks_append]
  rfl

/-- The ends of a part in a text. -/
theorem Reading.edges (reading : Reading source seen words spans) {p : Part} (nonempty : 0 < p.count)
    (bound : p.first + p.count ≤ words.length) :
    Edge source seen words spans (p.span spans).start p.first ∧
      Edge source seen words spans (p.span spans).stop (p.first + p.count) := by
  obtain ⟨start, stop⟩ := reading.orderly.cover_eq p.first (p.first + p.count - 1) (by omega) (by omega)
  have last := reading.edge_stop (i := p.first + p.count - 1) (by omega)
  rw [Nat.sub_add_cancel (by omega)] at last
  rw [Part.span, start, stop]
  exact ⟨reading.edge_start (by omega), last⟩

/-- Between parts there are the words that are in none of them. -/
theorem spelled_gapsFrom (reading : Reading source seen words spans) {n m i j : Nat}
    {ps : List (Tree Part)} (within : Within i ps j) (bound : j ≤ words.length)
    (first : Edge source seen words spans n i) (last : Edge source seen words spans m j) :
    spelled source (gapsFrom n m (ps.map fun t => t.label.span spans)) = ownWords words i j ps := by
  induction within generalizing n with
  | nil le =>
    rw [List.map_nil, gapsFrom_nil, ownWords]
    exact first.spelled_between reading last le bound
  | @cons i j p below after before nonempty _ rest _ ih =>
    have upTo := rest.le
    obtain ⟨begins, ends⟩ := reading.edges nonempty (upTo.trans bound)
    have le : n ≤ (p.span spans).start := by
      obtain ⟨start, -⟩ := reading.orderly.cover_eq p.first (p.first + p.count - 1) (by omega) (by omega)
      rw [Part.span, start]
      exact first.ahead p.first before (by omega)
    rw [List.map_cons, label_node, gapsFrom_cons le, spelled_append, ownWords,
      first.spelled_between reading begins before (by omega), ih bound ends last]

/-- A span that is not empty and has no children is its own gap. -/
theorem gaps_eq_gapsFrom {span : Span} (nonempty : span.start < span.stop) (children : List Span) :
    gaps span children = gapsFrom span.start span.stop children := by
  cases children with
  | nil =>
    rw [gapsFrom_nil, between, dif_pos nonempty]
    rfl
  | cons => rfl

/-- The construct of a part, laid out over its parts. -/
theorem view_layout (below : List (Tree Part)) (p : Part)
    (nonempty : (p.span spans).start < (p.span spans).stop) :
    Construct.view source (Node.layout source
        (node (p.construct (κ := κ) spans) (below.map (Tree.map (Part.construct spans))))).label
      = (p.kind, String.ofList (spelled source (gapsFrom (p.span spans).start (p.span spans).stop
          (below.map fun t => t.label.span spans))), false) := by
  have children : (below.map (Tree.map (Part.construct (κ := κ) spans))).map
      (fun (t : Node κ) => t.label.span) = below.map fun t => t.label.span spans := by
    rw [List.map_map]
    exact List.map_congr_left fun t _ => by cases t; simp [Part.construct]
  rw [Node.label_layout, Construct.view, Construct.signature]
  rw [label_node, Node.childSpans, children_node, children, ← gaps_eq_gapsFrom nonempty]
  rfl

/-- What the nodes of an outline show once they are laid out depends on the words only. -/
theorem views_layoutAll (reading : Reading source seen words spans) {i j : Nat}
    {ps : List (Tree Part)} (within : Within i ps j) (bound : j ≤ words.length) :
    (Node.layoutAll source (ps.map (Tree.map (Part.construct (κ := κ) spans)))).map
      (Tree.map (Construct.view source)) = viewsAll words ps := by
  induction within with
  | nil => rfl
  | @cons i j p below after _ nonempty inside rest inside_ih rest_ih =>
    have upTo := rest.le
    obtain ⟨begins, ends⟩ := reading.edges nonempty (upTo.trans bound)
    have start_lt : (p.span spans).start < (p.span spans).stop :=
      (begins.ahead p.first le_rfl (by omega)).trans_lt
        ((reading.orderly.nonempty p.first (by omega)).trans_le
          (ends.behind p.first (by omega)))
    have own := @view_layout κ source spans below p start_lt
    rw [spelled_gapsFrom reading inside (upTo.trans bound) begins ends] at own
    rw [List.map_cons, Tree.map_node, Node.layoutAll, List.map_cons, rest_ih bound, viewsAll, views]
    rw [Node.layout] at own ⊢
    rw [label_node] at own
    rw [Tree.map_node, own, inside_ih (upTo.trans bound)]

end SureCode
