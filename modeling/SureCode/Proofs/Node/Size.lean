import Mathlib
import SureCode.Proofs.Faultless

/-!
# The number of nodes of a text

A tree has fewer than two nodes for every lexeme of its text: a construct with just one child is a
node of its own only if it has a lexeme that its child has not. So the number of nodes is bounded by
the length of the text (`size_lt_of_ofText?`).
-/

namespace SureCode

open SureCode.Tree

variable {κ : Type}

namespace Mark

/-- The nodes of a stretch with so many lexemes are few. Where there are as many as can be, the
stretch is no wider than its only node. -/
structure Sparse (count : Nat) (stretch : Option Span × List (Node κ)) : Prop where
  empty : count = 0 → stretch.1 = none
  few : sizeAll stretch.2 + stretch.2.length ≤ 2 * count
  tight : ∀ t, stretch.2 = [t] → t.size + 1 = 2 * count → stretch.1 = some t.label.span

namespace Sparse

variable {count count' : Nat} {span span' : Option Span} {ts us : List (Node κ)}

theorem cover (first : Sparse count (span, ts)) (second : Sparse count' (span', us)) :
    Sparse (count + count') (coverSpan span span', ts ++ us) := by
  obtain ⟨empty, few, tight⟩ := first
  obtain ⟨empty', few', tight'⟩ := second
  dsimp only at empty few tight empty' few' tight'
  refine ⟨fun zero => ?_, ?_, fun t single full => ?_⟩
  · change coverSpan span span' = none
    rw [empty (by omega), empty' (by omega)]
    rfl
  · change sizeAll (ts ++ us) + (ts ++ us).length ≤ 2 * (count + count')
    rw [sizeAll_append, List.length_append]
    omega
  · change coverSpan span span' = _
    obtain ⟨rfl, rfl⟩ | ⟨rfl, rfl⟩ := List.append_eq_singleton_iff.1 single
    · rw [sizeAll_singleton, List.length_singleton] at few'
      rw [empty (by omega)]
      exact tight' t rfl (by omega)
    · rw [sizeAll_singleton, List.length_singleton] at few
      rw [empty' (by omega), tight t rfl (by omega)]
      rfl

/-- A construct adds no node, or one that has a lexeme of its own. -/
theorem settle (kind : Kind) (sparse : Sparse count (span, ts)) :
    Sparse count (span, settle kind span ts) := by
  cases span with
  | none => exact sparse
  | some s =>
    obtain ⟨empty, few, tight⟩ := sparse
    dsimp only at few tight
    have nonempty : count ≠ 0 := fun zero => nomatch empty zero
    have around (room : sizeAll ts + 2 ≤ 2 * count) :
        Sparse (κ := κ) count (some s, [node { kind, code := "", span := s } ts]) := by
      refine ⟨empty, ?_, fun t single _ => ?_⟩
      · rw [sizeAll_singleton, size_node, List.length_singleton]
        exact room
      · cases single
        rfl
    unfold Mark.settle
    dsimp only
    split
    · exact ⟨empty, few, tight⟩
    split
    · rename_i t
      rw [sizeAll_singleton, List.length_singleton] at few
      split
      · exact ⟨empty, by rwa [sizeAll_singleton], tight⟩
      · rename_i apart
        have wider : t.size + 1 ≠ 2 * count := fun full =>
          apart (Option.some.inj (tight t rfl full)).symm
        refine around ?_
        rw [sizeAll_singleton]
        omega
    · rename_i several
      refine around ?_
      match ts with
      | [] =>
        rw [sizeAll]
        omega
      | [t] => exact absurd rfl (several t)
      | t :: u :: ts =>
        rw [List.length_cons, List.length_cons] at few
        omega

end Sparse

theorem sparse_token (t : Token) : Sparse (κ := κ) (lexemes [t]).length (nodes (.token t)) := by
  rw [nodes, lexemes, List.filter_singleton]
  cases t.kind.isLayout
  · exact ⟨nofun, Nat.zero_le _, nofun⟩
  · exact ⟨fun _ => rfl, Nat.zero_le _, nofun⟩

mutual

/-- The nodes of a mark are few for its lexemes. -/
theorem sparse_nodes (m : Mark) : Sparse (κ := κ) (lexemes m.tokens).length (nodes m) := by
  match m with
  | .token t =>
    rw [tokens]
    exact sparse_token t
  | .construct kind parts =>
    rw [tokens, nodes]
    exact (sparse_nodesAll parts).settle kind

/-- The nodes of some marks are few for their lexemes. -/
theorem sparse_nodesAll (ms : List Mark) :
    Sparse (κ := κ) (lexemes (tokensAll ms)).length (nodesAll ms) := by
  match ms with
  | [] =>
    rw [nodesAll]
    exact ⟨fun _ => rfl, Nat.zero_le _, nofun⟩
  | m :: ms =>
    rw [tokensAll, lexemes_append, List.length_append, nodesAll]
    exact (sparse_nodes m).cover (sparse_nodesAll ms)

end

end Mark

/-! ### Lexemes and characters -/

/-- Lexemes that follow one another and have text are no more than the offsets that they take. -/
theorem length_lexemes_le {source : List Char} {start stop : Nat} {ts : List Token}
    (laid : Laid source start ts stop)
    (nonempty : ∀ t ∈ ts, t.kind.isLayout = false → t.span.start < t.span.stop) :
    start + (lexemes ts).length ≤ stop := by
  induction ts generalizing start with
  | nil => exact laid
  | cons t ts ih =>
    obtain ⟨here, others⟩ := List.forall_mem_cons.1 nonempty
    obtain ⟨before, -, -, rest⟩ := laid
    have after := ih rest others
    have ordered := t.span.ordered
    cases layout : t.kind.isLayout with
    | true =>
      rw [lexemes, List.filter_cons_of_neg (by simp [layout])]
      exact (Nat.add_le_add_right (before.trans ordered) _).trans after
    | false =>
      have wide := here layout
      rw [lexemes, List.filter_cons_of_pos (by simp [layout]), List.length_cons]
      change start + ((lexemes ts).length + 1) ≤ stop
      omega

/-- A text that reading takes no exception to has no more lexemes than bytes. -/
theorem length_lexemes_tokenize_le {text : String}
    (clear : (Grammar.State.read (tokenize text)).faults = []) :
    (lexemes (tokenize text)).length ≤ Text.byteLength text.toList := by
  have counted := length_lexemes_le (laid_tokenize text) fun _ mem => nonempty_of_faultless clear mem
  rwa [Nat.zero_add] at counted

namespace Node

mutual

theorem size_layout (source : List Char) (t : Node κ) : (t.layout source).size = t.size := by
  match t with
  | node a ts => rw [layout, size_node, size_node, sizeAll_layoutAll source ts]

theorem sizeAll_layoutAll (source : List Char) (ts : List (Node κ)) :
    sizeAll (layoutAll source ts) = sizeAll ts := by
  match ts with
  | [] => rw [layoutAll]
  | t :: ts => rw [layoutAll, sizeAll, sizeAll, size_layout source t, sizeAll_layoutAll source ts]

end

/-- A tree of a text that parses has fewer than two nodes for every byte of the text. -/
theorem size_lt_of_ofText? {text : String} {t : Node κ} (parsed : ofText? text = some t) :
    t.size < 2 * Text.byteLength text.toList := by
  rw [ofText?, Parse.ok?] at parsed
  split at parsed
  · cases parsed
  · rename_i clear
    rw [Parse.hasErrors, diagnostics_parse] at clear
    have faultless : (Grammar.State.read (tokenize text)).faults = [] := by simpa using clear
    have lexemes_le := length_lexemes_tokenize_le faultless
    have taken_le := ((sublist_taken text).filter fun t => !t.kind.isLayout).length_le
    obtain ⟨root, rest, nodes, rfl⟩ := exists_of_tree_parse parsed
    have few := (Mark.sparse_nodesAll (κ := κ) (Grammar.Log.read (tokenize text)).marks).few
    rw [nodes, sizeAll, List.length_cons] at few
    rw [size_layout]
    change (lexemes (taken text)).length ≤ (lexemes (tokenize text)).length at taken_le
    change _ ≤ 2 * (lexemes (taken text)).length at few
    omega

end Node

end SureCode
