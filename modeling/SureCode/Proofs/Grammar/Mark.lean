import Mathlib
import SureCode.Grammar.Mark
import SureCode.Proofs.Grammar.Run
import SureCode.Proofs.Node.Layout

/-!
# The nodes of marks are nested

Marks over tokens that follow one another come to nodes that do, each inside its parent
(`spanned_nodesAll`). What has no text comes to no node.
-/

namespace SureCode.Mark

open SureCode.Tree

variable {κ : Type} {source : List Char} {start middle stop : Nat}

/-- Nodes lie nested in a span between two offsets whose ends are between characters; without a span
there are none. -/
def Spanned (source : List Char) (start stop : Nat) : Option Span × List (Node κ) → Prop
  | (none, ts) => start ≤ stop ∧ ts = []
  | (some s, ts) => start ≤ s.start ∧ s.stop ≤ stop ∧ Text.Boundary source s.start ∧
      Text.Boundary source s.stop ∧ Nested source s.start ts s.stop

namespace Spanned

variable {span span' : Option Span} {ts us : List (Node κ)}

theorem mono {start' stop' : Nat} (spanned : Spanned source start stop (span, ts))
    (before : start' ≤ start) (after : stop ≤ stop') : Spanned source start' stop' (span, ts) := by
  cases span with
  | none => exact ⟨(before.trans spanned.1).trans after, spanned.2⟩
  | some s =>
    obtain ⟨first, last, rest⟩ := spanned
    exact ⟨before.trans first, last.trans after, rest⟩

/-- The span around two stretches is around all their nodes. -/
theorem cover (first : Spanned source start middle (span, ts))
    (second : Spanned source middle stop (span', us)) :
    Spanned source start stop (coverSpan span span', ts ++ us) := by
  cases span with
  | none =>
    obtain ⟨le, rfl⟩ := first
    exact second.mono le (Nat.le_refl stop)
  | some s =>
    cases span' with
    | none =>
      obtain ⟨le, rfl⟩ := second
      rw [List.append_nil]
      exact first.mono (Nat.le_refl start) le
    | some s' =>
      obtain ⟨start_le, le, first_start, first_stop, nested⟩ := first
      obtain ⟨le', stop_le, second_start, second_stop, nested'⟩ := second
      have ordered := s.ordered
      have ordered' := s'.ordered
      have start_eq : min s.start s'.start = s.start := Nat.min_eq_left (by omega)
      have stop_eq : max s.stop s'.stop = s'.stop := Nat.max_eq_right (by omega)
      have apart : s.stop ≤ s'.start := le.trans le'
      change start ≤ min s.start s'.start ∧ max s.stop s'.stop ≤ stop ∧
        Text.Boundary source (min s.start s'.start) ∧ Text.Boundary source (max s.stop s'.stop) ∧
          Nested source (min s.start s'.start) (ts ++ us) (max s.stop s'.stop)
      rw [start_eq, stop_eq]
      exact ⟨start_le, stop_le, first_start, second_stop,
        nested.append (Nested.append (.nil apart) nested')⟩

/-- A construct is a node around its children, or its children alone. -/
theorem settle (kind : Kind) (spanned : Spanned source start stop (span, ts)) :
    Spanned source start stop (span, settle kind span ts) := by
  cases span with
  | none => exact spanned
  | some s =>
    obtain ⟨start_le, stop_le, first, last, nested⟩ := spanned
    have around : Nested source s.start [node { kind, code := "", span := s } ts] s.stop :=
      .cons (Nat.le_refl _) first last nested (.nil (Nat.le_refl _))
    refine ⟨start_le, stop_le, first, last, ?_⟩
    unfold Mark.settle
    dsimp only
    split
    · exact nested
    split
    · split
      · exact nested
      · exact around
    · exact around

end Spanned

theorem spanned_token {t : Token} (laid : Laid source start [t] stop) :
    Spanned source start stop (nodes (κ := κ) (.token t)) := by
  obtain ⟨before, first, last, after⟩ := laid
  have ordered := t.span.ordered
  rw [nodes]
  split
  · exact ⟨(before.trans ordered).trans after, rfl⟩
  · exact ⟨before, after, first, last, .nil ordered⟩

mutual

/-- The nodes of a mark over tokens in order are nested. -/
theorem spanned_nodes {start stop : Nat} (m : Mark) (laid : Laid source start m.tokens stop) :
    Spanned source start stop (nodes (κ := κ) m) := by
  match m with
  | .token t =>
    rw [tokens] at laid
    exact spanned_token laid
  | .construct kind parts =>
    rw [tokens] at laid
    rw [nodes]
    exact (spanned_nodesAll parts laid).settle kind

/-- The nodes of marks over tokens in order are nested. -/
theorem spanned_nodesAll {start stop : Nat} (ms : List Mark)
    (laid : Laid source start (tokensAll ms) stop) :
    Spanned source start stop (nodesAll (κ := κ) ms) := by
  match ms with
  | [] =>
    rw [tokensAll] at laid
    exact ⟨laid, rfl⟩
  | m :: ms =>
    rw [tokensAll] at laid
    obtain ⟨middle, first, rest⟩ := laid.split
    rw [nodesAll]
    exact (spanned_nodes m first).cover (spanned_nodesAll ms rest)

end

theorem exists_nested {start stop : Nat} (ms : List Mark)
    (laid : Laid source start (tokensAll ms) stop) :
    ∃ first last, Nested source first (nodesAll (κ := κ) ms).2 last := by
  have spanned := spanned_nodesAll (κ := κ) ms laid
  generalize nodesAll (κ := κ) ms = pair at spanned
  obtain ⟨span, ts⟩ := pair
  cases span with
  | none =>
    obtain ⟨le, rfl⟩ := spanned
    exact ⟨start, stop, .nil le⟩
  | some s =>
    obtain ⟨-, -, -, -, nested⟩ := spanned
    exact ⟨s.start, s.stop, nested⟩

end SureCode.Mark
