import Mathlib
import SureCode.Proofs.Grammar.Faultless
import SureCode.Proofs.Grammar.Shape
import SureCode.Proofs.Token.Words

/-!
# Texts without faults

The tree of a text without faults is the outline of its marks, laid out with the spans of their tokens
(`tree_of_faultless`). So the kinds of its tokens and a run on them give its tree, as long as the
places in its log can be told apart (`parse_of_runs`).
-/

namespace SureCode

open SureCode.Grammar

variable {κ : Type} {text : String}

/-- A token that is no layout has text where reading reports nothing. -/
theorem nonempty_of_faultless (none : (State.read (tokenize text)).faults = []) {t : Token}
    (mem : t ∈ tokenize text) (lexeme : t.kind.isLayout = false) : t.span.start < t.span.stop := by
  rcases texts_tokenize mem with layout | nonempty | ⟨l, -, -, -, width, c, -, -, -, rfl⟩
  · exact absurd layout (by simp [lexeme])
  · exact nonempty
  · have sound := isSound_of_faultless none mem
    cases sound

/-- The tokens under the marks of a text. -/
def taken (text : String) : List Token := Mark.tokensAll (Log.read (tokenize text)).marks

theorem sublist_taken (text : String) : (taken text).Sublist (tokenize text) :=
  sublist_marks_read (ended_tokenize text)

/-- The outline of a text. -/
def outlineOf (text : String) : Nat × List (Tree Part) :=
  Mark.outlineAll 0 (Log.read (tokenize text)).marks

theorem outlineOf_eq (text : String) : (outlineOf text).1 = (lexemes (taken text)).length :=
  Mark.count_outlineAll 0 _

theorem orderly_taken (none : (State.read (tokenize text)).faults = []) :
    Orderly (spansOf (taken text)) (lexemes (taken text)).length :=
  orderly_spansOf (laid_marks text) fun _ mem =>
    nonempty_of_faultless none ((sublist_taken text).subset mem)

/-- The tree of a text without faults is its outline, with the spans of its tokens for numbers. -/
theorem tree_of_faultless (none : (State.read (tokenize text)).faults = []) :
    (parse (κ := κ) text).tree = (outlineOf text).2.head?.map fun p =>
      Node.layout text.toList (p.map (Part.construct (spansOf (taken text)))) := by
  have bound := outlineOf_eq text
  rw [outlineOf] at bound ⊢
  rw [tree_parse, Mark.nodesAll_eq_outline (orderly_taken none) 0 _ (numbered_spansOf _) (by omega)]
  cases (Mark.outlineAll 0 (Log.read (tokenize text)).marks).2 <;> rfl

/-- Where the places in its log can be told apart, all tokens of a text that are no layout are under
its marks. -/
theorem lexemes_taken (short : (Log.read (tokenize text)).events.length ≤ UInt32.size) :
    lexemes (taken text) = lexemes (tokenize text) := by
  have ended := ended_tokenize text
  obtain ⟨-, _, -, rfl, kind, ahead⟩ := Rule.exists_read ended
  have last : lexemes [(State.read (tokenize text)).current] = [] := by
    simp [lexemes, kind, Kind.isLayout]
  have all := congrArg lexemes (tokensAll_read ahead)
  rw [lexemes_append, last, List.append_nil] at all
  rw [taken, marks_read ended short, all]

/-- The kinds of the tokens of a text and a run on them give its faults, and its tree where the places
in its log can be told apart. -/
theorem parse_of_runs {kinds : List Kind} {marks : List Mark}
    (same : (tokenize text).map (·.kind) = kinds)
    (runs : Runs .moduleBody (.facing kinds .tombstone []) (.facing [.eof] .tombstone marks)) :
    (parse (κ := κ) text).diagnostics = [] ∧
      ((Log.read (tokenize text)).events.length ≤ UInt32.size →
        (parse (κ := κ) text).tree = (Mark.outlineAll 0 marks.reverse).2.head?.map fun p =>
          Node.layout text.toList (p.map (Part.construct (spansOf (tokenize text))))) := by
  have erased : (tokenize text).map Token.erased = kinds.map (Token.empty · 0) := by
    rw [← same, List.map_map]
    rfl
  have ended := ended_tokenize text
  have read := erased_read (tokenize text)
  have begun : Runs .moduleBody (.ofTokens ((tokenize text).map Token.erased))
      (.facing [.eof] .tombstone marks) := by
    rw [erased]
    exact runs
  rw [read_of_runs (ended.map Token.kind_erased) begun] at read
  have faults : (State.read (tokenize text)).faults.map Diagnostic.erased = [] :=
    congrArg State.faults read
  have none := List.map_eq_nil_iff.1 faults
  have built : (State.read (tokenize text)).built.map Mark.erased = marks :=
    congrArg State.built read
  refine ⟨by rw [diagnostics_parse, none, List.reverse_nil], fun short => ?_⟩
  have spans : spansOf (taken text) = spansOf (tokenize text) := by
    funext i
    rw [spansOf, lexemes_taken short, spansOf]
  rw [tree_of_faultless none, spans, outlineOf, marks_read ended short,
    ← Mark.outlineAll_map Token.kind_erased, List.map_reverse]
  exact congrArg (fun marks => (Mark.outlineAll 0 marks.reverse).2.head?.map _) built

/-! ### Kinds and codes -/

section Labels

open SureCode.Tree

variable {α β : Type}

mutual

/-- Layout keeps the kinds, and the codes are those of the spans. -/
theorem map_layout (f : Kind → String → β) (source : List Char) (t : Node κ) :
    (Node.layout source t).map (fun a => f a.kind a.code)
      = t.map fun a => f a.kind (String.ofList ((a.span.slice? source).getD [])) := by
  match t with
  | node a ts => rw [Node.layout, Tree.map, Tree.map, mapAll_layoutAll f source ts]

theorem mapAll_layoutAll (f : Kind → String → β) (source : List Char) (ts : List (Node κ)) :
    mapAll (fun a => f a.kind a.code) (Node.layoutAll source ts)
      = mapAll (fun a => f a.kind (String.ofList ((a.span.slice? source).getD []))) ts := by
  match ts with
  | [] => rfl
  | t :: ts =>
    rw [Node.layoutAll, mapAll, mapAll, map_layout f source t, mapAll_layoutAll f source ts]

end

/-- The parts of an outline are stretches of its numbers, none of them empty. -/
theorem Within.bounds {start stop : Nat} {ps : List (Tree Part)} (within : Within start ps stop) :
    ∀ p ∈ preorderAll ps, 0 < p.count ∧ p.first + p.count ≤ stop := by
  induction within with
  | nil => simp [preorderAll]
  | cons before nonempty inside rest inner outer =>
    have le := rest.le
    rw [preorderAll, preorder, List.cons_append, List.forall_mem_cons, List.forall_mem_append]
    exact ⟨⟨nonempty, le⟩, fun p mem => ⟨(inner p mem).1, (inner p mem).2.trans le⟩, outer⟩

/-- What the marks of a text show is its tree, where the places in its log can be told apart. -/
theorem parse_of_shows {kinds : List Kind} {m : Mark} {ws : List α} {label : Kind → List α → β}
    {t : Tree β} (same : (tokenize text).map (·.kind) = kinds)
    (runs : Runs .moduleBody (.facing kinds .tombstone []) (.facing [.eof] .tombstone [m]))
    (shows : Shows label ws [m] [t]) (f : Kind → String → β)
    (codes : (parse (κ := κ) text).diagnostics = [] →
      ∀ p : Part, 0 < p.count → p.first + p.count ≤ ws.length →
        f p.kind (String.ofList (((p.span (spansOf (tokenize text))).slice? text.toList).getD []))
          = label p.kind (p.words ws)) :
    (parse (κ := κ) text).diagnostics = [] ∧
      ((Log.read (tokenize text)).events.length ≤ UInt32.size →
        (parse (κ := κ) text).tree.map (Tree.map fun a => f a.kind a.code) = some t) := by
  obtain ⟨none, tree⟩ := parse_of_runs (κ := κ) same runs
  refine ⟨none, fun short => ?_⟩
  have tree := tree short
  obtain ⟨count, parts⟩ := shows [] []
  have within := Mark.within_outlineAll 0 [m]
  rw [List.length_nil] at count parts
  rw [List.reverse_singleton] at tree
  rw [count, Nat.zero_add] at within
  obtain ⟨p, single, rfl⟩ := List.map_eq_singleton_iff.1 parts
  rw [single] at within
  rw [tree, single, List.head?_cons, Option.map_some, Option.map_some, map_layout, Tree.map_map,
    Option.some.injEq]
  refine Tree.map_congr p fun q mem => ?_
  obtain ⟨nonempty, bound⟩ := within.bounds q (by simpa [preorderAll] using mem)
  rw [List.nil_append, List.append_nil]
  exact codes none q nonempty bound

end Labels

end SureCode
