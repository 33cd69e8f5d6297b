import Mathlib
import SureCode.Proofs.Containment.Traces
import SureCode.Proofs.Faultless
import SureCode.Proofs.Grammar.Renaming
import SureCode.Proofs.Node.Signature

/-!
# Layout does not matter

Two texts with the same tokens, layout tokens compared by their kinds only, and with nothing but
white space between tokens, are read alike: either both have faults or neither has, and if they have
none their trees show the same and each is found in the other (`parse_layout_independent`).
-/

namespace SureCode

open SureCode.Tree SureCode.Grammar

variable {κ : Type} {text text' : String} {source source' : List Char}

/-- What counts of a token: its kind, and its text if it is no layout token. -/
def Token.look (source : List Char) (t : Token) : Kind × Option (List Char) :=
  (t.kind, if t.kind.isLayout then none else t.text? source)

theorem wordsOf_eq_filterMap (source : List Char) (ts : List Token) :
    wordsOf source ts = (ts.map (Token.look source)).filterMap fun look =>
      if look.1.isLayout then none else some (look.2.getD []) := by
  induction ts with
  | nil => rfl
  | cons t ts ih =>
    rw [List.map_cons, List.filterMap_cons, ← ih]
    cases layout : t.kind.isLayout <;> simp [wordsOf, lexemes, Token.look, Token.text, layout]

theorem map_kind_eq (ts : List Token) :
    ts.map (·.kind) = (ts.map (Token.look source)).map (·.1) := by
  rw [List.map_map]
  rfl

/-! ### Shapes -/

/-- A shape depends on what the nodes show. -/
theorem shapes_congr {ts us : List (Node κ)} {placed : List Shape}
    (same : ts.map (Tree.map (Construct.view source)) = us.map (Tree.map (Construct.view source'))) :
    Node.shapes source placed ts = Node.shapes source' placed us := by
  induction ts using forest_induction generalizing placed us with
  | nil =>
    obtain rfl := List.map_eq_nil_iff.1 same.symm
    rw [Node.shapes, Node.shapes]
  | cons a vs ts below rest =>
    cases us with
    | nil => cases same
    | cons u us =>
      obtain ⟨b, ws⟩ := u
      rw [List.map_cons, List.map_cons, map_node, map_node, List.cons.injEq, node.injEq] at same
      obtain ⟨⟨own, inside⟩, others⟩ := same
      have signature : a.signature source = b.signature source' :=
        congrArg (fun (view : Kind × String × Bool) => view.2.1) own
      have deleted : a.isDeleted = b.isDeleted :=
        congrArg (fun (view : Kind × String × Bool) => view.2.2) own
      rw [Node.shapes, Node.shapes, Node.shape_node, Node.shape_node, label_node, label_node, deleted,
        signature, below inside]
      exact rest others

/-- Trees that show the same are found in each other. -/
theorem isContained_of_views {t u : Node κ}
    (same : t.map (Construct.view source) = u.map (Construct.view source')) :
    isContained source t source' (some u) = true := by
  obtain ⟨a, ts⟩ := t
  obtain ⟨b, us⟩ := u
  rw [map_node, map_node, node.injEq] at same
  have signature : a.signature source = b.signature source' :=
    congrArg (fun (view : Kind × String × Bool) => view.2.1) same.1
  rw [isContained_iff, Node.shape_node, Node.shape_node, signature, shapes_congr same.2]
  exact ⟨rfl, fun _ trace => trace⟩

/-! ### Reading by kinds -/

section Kinds

variable (kinds : (tokenize text).map (·.kind) = (tokenize text').map (·.kind))
include kinds

theorem hasErrors_congr : (parse (κ := κ) text).hasErrors = (parse (κ := κ) text').hasErrors := by
  have erased (ts : List Token) : ts.map Token.erased = (ts.map (·.kind)).map (.empty · 0) := by
    rw [List.map_map]
    rfl
  have same : (State.read (tokenize text)).erased = (State.read (tokenize text')).erased := by
    rw [erased_read, erased_read, erased, kinds, ← erased]
  have faults : (State.read (tokenize text)).faults.map Diagnostic.erased
      = (State.read (tokenize text')).faults.map Diagnostic.erased :=
    congrArg State.faults same
  have none := congrArg List.isEmpty faults
  rw [List.isEmpty_map, List.isEmpty_map] at none
  rw [hasErrors_parse, hasErrors_parse, none]

/-- The outline of a text depends on the kinds of its tokens only. -/
theorem outlineOf_congr : outlineOf text = outlineOf text' := by
  have outline (text : String) : outlineOf text
      = Mark.outlineAll 0 (Log.read (numbered (tokenize text))).marks := by
    rw [outlineOf, (renamed_read (ended_tokenize text)).marks, Mark.outlineAll_map (recalled_kind _)]
  rw [outline, numbered_congr kinds, ← outline]

/-- The tokens under the marks of a text have the same numbers among all its tokens as they have in
another text with the same kinds, layout tokens left out. -/
theorem exists_ranks :
    ∃ ranks : ℕ ↪o ℕ, (∀ i, (lexemes (taken text))[i]? = (lexemes (tokenize text))[ranks i]?) ∧
      ∀ i, (lexemes (taken text'))[i]? = (lexemes (tokenize text'))[ranks i]? := by
  have sublist := sublist_marks_read (ended_numbered (ended_tokenize text))
  obtain ⟨ranks, ranked⟩ := List.sublist_iff_exists_orderEmbedding_getElem?_eq.1
    (sublist.filter fun t => !t.kind.isLayout)
  have recalls (text : String) (i : ℕ) :
      (lexemes (taken text))[i]?
          = ((lexemes (Mark.tokensAll (Log.read (numbered (tokenize text))).marks))[i]?).map
              (recalled (tokenize text)) ∧
        (lexemes (tokenize text))[ranks i]?
          = ((lexemes (numbered (tokenize text)))[ranks i]?).map (recalled (tokenize text)) := by
    refine ⟨?_, ?_⟩
    · rw [taken, (renamed_read (ended_tokenize text)).marks, Mark.tokensAll_map,
        lexemes_map (recalled_kind _), List.getElem?_map]
    · rw [← List.getElem?_map, ← lexemes_map (recalled_kind _), map_recalled]
  refine ⟨ranks, fun i => ?_, fun i => ?_⟩
  · rw [(recalls text i).1, (recalls text i).2]
    exact congrArg _ (ranked i)
  · rw [(recalls text' i).1, (recalls text' i).2, ← numbered_congr kinds]
    exact congrArg _ (ranked i)

end Kinds

/-! ### Numbers among others -/

/-- A part by the numbers that its own have among others. -/
def Part.moved (ranks : ℕ ↪o ℕ) (p : Part) : Part :=
  ⟨p.kind, ranks p.first, ranks (p.first + p.count - 1) + 1 - ranks p.first⟩

section Moved

variable {ranks : ℕ ↪o ℕ} {spans : ℕ → Span} {p : Part} {start stop : ℕ} {ps : List (Tree Part)}

theorem Part.stop_moved (ranks : ℕ ↪o ℕ) (nonempty : 0 < p.count) :
    (p.moved ranks).first + (p.moved ranks).count = ranks (p.first + p.count - 1) + 1 ∧
      0 < (p.moved ranks).count := by
  have le : ranks p.first ≤ ranks (p.first + p.count - 1) := ranks.monotone (by omega)
  simp only [moved]
  omega

theorem Part.construct_moved (nonempty : 0 < p.count) :
    (p.moved ranks).construct (κ := κ) spans = p.construct fun i => spans (ranks i) := by
  obtain ⟨stop, -⟩ := p.stop_moved ranks nonempty
  rw [construct, construct, span, span, stop, Nat.add_sub_cancel]
  rfl

/-- Parts stay inside one another when they are numbered among others. -/
theorem Within.moved (within : Within start ps stop) {low high : ℕ} (le : low ≤ high)
    (after : low ≤ ranks start) (before : 0 < stop → ranks (stop - 1) < high) :
    Within low (ps.map (Tree.map (Part.moved ranks))) high := by
  induction within generalizing low high with
  | nil => exact .nil le
  | @cons start stop p below rest first nonempty inside others inside_ih others_ih =>
    obtain ⟨moved_stop, moved_nonempty⟩ := p.stop_moved ranks nonempty
    have := others.le
    have begins : ranks start ≤ ranks p.first := ranks.monotone first
    have last : ranks (p.first + p.count - 1) ≤ ranks (stop - 1) := ranks.monotone (by omega)
    have next : ranks (p.first + p.count - 1) < ranks (p.first + p.count) :=
      ranks.strictMono (by omega)
    have ends := before (by omega)
    rw [List.map_cons, Tree.map_node]
    refine .cons (after.trans begins) moved_nonempty ?_ ?_
    · exact inside_ih (Nat.le_add_right _ _) le_rfl fun _ => by omega
    · exact others_ih (by omega) (by omega) fun _ => ends

/-- Parts that are numbered among others have the spans that they have. -/
theorem Within.map_construct (within : Within start ps stop) :
    ps.map (Tree.map (Part.construct (κ := κ) fun i => spans (ranks i)))
      = (ps.map (Tree.map (Part.moved ranks))).map (Tree.map (Part.construct spans)) := by
  rw [← mapAll_eq_map, ← mapAll_eq_map, ← mapAll_eq_map, mapAll_mapAll]
  exact mapAll_congr ps fun p mem => (p.construct_moved (within.bounds p mem).1).symm

end Moved

/-! ### What trees show -/

/-- What the tree of a text without faults shows depends on its outline, the numbers of the tokens in
it, and its words. -/
theorem view_tree (none : (State.read (tokenize text)).faults = [])
    (blank : (tokenize text).IsChain (BlankBetween text.toList)) {ranks : ℕ ↪o ℕ}
    (ranked : ∀ i, (lexemes (taken text))[i]? = (lexemes (tokenize text))[ranks i]?) :
    (parse (κ := κ) text).tree.map (Tree.map (Construct.view text.toList))
      = (viewsAll (wordsOf text.toList (tokenize text))
          ((outlineOf text).2.map (Tree.map (Part.moved ranks)))).head? := by
  obtain ⟨seen, reading⟩ := exists_reading blank fun _ mem => nonempty_of_faultless none mem
  have spans : spansOf (taken text) = fun i => spansOf (tokenize text) (ranks i) := by
    funext i
    rw [spansOf, ranked, spansOf]
  have bound : 0 < (outlineOf text).1 →
      ranks ((outlineOf text).1 - 1) < (wordsOf text.toList (tokenize text)).length := by
    intro nonempty
    have last := ranked ((outlineOf text).1 - 1)
    rw [List.getElem?_eq_getElem (by rw [← outlineOf_eq]; omega)] at last
    rw [length_wordsOf]
    exact (List.getElem?_eq_some_iff.1 last.symm).1
  have within : Within 0 (outlineOf text).2 (outlineOf text).1 := by
    have within := Mark.within_outlineAll 0 (Log.read (tokenize text)).marks
    rwa [Nat.zero_add] at within
  have moved := within.moved (Nat.zero_le _) (Nat.zero_le _) bound
  rw [tree_of_faultless none, spans, ← views_layoutAll (κ := κ) reading moved le_rfl,
    ← within.map_construct]
  change Option.map _ (Option.map _ (outlineOf text).2.head?)
    = (List.map _ (Node.layoutAll _ ((outlineOf text).2.map _))).head?
  cases (outlineOf text).2 <;> rfl

/-- Two texts with the same tokens, layout aside, and with nothing but white space between tokens are
read alike. Both or neither have faults; if they have none, their trees agree in the kinds and the
signatures of all nodes, and each tree is found in the other. -/
theorem parse_layout_independent
    (same : (tokenize text).map (Token.look text.toList)
      = (tokenize text').map (Token.look text'.toList))
    (blank : (tokenize text).IsChain (BlankBetween text.toList))
    (blank' : (tokenize text').IsChain (BlankBetween text'.toList)) :
    (parse (κ := κ) text).hasErrors = (parse (κ := κ) text').hasErrors ∧
      ((parse (κ := κ) text).hasErrors = false →
        (parse (κ := κ) text).tree.map (Tree.map (Construct.view text.toList))
            = (parse (κ := κ) text').tree.map (Tree.map (Construct.view text'.toList)) ∧
          ∀ tree tree', (parse (κ := κ) text).tree = some tree →
            (parse (κ := κ) text').tree = some tree' →
            isContained text.toList tree text'.toList (some tree') = true ∧
              isContained text'.toList tree' text.toList (some tree) = true) := by
  have kinds : (tokenize text).map (·.kind) = (tokenize text').map (·.kind) := by
    rw [map_kind_eq, same, ← map_kind_eq]
  have errors := hasErrors_congr (κ := κ) kinds
  refine ⟨errors, fun faultless => ?_⟩
  have none : (State.read (tokenize text)).faults = [] := by
    simpa [hasErrors_parse] using faultless
  have none' : (State.read (tokenize text')).faults = [] := by
    simpa [hasErrors_parse] using errors.symm.trans faultless
  have views : (parse (κ := κ) text).tree.map (Tree.map (Construct.view text.toList))
      = (parse (κ := κ) text').tree.map (Tree.map (Construct.view text'.toList)) := by
    obtain ⟨ranks, ranked, ranked'⟩ := exists_ranks kinds
    rw [view_tree none blank ranked, view_tree none' blank' ranked', outlineOf_congr kinds,
      wordsOf_eq_filterMap, same, ← wordsOf_eq_filterMap]
  refine ⟨views, fun tree tree' found found' => ?_⟩
  rw [found, found', Option.map_some, Option.map_some, Option.some.injEq] at views
  exact ⟨isContained_of_views views, isContained_of_views views.symm⟩

/-- The tokens of a negation. -/
theorem tokenize_negation :
    tokenize "-x" = [⟨.minus, ⟨0, 1, by decide⟩⟩, ⟨.name, ⟨1, 2, by decide⟩⟩, .empty .newline 2,
      .empty .eof 2] := by
  let minus : Lexer := ⟨⟨1, ['x']⟩, [], 0, false, some .minus⟩
  let name : Lexer := ⟨⟨2, []⟩, [], 0, false, some .name⟩
  have first : (Lexer.ofText "-x".toList).step = ([⟨.minus, ⟨0, 1, by decide⟩⟩], some minus) := by
    decide +kernel
  have second : minus.step = ([⟨.name, ⟨1, 2, by decide⟩⟩], some name) := by decide +kernel
  have last : name.step = ([.empty .newline 2, .empty .eof 2], none) := by decide +kernel
  rw [tokenize, Lexer.tokens_of_step_some first, Lexer.tokens_of_step_some second,
    Lexer.tokens_of_step_none last]
  rfl

/-- The tokens of a negation on a line of its own, with a blank in it. -/
theorem tokenize_spaced_negation :
    tokenize "- x\n" = [⟨.minus, ⟨0, 1, by decide⟩⟩, ⟨.name, ⟨2, 3, by decide⟩⟩,
      ⟨.newline, ⟨3, 4, by decide⟩⟩, .empty .eof 4] := by
  let minus : Lexer := ⟨⟨1, [' ', 'x', '\n']⟩, [], 0, false, some .minus⟩
  let name : Lexer := ⟨⟨3, ['\n']⟩, [], 0, false, some .name⟩
  let line : Lexer := ⟨⟨4, []⟩, [], 0, true, some .newline⟩
  have first : (Lexer.ofText "- x\n".toList).step
      = ([⟨.minus, ⟨0, 1, by decide⟩⟩], some minus) := by decide +kernel
  have second : minus.step = ([⟨.name, ⟨2, 3, by decide⟩⟩], some name) := by decide +kernel
  have third : name.step = ([⟨.newline, ⟨3, 4, by decide⟩⟩], some line) := by decide +kernel
  have last : line.step = ([.empty .eof 4], none) := by decide +kernel
  rw [tokenize, Lexer.tokens_of_step_some first, Lexer.tokens_of_step_some second,
    Lexer.tokens_of_step_some third, Lexer.tokens_of_step_none last]
  rfl

theorem parse_layout_independent_negation :
    (parse (κ := Unit) "-x").hasErrors = false ∧ (parse (κ := Unit) "- x\n").hasErrors = false ∧
      (parse (κ := Unit) "-x").tree.map (Tree.map (Construct.view "-x".toList))
        = (parse (κ := Unit) "- x\n").tree.map (Tree.map (Construct.view "- x\n".toList)) := by
  have faultless : (parse (κ := Unit) "-x").hasErrors = false := by
    rw [hasErrors_parse, tokenize_negation]
    decide +kernel
  obtain ⟨errors, views⟩ := @parse_layout_independent Unit "-x" "- x\n"
    (by rw [tokenize_negation, tokenize_spaced_negation]; decide +kernel)
    (by rw [tokenize_negation]; decide +kernel)
    (by rw [tokenize_spaced_negation]; decide +kernel)
  exact ⟨faultless, errors.symm.trans faultless, (views faultless).1⟩

end SureCode
