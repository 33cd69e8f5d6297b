import Mathlib
import SureCode.Proofs.Token.Spelling

/-!
# Lines and blocks

The kinds of the tokens of a text of several lines (`kinds_tokenize`): the words of every line stand
between the tokens that open or close blocks and the end of the line. They depend on nothing but the
kinds of the words and the widths that the lines are indented by (`layoutKinds`).
-/

namespace SureCode

open Cursor

namespace Word

/-- The number of blanks that a line begins with. -/
def width (ws : List Word) : Nat := (ws.head?.map (·.gap)).getD 0

/-- A line of words that spell their kinds, without brackets. -/
structure Row (ws : List Word) : Prop where
  nonempty : ws ≠ []
  spells : ∀ w ∈ ws, Spells w.text w.kind
  apart : ∀ w ∈ ws.tail, 0 < w.gap ∨ w.text.head? = some ':'
  lexeme : ∀ w ∈ ws, w.kind.isLayout = false
  flat : ∀ w ∈ ws, Lexer.depthAfter 0 w.kind = 0

/-- The text of some lines, perhaps with a line break behind the last one. -/
def page (lines : List (List Word)) (ended : Bool) : List Char :=
  ['\n'].intercalate (lines.map line) ++ if ended then ['\n'] else []

end Word

namespace Lexer

/-- The kinds of tokens that a line of the given width begins with, and the levels after them. -/
def opened (levels : List Nat) (width : Nat) : List Kind × List Nat :=
  ((indentation levels width 0).1.map (·.kind), (indentation levels width 0).2)

/-- The kinds of tokens of some lines and the end of the text, where some levels are open. -/
def layoutKinds (levels : List Nat) : List (List Word) → List Kind
  | [] => levels.map (fun _ => .dedent) ++ [.eof]
  | ws :: lines =>
    (opened levels (Word.width ws)).1 ++ ws.map (·.kind)
      ++ .newline :: layoutKinds (opened levels (Word.width ws)).2 lines

theorem opened_eq (levels : List Nat) (width offset : Nat) :
    opened levels width = ((indentation levels width offset).1.map (·.kind),
      (indentation levels width offset).2) := by
  unfold opened indentation
  split
  · rfl
  · simp only [List.map_append, List.map_map]
    split <;> rfl

/-- A line of the width of the innermost block neither opens nor closes one. -/
theorem opened_self (levels : List Nat) : opened levels (levels.headD 0) = ([], levels) := by
  cases levels with
  | nil => rfl
  | cons level levels => simp [opened, indentation]

/-- A wider line opens a block. -/
theorem opened_of_lt {levels : List Nat} {width : Nat} (lt : levels.headD 0 < width) :
    opened levels width = ([.indent], width :: levels) := by
  rw [opened, indentation, if_pos lt]
  rfl

/-- A line that is narrower than a block closes it. -/
theorem opened_of_le {levels : List Nat} {width level : Nat} (le : width ≤ levels.headD 0)
    (lt : levels.headD 0 < level) :
    opened (level :: levels) width
      = (.dedent :: (opened levels width).1, (opened levels width).2) := by
  have narrow : ¬ level < width := by omega
  have within : ¬ levels.headD 0 < width := by omega
  have closes : width < level := by omega
  simp only [opened, indentation, List.headD_cons, if_neg within]
  simp [narrow, closes, Token.empty]

/-- What comes behind a block is no wider than the line before the block. -/
def Outside (width : Nat) (lines : List (List Word)) : Prop :=
  ∀ ws ∈ lines.head?, Word.width ws ≤ width

/-- A wider line begins with the opening of its block. -/
theorem layoutKinds_open {levels : List Nat} {ws : List Word} {lines : List (List Word)}
    (lt : levels.headD 0 < Word.width ws) :
    layoutKinds levels (ws :: lines)
      = .indent :: layoutKinds (Word.width ws :: levels) (ws :: lines) := by
  have same := opened_self (Word.width ws :: levels)
  rw [List.headD_cons] at same
  rw [layoutKinds, opened_of_lt lt, layoutKinds, same]
  rfl

/-- Behind a block comes the end of it. -/
theorem layoutKinds_close {levels : List Nat} {level : Nat} {lines : List (List Word)}
    (outside : Outside (levels.headD 0) lines) (lt : levels.headD 0 < level) :
    layoutKinds (level :: levels) lines = .dedent :: layoutKinds levels lines := by
  cases lines with
  | nil => rfl
  | cons ws lines =>
    rw [layoutKinds, opened_of_le (outside ws rfl) lt, layoutKinds]
    rfl

theorem depthAfterAll_eq_zero {ws : List Word} (flat : ∀ w ∈ ws, depthAfter 0 w.kind = 0) :
    depthAfterAll 0 ws = 0 := by
  induction ws with
  | nil => rfl
  | cons w ws ih =>
    rw [List.forall_mem_cons] at flat
    rw [depthAfterAll, List.foldl_cons, flat.1]
    exact ih flat.2

variable {offset : Nat} {levels : List Nat} {last : Option Kind} {rest : List Char}

/-- The kinds of tokens of one line, in front of those of what comes behind it. -/
theorem kinds_row {ws : List Word} (row : Word.Row ws) (ends : WordEnd rest)
    (narrow : Word.width ws < UInt32.size) :
    (⟨⟨offset, Word.line ws ++ rest⟩, levels, 0, true, last⟩ : Lexer).tokens.map (·.kind)
      = (opened levels (Word.width ws)).1 ++ ws.map (·.kind)
        ++ (⟨⟨offset + Text.byteLength (Word.line ws), rest⟩,
              (opened levels (Word.width ws)).2, 0, false,
              some (ws.getLast row.nonempty).kind⟩ : Lexer).tokens.map (·.kind) := by
  obtain ⟨w, ws, rfl⟩ := List.exists_cons_of_ne_nil row.nonempty
  rw [tokens_firstWord row.spells row.apart ends narrow, List.map_append, List.map_append,
    Word.map_kind_tokens, depthAfterAll_eq_zero row.flat]
  have width : Word.width (w :: ws) = w.gap := rfl
  rw [width, opened_eq levels w.gap (offset + w.gap)]

/-- The kinds of tokens behind the last line. -/
theorem kinds_end {kind : Kind} (lexeme : kind.isLayout = false) (ended : Bool) :
    (⟨⟨offset, if ended then ['\n'] else []⟩, levels, 0, false, some kind⟩
        : Lexer).tokens.map (·.kind)
      = .newline :: layoutKinds levels [] := by
  cases ended with
  | true =>
    rw [if_pos rfl, tokens_break, tokens_lineEnd]
    simp [closing, layoutKinds, Token.empty]
  | false =>
    rw [if_neg Bool.false_ne_true, tokens_end, closing_of_lexeme lexeme]
    simp [layoutKinds, Token.empty]

theorem page_cons_cons (ws vs : List Word) (lines : List (List Word)) (ended : Bool) :
    Word.page (ws :: vs :: lines) ended
      = Word.line ws ++ '\n' :: Word.page (vs :: lines) ended := by
  simp [Word.page, List.intercalate]

theorem page_singleton (ws : List Word) (ended : Bool) :
    Word.page [ws] ended = Word.line ws ++ if ended then ['\n'] else [] := by
  simp [Word.page, List.intercalate]

/-- The kinds of tokens of some lines. -/
theorem kinds_rows {lines : List (List Word)} (nonempty : lines ≠ [])
    (rows : ∀ ws ∈ lines, Word.Row ws) (narrow : ∀ ws ∈ lines, Word.width ws < UInt32.size)
    (ended : Bool) :
    (⟨⟨offset, Word.page lines ended⟩, levels, 0, true, last⟩ : Lexer).tokens.map (·.kind)
      = layoutKinds levels lines := by
  induction lines generalizing offset levels last with
  | nil => exact absurd rfl nonempty
  | cons ws lines ih =>
    obtain ⟨row, others⟩ := List.forall_mem_cons.1 rows
    obtain ⟨here, later⟩ := List.forall_mem_cons.1 narrow
    have lexeme := row.lexeme _ (List.getLast_mem row.nonempty)
    cases lines with
    | nil =>
      have ends : WordEnd (if ended then ['\n'] else []) := by
        cases ended <;> simp [WordEnd, endsWord]
      rw [page_singleton, kinds_row row ends here, kinds_end lexeme]
      rfl
    | cons vs lines =>
      have ends : WordEnd ('\n' :: Word.page (vs :: lines) ended) := by simp [WordEnd, endsWord]
      rw [page_cons_cons, kinds_row row ends here, tokens_break, List.map_cons,
        ih (List.cons_ne_nil vs lines) others later]
      rfl

end Lexer

/-- A line is indented by no more blanks than the text has bytes. -/
theorem Word.width_le_byteLength {lines : List (List Word)} {ws : List Word} (mem : ws ∈ lines)
    (ended : Bool) : width ws ≤ Text.byteLength (page lines ended) := by
  have within : width ws ≤ Text.byteLength (line ws) := by
    cases ws with
    | nil => exact Nat.zero_le _
    | cons w ws =>
      rw [line_cons, written, Text.byteLength_append, Text.byteLength_append, byteLength_blanks]
      exact (Nat.le_add_right _ _).trans (Nat.le_add_right _ _)
  induction lines with
  | nil => cases mem
  | cons vs lines ih =>
    cases lines with
    | nil =>
      obtain rfl := List.mem_singleton.1 mem
      rw [Lexer.page_singleton, Text.byteLength_append]
      exact within.trans (Nat.le_add_right _ _)
    | cons us lines =>
      rw [Lexer.page_cons_cons, Text.byteLength_append, Text.byteLength_cons]
      rcases List.mem_cons.1 mem with rfl | later
      · exact within.trans (Nat.le_add_right _ _)
      · have := ih later
        omega

/-- The kinds of the tokens of a text of some lines. -/
theorem kinds_tokenize {lines : List (List Word)} (nonempty : lines ≠ [])
    (rows : ∀ ws ∈ lines, Word.Row ws) (ended : Bool)
    (short : Text.byteLength (Word.page lines ended) < UInt32.size) :
    (tokenize (String.ofList (Word.page lines ended))).map (·.kind)
      = Lexer.layoutKinds [] lines := by
  rw [tokenize, String.toList_ofList]
  exact Lexer.kinds_rows nonempty rows
    (fun ws mem => (Word.width_le_byteLength mem ended).trans_lt short) ended

end SureCode
