import Mathlib
import SureCode.Proofs.Faultless
import SureCode.Proofs.Syntax.Statement
import SureCode.Proofs.Token.Lines

/-!
# Round trip of blocks

Programs of `pass`, assignments, branches and loops, written one statement or header to a line, with
every block indented by any number of further blanks. They parse without diagnostics, and where the
places in the log can be told apart to a tree in which every statement holds its test and then the
statements of its blocks (`parse_program`).
-/

namespace SureCode

open Grammar SureCode.Tree

/-! ### Programs in writing -/

mutual

/-- A statement. A block has the number of blanks by which it is indented further. -/
inductive Statement where
  | pass
  | assign
  | branch (extra : ℕ+) (body : Suite) (other : Otherwise)
  | loop (extra : ℕ+) (body : Suite)

/-- The statements of a block, or of a program. -/
inductive Suite where
  | last (s : Statement)
  | more (s : Statement) (rest : Suite)

/-- The `else` block of a branch, if it has one. -/
inductive Otherwise where
  | none
  | block (extra : ℕ+) (body : Suite)

end

/-- A keyword with a test and a colon. -/
def header (width : Nat) (keyword : String) (kind : Kind) : List Word :=
  [⟨width, keyword.toList, kind⟩, .spaced "v" .name, ⟨0, [':'], .colon⟩]

mutual

/-- The lines of a statement that is indented by some blanks. -/
def Statement.lines (width : Nat) : Statement → List (List Word)
  | .pass => [[⟨width, "pass".toList, .passKw⟩]]
  | .assign => [[⟨width, ['v'], .name⟩, .spaced "=" .equal, .spaced "1" .intNumber]]
  | .branch extra body other =>
    header width "if" .ifKw :: (body.lines (width + extra) ++ other.lines width)
  | .loop extra body => header width "while" .whileKw :: body.lines (width + extra)

/-- The lines of the statements of a block. -/
def Suite.lines (width : Nat) : Suite → List (List Word)
  | .last s => s.lines width
  | .more s rest => s.lines width ++ rest.lines width

/-- The lines of an `else` block, with its header. -/
def Otherwise.lines (width : Nat) : Otherwise → List (List Word)
  | .none => []
  | .block extra body =>
    [⟨width, "else".toList, .elseKw⟩, ⟨0, [':'], .colon⟩] :: body.lines (width + extra)

end

mutual

/-- The kinds of the nodes of a statement: its test, the statements of its block and those of its
`else` block. -/
def Statement.tree : Statement → Tree Kind
  | .pass => .leaf .passStmt
  | .assign => node .assign [.leaf .ident, .leaf .constant]
  | .branch _ body other => node .ifStmt (.leaf .ident :: (body.trees ++ other.trees))
  | .loop _ body => node .whileStmt (.leaf .ident :: body.trees)

/-- The trees of the statements of a block. -/
def Suite.trees : Suite → List (Tree Kind)
  | .last s => [s.tree]
  | .more s rest => s.tree :: rest.trees

/-- The trees of the statements of an `else` block. -/
def Otherwise.trees : Otherwise → List (Tree Kind)
  | .none => []
  | .block _ body => body.trees

end

/-- The tree of a program: its only statement, or a module over all of them. -/
def Suite.root : Suite → Tree Kind
  | .last s => s.tree
  | program@(.more _ _) => node .moduleBody program.trees

/-- The text of a program, perhaps with a line break at its end. -/
def Suite.text (program : Suite) (ended : Bool) : String :=
  String.ofList (Word.page (program.lines 0) ended)

/-! ### Lines and their tokens -/

theorem spells_colon : Spells [':'] .colon := spells_mark (by decide +kernel)

theorem row_header {width : Nat} {keyword : String} {kind : Kind}
    (spells : Spells keyword.toList kind) (lexeme : kind.isLayout = false)
    (flat : Lexer.depthAfter 0 kind = 0) : Word.Row (header width keyword kind) where
  nonempty := by simp [header]
  spells := by
    have name : Spells "v".toList .name := spells_of_isWord (by decide +kernel)
    simpa [header, Word.spaced] using ⟨spells, name, spells_colon⟩
  apart := by simp [header, Word.spaced]
  lexeme := by simpa [header, Word.spaced] using ⟨lexeme, rfl, rfl⟩
  flat := by simpa [header, Word.spaced] using ⟨flat, rfl, rfl⟩

theorem row_pass (width : Nat) : Word.Row [⟨width, "pass".toList, .passKw⟩] where
  nonempty := by simp
  spells := by
    have keyword : Spells "pass".toList .passKw := spells_of_isWord (by decide +kernel)
    exact List.forall_mem_singleton.2 keyword
  apart := by simp
  lexeme := by simp [Kind.isLayout]
  flat := by simp [Lexer.depthAfter]

theorem row_assign (width : Nat) :
    Word.Row [⟨width, ['v'], .name⟩, .spaced "=" .equal, .spaced "1" .intNumber] where
  nonempty := by simp
  spells := by
    have name : Spells ['v'] .name := spells_of_isWord (by decide +kernel)
    have equal : Spells "=".toList .equal := spells_mark (by decide +kernel)
    have one : Spells "1".toList .intNumber := spells_decimal (by decide) (by simp)
    simpa [Word.spaced] using ⟨name, equal, one⟩
  apart := by simp [Word.spaced]
  lexeme := by simp [Word.spaced, Kind.isLayout]
  flat := by simp [Word.spaced, Lexer.depthAfter]

theorem row_else (width : Nat) :
    Word.Row [⟨width, "else".toList, .elseKw⟩, ⟨0, [':'], .colon⟩] where
  nonempty := by simp
  spells := by
    have keyword : Spells "else".toList .elseKw := spells_of_isWord (by decide +kernel)
    simpa using ⟨keyword, spells_colon⟩
  apart := by simp
  lexeme := by simp [Kind.isLayout]
  flat := by simp [Lexer.depthAfter]

mutual

theorem Statement.rows (width : Nat) (s : Statement) : ∀ ws ∈ s.lines width, Word.Row ws := by
  match s with
  | .pass => exact List.forall_mem_singleton.2 (row_pass width)
  | .assign => exact List.forall_mem_singleton.2 (row_assign width)
  | .branch extra body other =>
    exact List.forall_mem_cons.2 ⟨row_header (spells_of_isWord (by decide +kernel)) rfl rfl,
      List.forall_mem_append.2 ⟨body.rows (width + extra), other.rows width⟩⟩
  | .loop extra body =>
    exact List.forall_mem_cons.2 ⟨row_header (spells_of_isWord (by decide +kernel)) rfl rfl,
      body.rows (width + extra)⟩

theorem Suite.rows (width : Nat) (suite : Suite) : ∀ ws ∈ suite.lines width, Word.Row ws := by
  match suite with
  | .last s => exact s.rows width
  | .more s rest => exact List.forall_mem_append.2 ⟨s.rows width, rest.rows width⟩

theorem Otherwise.rows (width : Nat) (other : Otherwise) :
    ∀ ws ∈ other.lines width, Word.Row ws := by
  match other with
  | .none => exact fun _ mem => absurd mem List.not_mem_nil
  | .block extra body =>
    exact List.forall_mem_cons.2 ⟨row_else width, body.rows (width + extra)⟩

end

mutual

/-- The kinds of the tokens of a statement, with those that open and close blocks. -/
def Statement.kinds : Statement → List Kind
  | .pass => [.passKw, .newline]
  | .assign => [.name, .equal, .intNumber, .newline]
  | .branch _ body other =>
    .ifKw :: .name :: .colon :: .newline :: .indent :: (body.kinds ++ .dedent :: other.kinds)
  | .loop _ body =>
    .whileKw :: .name :: .colon :: .newline :: .indent :: (body.kinds ++ [.dedent])

def Suite.kinds : Suite → List Kind
  | .last s => s.kinds
  | .more s rest => s.kinds ++ rest.kinds

def Otherwise.kinds : Otherwise → List Kind
  | .none => []
  | .block _ body => .elseKw :: .colon :: .newline :: .indent :: (body.kinds ++ [.dedent])

end

theorem Statement.exists_lines (width : Nat) (s : Statement) :
    ∃ ws lines, s.lines width = ws :: lines ∧ Word.width ws = width := by
  cases s <;> exact ⟨_, _, rfl, rfl⟩

theorem Suite.exists_lines (width : Nat) (suite : Suite) :
    ∃ ws lines, suite.lines width = ws :: lines ∧ Word.width ws = width := by
  cases suite with
  | last s => exact s.exists_lines width
  | more s rest =>
    obtain ⟨ws, lines, eq, same⟩ := s.exists_lines width
    exact ⟨ws, lines ++ rest.lines width, by rw [Suite.lines, eq, List.cons_append], same⟩

theorem Otherwise.outside {width : Nat} {lines : List (List Word)}
    (outside : Lexer.Outside width lines) (other : Otherwise) :
    Lexer.Outside width (other.lines width ++ lines) := by
  cases other with
  | none => exact outside
  | block extra body =>
    rintro _ ⟨⟩
    exact le_rfl

section Layout

open Lexer

variable {levels : List Nat} {width : Nat} {more : List (List Word)}

/-- A line of the width of its block. -/
theorem layoutKinds_line (level : levels.headD 0 = width) {ws : List Word} {ks : List Kind}
    (same : Word.width ws = width) (later : layoutKinds levels more = ks) :
    layoutKinds levels (ws :: more) = ws.map (·.kind) ++ .newline :: ks := by
  rw [layoutKinds, same, ← level, opened_self, later]
  rfl

/-- A block stands between the token that opens it and the one that closes it. -/
theorem layoutKinds_block (level : levels.headD 0 = width) (outside : Outside width more)
    {extra : ℕ+} {body : Suite}
    (inside : layoutKinds ((width + extra) :: levels) (body.lines (width + extra) ++ more)
      = body.kinds ++ layoutKinds ((width + extra) :: levels) more) :
    layoutKinds levels (body.lines (width + extra) ++ more)
      = .indent :: (body.kinds ++ .dedent :: layoutKinds levels more) := by
  have deeper : levels.headD 0 < width + extra := by
    rw [level]
    exact Nat.lt_add_of_pos_right extra.pos
  obtain ⟨ws, others, eq, same⟩ := body.exists_lines (width + extra)
  rw [← layoutKinds_close (level.symm ▸ outside) deeper, ← inside, eq, List.cons_append,
    layoutKinds_open (same.symm ▸ deeper), same]

theorem outside_deeper (outside : Outside width more) (extra : ℕ+) :
    Outside (width + extra) more := fun ws head => (outside ws head).trans (Nat.le_add_right _ _)

mutual

/-- The tokens of the lines of a statement, where its block is the innermost. -/
theorem Statement.layoutKinds_lines (s : Statement) {levels : List Nat} {width : Nat}
    {more : List (List Word)} (level : levels.headD 0 = width) (outside : Outside width more) :
    layoutKinds levels (s.lines width ++ more) = s.kinds ++ layoutKinds levels more := by
  match s with
  | .pass => exact layoutKinds_line level rfl rfl
  | .assign => exact layoutKinds_line level rfl rfl
  | .branch extra body other =>
    have behind := other.outside outside
    have inside := layoutKinds_block level behind
      (body.layoutKinds_lines rfl (outside_deeper behind extra))
    rw [other.layoutKinds_lines level outside] at inside
    have begins : Word.width (header width "if" .ifKw) = width := rfl
    have whole := layoutKinds_line level begins inside
    simpa [Statement.lines, Statement.kinds, header, Word.spaced] using whole
  | .loop extra body =>
    have inside := layoutKinds_block level outside
      (body.layoutKinds_lines rfl (outside_deeper outside extra))
    have begins : Word.width (header width "while" .whileKw) = width := rfl
    have whole := layoutKinds_line level begins inside
    simpa [Statement.lines, Statement.kinds, header, Word.spaced] using whole

theorem Suite.layoutKinds_lines (suite : Suite) {levels : List Nat} {width : Nat}
    {more : List (List Word)} (level : levels.headD 0 = width) (outside : Outside width more) :
    layoutKinds levels (suite.lines width ++ more) = suite.kinds ++ layoutKinds levels more := by
  match suite with
  | .last s => exact s.layoutKinds_lines level outside
  | .more s rest =>
    have behind : Outside width (rest.lines width ++ more) := by
      obtain ⟨ws, others, eq, same⟩ := rest.exists_lines width
      rw [eq]
      rintro _ ⟨⟩
      exact same.le
    rw [Suite.lines, Suite.kinds, List.append_assoc, s.layoutKinds_lines level behind,
      rest.layoutKinds_lines level outside, List.append_assoc]

theorem Otherwise.layoutKinds_lines (other : Otherwise) {levels : List Nat} {width : Nat}
    {more : List (List Word)} (level : levels.headD 0 = width) (outside : Outside width more) :
    layoutKinds levels (other.lines width ++ more) = other.kinds ++ layoutKinds levels more := by
  match other with
  | .none => rfl
  | .block extra body =>
    have inside := layoutKinds_block level outside
      (body.layoutKinds_lines rfl (outside_deeper outside extra))
    have begins : Word.width [⟨width, "else".toList, .elseKw⟩, ⟨0, [':'], .colon⟩] = width := rfl
    have whole := layoutKinds_line level begins inside
    simpa [Otherwise.lines, Otherwise.kinds] using whole

end

end Layout

end SureCode
