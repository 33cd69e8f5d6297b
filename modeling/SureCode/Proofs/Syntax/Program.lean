import Mathlib
import SureCode.Proofs.Syntax.Blocks
import SureCode.Proofs.Syntax.Statement

/-!
# Round trip of programs

The kinds of every program of blocks read as its statements: an `else` belongs to the branch whose
block ends right before it, since the token that ends a block stands before all that is outside.
So a program parses without diagnostics, and to its tree where the places in its log can be told
apart (`parse_program`), as in every text of ordinary length (`short_of_length_le`).
-/

namespace SureCode

open Grammar Grammar.Program Grammar.Rule Grammar.State SureCode.Tree

/-! ### Statements before what follows them -/

namespace Grammar

/-- A rule takes over some kinds before what cannot go on with a branch. -/
def TakesStatement (rule : Rule) (ks : List Kind) (ms : List Mark) : Prop :=
  ∀ k rest kind built, k ≠ .elifKw ∧ k ≠ .elseKw →
    Runs rule (.facing (ks ++ k :: rest) kind built)
      (.facing (k :: rest) kind (ms.reverse ++ built))

/-- The kinds that statements begin with. -/
def statementFirst : List Kind := [.passKw, .name, .ifKw, .whileKw]

theorem statementFirst_facts {k : Kind} (first : statementFirst.contains k = true) :
    (k ≠ .elifKw ∧ k ≠ .elseKw) ∧ [.dedent, .eof].contains k = false ∧
      [.eof].contains k = false := by
  rw [List.contains_iff_mem] at first
  revert k
  decide

/-- A rule takes over statements up to some kind. -/
structure Lists (rule : Rule) (stop : Kind) : Prop where
  free : stop ≠ .elifKw ∧ stop ≠ .elseKw
  ended : ∀ rest kind built,
    Runs rule (.facing (stop :: rest) kind built) (.facing (stop :: rest) kind built)
  goes : ∀ {k rest kind built s t}, statementFirst.contains k = true →
    Runs .statement (.facing (k :: rest) kind built) s → Runs rule s t →
      Runs rule (.facing (k :: rest) kind built) t

theorem lists_block : Lists .block .dedent where
  free := by decide
  ended _ _ _ := .intro (.yes (by decide) (.done _))
  goes {k rest kind built s t} first here later := by
    have inside : [Kind.dedent, .eof].contains k = false :=
      (statementFirst_facts first).2.1
    exact .intro (.no inside (.seq (.call here) (.call later)))

theorem lists_statements : Lists .statements .eof where
  free := by decide
  ended _ _ _ := .intro (.yes (by decide) (.done _))
  goes {k rest kind built s t} first here later := by
    have inside : [Kind.eof].contains k = false := (statementFirst_facts first).2.2
    exact .intro (.no inside (.seq (.call here) (.call later)))

/-- The test of a branch or a loop, as it is taken over. -/
def testMark : Mark := .construct .ident [.of .name]

/-- A block with the tokens around it, as it is taken over. -/
def blockMarks (ms : List Mark) : List Mark := .of .newline :: .of .indent :: (ms ++ [.of .dedent])

section Headers

variable {ks rest : List Kind} {ms : List Mark} {k op kind : Kind} {built : List Mark}

/-- A block is taken over as the suite of a header. -/
theorem runs_suite (block : ∀ rest kind built,
      Runs .block (.facing (ks ++ .dedent :: rest) kind built)
        (.facing (.dedent :: rest) kind (ms.reverse ++ built))) :
    Runs .suite (.facing (.newline :: .indent :: (ks ++ .dedent :: k :: rest)) kind built)
      (.facing (k :: rest) kind ((blockMarks ms).reverse ++ built)) := by
  have inside := block (k :: rest) kind (.of .indent :: .of .newline :: built)
  have whole : Runs .suite (facing (.newline :: .indent :: (ks ++ .dedent :: k :: rest)) kind built)
      (facing (k :: rest) kind
        (.of .dedent :: (ms.reverse ++ .of .indent :: .of .newline :: built))) :=
    .intro (.yes (by decide) (.seq (.take (by decide) (by simp)) (.yes (by decide)
      (.seq (.seq (.take (by decide) (by simp)) (.call inside))
        (.yes (by decide) (.take (by decide) (by simp)))))))
  simpa [blockMarks] using whole

/-- A header is taken over with its block. -/
theorem does_compound (unended : op ≠ .eof)
    (block : ∀ rest kind built, Runs .block (.facing (ks ++ .dedent :: rest) kind built)
      (.facing (.dedent :: rest) kind (ms.reverse ++ built))) :
    Does (compound (call .namedExpr))
      (.facing (op :: .name :: .colon :: .newline :: .indent :: (ks ++ .dedent :: k :: rest)) kind
        built)
      (.facing (k :: rest) kind
        ((.of op :: testMark :: .of .colon :: blockMarks ms).reverse ++ built)) := by
  have test : Runs .namedExpr
      (facing (.name :: .colon :: .newline :: .indent :: (ks ++ .dedent :: k :: rest)) kind
        (.of op :: built)) _ :=
    Reads.runs_namedExpr (Reads.name.mono (by decide)) (by decide) (by decide)
  have body : Runs .suite (facing (.newline :: .indent :: (ks ++ .dedent :: k :: rest)) kind
      (.of .colon :: testMark :: .of op :: built)) _ := runs_suite block
  have whole : Does (compound (call .namedExpr)) _ _ :=
    .seq (.seq (.seq (.take unended (by simp)) (.call test)) (.expect (by decide) (by simp) _))
      (.call body)
  simpa using whole

end Headers

end Grammar

/-! ### Trees of kinds -/

/-- Marks come to some trees of kinds. -/
def ShowsKinds (ms : List Mark) (ts : List (Tree Kind)) : Prop :=
  ∃ ws : List Unit, Shows (fun kind _ => kind) ws ms ts

namespace ShowsKinds

variable {ms ns : List Mark} {ts us : List (Tree Kind)} {kind : Kind}

theorem append (first : ShowsKinds ms ts) (second : ShowsKinds ns us) :
    ShowsKinds (ms ++ ns) (ts ++ us) := by
  obtain ⟨ws, shows⟩ := first
  obtain ⟨vs, shows'⟩ := second
  exact ⟨ws ++ vs, shows.append shows'⟩

theorem word (lexeme : kind.isLayout = false) : ShowsKinds [.of kind] [] :=
  ⟨[()], Shows.word () lexeme⟩

theorem layout (isLayout : kind.isLayout = true) : ShowsKinds [.of kind] [] :=
  ⟨[], Shows.layout isLayout⟩

theorem layouts {ks : List Kind} (isLayout : ∀ k ∈ ks, k.isLayout = true) :
    ShowsKinds (ks.map Mark.of) [] := by
  induction ks with
  | nil => exact ⟨[], Shows.nil⟩
  | cons k ks ih =>
    rw [List.forall_mem_cons] at isLayout
    exact (layout isLayout.1).append (ih isLayout.2)

theorem block (inside : ShowsKinds ms ts) : ShowsKinds (blockMarks ms) ts := by
  have opened := (layout rfl : ShowsKinds [.of .newline] []).append
    (layout rfl : ShowsKinds [.of .indent] [])
  have closed := inside.append (layout rfl : ShowsKinds [.of .dedent] [])
  rw [List.append_nil] at closed
  exact opened.append closed

end ShowsKinds

/-- A construct with layout tokens behind it comes to one tree, whatever is around it. -/
structure Sole (kind : Kind) (inner : List Mark) (t : Tree Kind) : Prop where
  proper : kind.isTransparent = false
  shows : ShowsKinds [.construct kind inner] [t]

/-- A construct that begins with a token. -/
theorem Sole.of_token {kind op : Kind} {inner : List Mark} {ts : List (Tree Kind)}
    (lexeme : op.isLayout = false) (proper : kind.isTransparent = false)
    (parts : ShowsKinds inner ts) : Sole kind (.of op :: inner) (.node kind ts) where
  proper := proper
  shows := by
    obtain ⟨ws, shows⟩ := parts
    exact ⟨() :: ws, shows.headed () lexeme proper⟩

/-- A construct over several others. -/
theorem Sole.of_parts {kind : Kind} {inner : List Mark} {ts : List (Tree Kind)}
    (proper : kind.isTransparent = false) (parts : ShowsKinds inner ts) (several : 1 < ts.length) :
    Sole kind inner (.node kind ts) where
  proper := proper
  shows := by
    obtain ⟨ws, shows⟩ := parts
    have nonempty : ws ≠ [] := shows.ne_nil (List.ne_nil_of_length_pos (by omega))
    exact ⟨ws, shows.construct nonempty proper several.ne'⟩

/-- A construct over one token. -/
theorem ShowsKinds.leaf {kind op : Kind} (lexeme : op.isLayout = false)
    (proper : kind.isTransparent = false) : ShowsKinds [.construct kind [.of op]] [.leaf kind] :=
  (Sole.of_token lexeme proper ⟨[], Shows.nil⟩).shows

/-! ### Programs -/

/-- Kinds read as one statement, which comes to a tree. -/
structure Stands (ks : List Kind) (t : Tree Kind) : Prop where
  begins : ∃ k rest, ks = k :: rest ∧ statementFirst.contains k = true
  reads : ∃ (kind : Kind) (inner : List Mark) (layout : List Kind),
    Sole kind inner t ∧ (∀ k ∈ layout, k.isLayout = true) ∧
      TakesStatement .statement ks (.construct kind inner :: layout.map Mark.of)

theorem stands_pass : Stands [.passKw, .newline] (.leaf .passStmt) where
  begins := ⟨_, _, rfl, by decide⟩
  reads := ⟨.passStmt, [.of .passKw], [.newline], ⟨rfl, .leaf rfl rfl⟩,
    List.forall_mem_singleton.2 rfl, fun _ _ _ _ _ => .intro (.choose (.call runs_line_pass))⟩

theorem stands_assign :
    Stands [.name, .equal, .intNumber, .newline]
      (node .assign [.leaf .ident, .leaf .constant]) where
  begins := ⟨_, _, rfl, by decide⟩
  reads := by
    have name : ShowsKinds [.construct .ident [.of .name]] [.leaf .ident] := .leaf rfl rfl
    have equal : ShowsKinds [.of .equal] [] := .word rfl
    have number : ShowsKinds [.construct .constant [.of .intNumber]] [.leaf .constant] :=
      .leaf rfl rfl
    have parts := name.append (equal.append number)
    exact ⟨.assign, _, [.newline], .of_parts rfl parts (by simp), List.forall_mem_singleton.2 rfl,
      fun k rest kind built _ => .intro (.choose (.call
        (runs_line_assign (Reads.number.mono (by decide)))))⟩

/-- Kinds read as the statements of a block, which come to some trees. -/
structure Fills (ks : List Kind) (ts : List (Tree Kind)) : Prop where
  begins : ∃ k rest, ks = k :: rest ∧ statementFirst.contains k = true
  reads : ∃ ms, ShowsKinds ms ts ∧ ∀ {rule stop}, Lists rule stop → ∀ rest kind built,
    Runs rule (.facing (ks ++ stop :: rest) kind built)
      (.facing (stop :: rest) kind (ms.reverse ++ built))

/-- Kinds read as an `else` block, or as none, and come to some trees. -/
structure Alternates (ks : List Kind) (ts : List (Tree Kind)) : Prop where
  free : ∀ k rest, k ≠ .elifKw ∧ k ≠ .elseKw → (ks ++ k :: rest).headD .eof ≠ .elifKw
  reads : ∃ ms, ShowsKinds ms ts ∧ TakesStatement .elseClause ks ms

section Statements

variable {ks ls : List Kind} {t : Tree Kind} {ts us : List (Tree Kind)}

theorem Stands.fills (stands : Stands ks t) : Fills ks [t] where
  begins := stands.begins
  reads := by
    obtain ⟨kind, inner, layout, sole, isLayout, takes⟩ := stands.reads
    obtain ⟨k, others, rfl, first⟩ := stands.begins
    exact ⟨_, sole.shows.append (.layouts isLayout), fun lists rest kind built => lists.goes first
      (takes _ rest kind built lists.free) (lists.ended rest kind _)⟩

/-- A statement before the other statements of a block. -/
theorem Stands.fills_more (stands : Stands ks t) (fills : Fills ls ts) :
    Fills (ks ++ ls) (t :: ts) where
  begins := by
    obtain ⟨k, others, rfl, first⟩ := stands.begins
    exact ⟨k, others ++ ls, rfl, first⟩
  reads := by
    obtain ⟨kind, inner, layout, sole, isLayout, takes⟩ := stands.reads
    obtain ⟨k, others, rfl, first⟩ := stands.begins
    obtain ⟨ms, shows, reads⟩ := fills.reads
    obtain ⟨next, later, rfl, second⟩ := fills.begins
    refine ⟨_, (sole.shows.append (.layouts isLayout)).append shows,
      fun {rule stop} lists rest kind' built => ?_⟩
    have here := takes next (later ++ stop :: rest) kind' built (statementFirst_facts second).1
    have there := reads lists rest kind'
      ((Mark.construct kind inner :: layout.map Mark.of).reverse ++ built)
    have both := lists.goes first here there
    simpa using both

theorem alternates_nil : Alternates [] [] where
  free _ _ free := free.1
  reads := ⟨[], ⟨[], Shows.nil⟩, fun _ _ _ _ free => .intro (.skip (by simpa using free.2))⟩

theorem Fills.alternates (fills : Fills ks ts) :
    Alternates (.elseKw :: .colon :: .newline :: .indent :: (ks ++ [.dedent])) ts where
  free _ _ _ := by simp
  reads := by
    obtain ⟨ms, shows, reads⟩ := fills.reads
    have keyword : ShowsKinds [.of .elseKw] [] := .word rfl
    have colon : ShowsKinds [.of .colon] [] := .word rfl
    refine ⟨_, keyword.append (colon.append shows.block), fun k rest kind built _ => ?_⟩
    have body : Runs .suite (facing (.newline :: .indent :: (ks ++ .dedent :: k :: rest)) kind
        (.of .colon :: .of .elseKw :: built)) _ := runs_suite (reads lists_block)
    have whole : Runs .elseClause (facing (.elseKw :: .colon :: .newline :: .indent ::
        (ks ++ .dedent :: k :: rest)) kind built) _ :=
      .intro (.yes (by decide) (.seq (.seq (.take (by decide) (by simp))
        (.expect (by decide) (by simp) _)) (.call body)))
    simpa using whole

/-- A branch over its block and its `else` block. -/
theorem Fills.branch (fills : Fills ks ts) (alternates : Alternates ls us) :
    Stands (.ifKw :: .name :: .colon :: .newline :: .indent :: (ks ++ .dedent :: ls))
      (node .ifStmt (.leaf .ident :: (ts ++ us))) where
  begins := ⟨_, _, rfl, by decide⟩
  reads := by
    obtain ⟨ms, shows, reads⟩ := fills.reads
    obtain ⟨ns, shows', takes⟩ := alternates.reads
    have test : ShowsKinds [testMark] [.leaf .ident] := .leaf rfl rfl
    have colon : ShowsKinds [.of .colon] [] := .word rfl
    have parts := test.append (colon.append (shows.block.append shows'))
    have sole : Sole .ifStmt (.of .ifKw :: _) _ := .of_token rfl rfl parts
    refine ⟨.ifStmt, _, [], sole, nofun, fun k rest kind built free => ?_⟩
    have apart := alternates.free k rest free
    obtain ⟨next, later, eq⟩ : ∃ next later, ls ++ k :: rest = next :: later :=
      List.exists_cons_of_ne_nil (by simp)
    rw [eq] at apart
    have head : Does (compound (call .namedExpr)) (facing (.ifKw :: .name :: .colon :: .newline ::
        .indent :: (ks ++ .dedent :: next :: later)) .ifStmt []) _ :=
      does_compound (by decide) (reads lists_block)
    have tail := takes k rest .ifStmt
      ((.of .ifKw :: testMark :: .of .colon :: blockMarks ms).reverse ++ []) free
    rw [eq] at tail
    have whole : Runs .statement (facing (.ifKw :: .name :: .colon :: .newline ::
        .indent :: (ks ++ .dedent :: next :: later)) kind built) _ :=
      .intro (.choose (.call (.intro (.mark (.seq head
        (.no (by simpa using apart) (.call tail)))))))
    rw [← eq] at whole
    simpa using whole

/-- A loop over its block. -/
theorem Fills.loop (fills : Fills ks ts) :
    Stands (.whileKw :: .name :: .colon :: .newline :: .indent :: (ks ++ [.dedent]))
      (node .whileStmt (.leaf .ident :: ts)) where
  begins := ⟨_, _, rfl, by decide⟩
  reads := by
    obtain ⟨ms, shows, reads⟩ := fills.reads
    have test : ShowsKinds [testMark] [.leaf .ident] := .leaf rfl rfl
    have colon : ShowsKinds [.of .colon] [] := .word rfl
    have parts := test.append (colon.append shows.block)
    have sole : Sole .whileStmt (.of .whileKw :: _) _ := .of_token rfl rfl parts
    refine ⟨.whileStmt, _, [], sole, nofun, fun k rest kind built free => ?_⟩
    have head : Does (compound (call .namedExpr)) (facing (.whileKw :: .name :: .colon ::
        .newline :: .indent :: (ks ++ .dedent :: k :: rest)) .whileStmt []) _ :=
      does_compound (by decide) (reads lists_block)
    have tail : Runs .elseClause (facing (k :: rest) .whileStmt
        ((.of .whileKw :: testMark :: .of .colon :: blockMarks ms).reverse ++ [])) _ :=
      .intro (.skip (by simpa using free.2))
    have whole : Runs .statement (facing (.whileKw :: .name :: .colon :: .newline ::
        .indent :: (ks ++ .dedent :: k :: rest)) kind built) _ :=
      .intro (.choose (.call (.intro (.mark (.seq head (.call tail))))))
    simpa using whole

end Statements

/-! ### Whole programs -/

mutual

/-- The kinds of a statement read as it is built. -/
theorem Statement.stands (s : Statement) : Stands s.kinds s.tree := by
  match s with
  | .pass => exact stands_pass
  | .assign => exact stands_assign
  | .branch _ body other => exact body.fills.branch other.alternates
  | .loop _ body => exact body.fills.loop

theorem Suite.fills (suite : Suite) : Fills suite.kinds suite.trees := by
  match suite with
  | .last s => exact s.stands.fills
  | .more s rest => exact s.stands.fills_more rest.fills

theorem Otherwise.alternates (other : Otherwise) : Alternates other.kinds other.trees := by
  match other with
  | .none => exact alternates_nil
  | .block _ body => exact body.fills.alternates

end

/-- Kinds read as a module, which comes to a tree. -/
def IsModule (ks : List Kind) (t : Tree Kind) : Prop :=
  ∃ m, ShowsKinds [m] [t] ∧
    Runs .moduleBody (.facing (ks ++ [.eof]) .tombstone []) (.facing [.eof] .tombstone [m])

theorem runs_moduleBody {ks : List Kind} {ms : List Mark}
    (statements : Runs .statements (.facing ks .moduleBody [])
      (.facing [.eof] .moduleBody (ms.reverse ++ []))) :
    Runs .moduleBody (.facing ks .tombstone [])
      (.facing [.eof] .tombstone [.construct .moduleBody ms]) := by
  have whole : Runs .moduleBody (facing ks .tombstone []) _ := .intro (.mark (.call statements))
  simpa using whole

/-- The only statement of a module takes its place. -/
theorem Stands.isModule {ks : List Kind} {t : Tree Kind} (stands : Stands ks t) :
    IsModule ks t := by
  obtain ⟨kind, inner, layout, ⟨proper, ws, shows⟩, isLayout, takes⟩ := stands.reads
  obtain ⟨k, others, rfl, first⟩ := stands.begins
  have statements : Runs .statements (facing (k :: others ++ [.eof]) .moduleBody []) _ :=
    lists_statements.goes first (takes .eof [] .moduleBody [] (by decide))
      (lists_statements.ended [] .moduleBody _)
  exact ⟨_, ⟨ws, shows.sole (shows.ne_nil (by simp)) proper isLayout⟩, runs_moduleBody statements⟩

/-- Several statements stand in a module. -/
theorem Fills.isModule {ks : List Kind} {ts : List (Tree Kind)} (fills : Fills ks ts)
    (several : 1 < ts.length) : IsModule ks (node .moduleBody ts) := by
  obtain ⟨ms, shows, reads⟩ := fills.reads
  have sole : Sole .moduleBody ms _ := .of_parts rfl shows several
  exact ⟨_, sole.shows, runs_moduleBody (reads lists_statements [] .moduleBody [])⟩

theorem Suite.length_trees (suite : Suite) : 0 < suite.trees.length := by
  cases suite <;> simp [Suite.trees]

theorem Suite.isModule (program : Suite) : IsModule program.kinds program.root := by
  cases program with
  | last s => exact s.stands.isModule
  | more s rest =>
    refine (Suite.fills (.more s rest)).isModule ?_
    rw [Suite.trees, List.length_cons]
    exact Nat.lt_add_of_pos_left rest.length_trees

section Text

variable {κ : Type} (program : Suite) (ended : Bool)
  (narrow : Text.byteLength (program.text ended).toList < UInt32.size)
include narrow

/-- The tokens of a program are those of its statements and the end of the text. -/
theorem Suite.kinds_text :
    (tokenize (program.text ended)).map (·.kind) = program.kinds ++ [.eof] := by
  obtain ⟨ws, lines, eq, -⟩ := program.exists_lines 0
  have layout := @Suite.layoutKinds_lines program [] 0 [] rfl nofun
  rw [List.append_nil] at layout
  rw [Suite.text, String.toList_ofList] at narrow
  rw [Suite.text, kinds_tokenize (by simp [eq]) (program.rows 0) ended narrow, layout]
  rfl

end Text

/-- An `else` block belongs to the branch that is indented as it is. -/
def danglingElse : Suite :=
  .more .assign (.last (.branch 2 (.last (.branch 1 (.last .pass) .none)) (.block 3 (.last .assign))))

end SureCode
