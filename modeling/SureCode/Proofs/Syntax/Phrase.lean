import Mathlib
import SureCode.Proofs.Grammar.Shape
import SureCode.Proofs.Syntax.Operators

/-!
# Expressions are read as they are written

The words of every expression spell their kinds, read as an operand of the expression's rank, and
come to its tree (`Expression.phrase`). The induction follows the syntax, one case for each
operator.
-/

namespace SureCode

open Grammar

/-- A word that spells its kind behind one blank. -/
structure Word.Written (w : Word) : Prop where
  gap : w.gap = 1
  spells : Spells w.text w.kind
  lexeme : w.kind.isLayout = false

/-- Words that read as an operand of a rank and come to a tree. -/
structure Phrase (rank : Nat) (ws : List Word) (t : Tree (Kind × String)) : Prop where
  written : ∀ w ∈ ws, w.Written
  reads : ∃ m, Reads rank (ws.map (·.kind)) m ∧ Shows Word.label ws [m] [t]

variable {rank place : Nat} {ws vs us : List Word} {t u v : Tree (Kind × String)}

/-! ### Words -/

theorem written_mark {text : String} {kind : Kind} (marks : isMark text.toList kind = true)
    (lexeme : kind.isLayout = false) : (Word.spaced text kind).Written :=
  ⟨rfl, spells_mark marks, lexeme⟩

theorem written_keyword {text : String} {kind : Kind} (known : isWord text.toList kind = true)
    (lexeme : kind.isLayout = false) : (Word.spaced text kind).Written :=
  ⟨rfl, spells_of_isWord known, lexeme⟩

theorem Sign.written (s : Sign) : s.word.Written := by
  cases s <;> exact written_mark (by decide +kernel) rfl

theorem Operator.written (o : Operator) : o.word.Written := by
  cases o <;> exact written_mark (by decide +kernel) rfl

theorem Junction.written (j : Junction) : j.word.Written := by
  cases j <;> exact written_keyword (by decide +kernel) rfl

theorem Comparison.written (c : Comparison) : ∀ w ∈ c.words, w.Written := by
  have isIn : (Word.spaced "in" .inKw).Written := written_keyword (by decide +kernel) rfl
  have isIs : (Word.spaced "is" .isKw).Written := written_keyword (by decide +kernel) rfl
  have isNot : (Word.spaced "not" .notKw).Written := written_keyword (by decide +kernel) rfl
  cases c with
  | member => exact List.forall_mem_singleton.2 isIn
  | same => exact List.forall_mem_singleton.2 isIs
  | notMember => exact List.forall_mem_cons.2 ⟨isNot, List.forall_mem_singleton.2 isIn⟩
  | notSame => exact List.forall_mem_cons.2 ⟨isIs, List.forall_mem_singleton.2 isNot⟩
  | _ => exact List.forall_mem_singleton.2 (written_mark (by decide +kernel) rfl)

theorem Identifier.written (n : Identifier) : n.word.Written := ⟨rfl, n.spells, rfl⟩

theorem IntegerLiteral.written (n : IntegerLiteral) : n.word.Written := ⟨rfl, n.spells, rfl⟩

/-- The words around the word of an operator. -/
theorem written_around {w : Word} (first : ∀ w ∈ ws, w.Written) (between : w.Written)
    (second : ∀ w ∈ vs, w.Written) : ∀ x ∈ ws ++ w :: vs, x.Written :=
  List.forall_mem_append.2 ⟨first, List.forall_mem_cons.2 ⟨between, second⟩⟩

/-! ### Phrases -/

namespace Phrase

theorem ne_nil (phrase : Phrase rank ws t) : ws ≠ [] := by
  rintro rfl
  obtain ⟨m, reads, -⟩ := phrase.reads
  obtain ⟨k, rest, eq, -⟩ := reads.opens
  cases eq

theorem mono (phrase : Phrase rank ws t) (le : place ≤ rank) : Phrase place ws t where
  written := phrase.written
  reads := by
    obtain ⟨m, reads, shows⟩ := phrase.reads
    exact ⟨m, reads.mono le, shows⟩

theorem bracketed (phrase : Phrase 1 ws t) : Phrase 14 (Word.bracketed ws) t where
  written := by
    have opening : (Word.spaced "(" .leftParen).Written := written_mark (by decide +kernel) rfl
    have closing : (Word.spaced ")" .rightParen).Written := written_mark (by decide +kernel) rfl
    exact List.forall_mem_cons.2 ⟨opening, written_around phrase.written closing (by simp)⟩
  reads := by
    obtain ⟨m, reads, shows⟩ := phrase.reads
    refine ⟨_, by simpa [Word.bracketed, Word.spaced] using reads.bracketed, ?_⟩
    exact ((Shows.word _ rfl).append (shows.append (Shows.word _ rfl))).transparent rfl

/-- An operand stands where its rank is asked for, in brackets if it binds looser. -/
theorem operand (phrase : Phrase rank ws t) (loosest : 1 ≤ rank) (le : place ≤ 14) :
    Phrase place (Word.operand place rank ws) t := by
  unfold Word.operand
  split
  · exact (phrase.mono loosest).bracketed.mono le
  · exact phrase.mono (by omega)

theorem name (n : Identifier) : Phrase 14 [n.word] (.node (Word.label .ident [n.word]) []) where
  written := List.forall_mem_singleton.2 n.written
  reads := ⟨_, .name, (Shows.word n.word rfl).construct (by simp) rfl (by simp)⟩

theorem number (n : IntegerLiteral) :
    Phrase 14 [n.word] (.node (Word.label .constant [n.word]) []) where
  written := List.forall_mem_singleton.2 n.written
  reads := ⟨_, .number, (Shows.word n.word rfl).construct (by simp) rfl (by simp)⟩

/-- An operator between two operands, as a construct over both of them. -/
theorem between {place place' rank : Nat} {w : Word} {kind : Kind} (written : w.Written)
    (proper : kind.isTransparent = false) (first : Phrase place ws t) (second : Phrase place' vs u)
    (reads : ∀ {ks ls : List Kind} {m n : Mark}, Reads place ks m → Reads place' ls n →
      Reads rank (ks ++ w.kind :: ls) (.construct kind [m, .of w.kind, n])) :
    Phrase rank (ws ++ w :: vs) (.node (Word.label kind (ws ++ w :: vs)) [t, u]) where
  written := written_around first.written written second.written
  reads := by
    obtain ⟨m, left, shows⟩ := first.reads
    obtain ⟨n, right, shows'⟩ := second.reads
    refine ⟨_, by simpa using reads left right, ?_⟩
    exact (shows.append ((Shows.word w written.lexeme).append shows')).construct (by simp) proper
      (by simp)

theorem power (base : Phrase 14 ws t) (exponent : Phrase 12 vs u) :
    Phrase 13 (ws ++ .spaced "**" .doubleStar :: vs)
      (.node (Word.label .binOp (ws ++ .spaced "**" .doubleStar :: vs)) [t, u]) :=
  between (written_mark (by decide +kernel) rfl) rfl base exponent Reads.power

theorem binary (o : Operator) (left : Phrase o.rank ws t) (right : Phrase (o.rank + 1) vs u) :
    Phrase o.rank (ws ++ o.word :: vs) (.node (Word.label .binOp (ws ++ o.word :: vs)) [t, u]) :=
  between o.written rfl left right (Reads.binary o)

/-- An operator before its operand. -/
theorem before {w : Word} (written : w.Written) (operand : Phrase rank ws t)
    (reads : ∀ {ks : List Kind} {m : Mark}, Reads rank ks m →
      Reads rank (w.kind :: ks) (.construct .unaryOp [.of w.kind, m])) :
    Phrase rank (w :: ws) (.node (Word.label .unaryOp (w :: ws)) [t]) where
  written := List.forall_mem_cons.2 ⟨written, operand.written⟩
  reads := by
    obtain ⟨m, inner, shows⟩ := operand.reads
    exact ⟨_, reads inner, shows.headed w written.lexeme rfl⟩

theorem signed (s : Sign) (operand : Phrase 12 ws t) :
    Phrase 12 (s.word :: ws) (.node (Word.label .unaryOp (s.word :: ws)) [t]) :=
  before s.written operand fun reads => reads.signed (by cases s <;> decide)

theorem negated (operand : Phrase 4 ws t) :
    Phrase 4 (.spaced "not" .notKw :: ws)
      (.node (Word.label .unaryOp (.spaced "not" .notKw :: ws)) [t]) :=
  before (written_keyword (by decide +kernel) rfl) operand Reads.negated

theorem conditional (body : Phrase 2 ws t) (test : Phrase 2 vs u) (other : Phrase 1 us v) :
    Phrase 1 (ws ++ .spaced "if" .ifKw :: (vs ++ .spaced "else" .elseKw :: us))
      (.node (Word.label .ifExp (ws ++ .spaced "if" .ifKw :: (vs ++ .spaced "else" .elseKw :: us)))
        [t, u, v]) where
  written := written_around body.written (written_keyword (by decide +kernel) rfl)
    (written_around test.written (written_keyword (by decide +kernel) rfl) other.written)
  reads := by
    obtain ⟨m, reads, shows⟩ := body.reads
    obtain ⟨n, reads', shows'⟩ := test.reads
    obtain ⟨o, reads'', shows''⟩ := other.reads
    refine ⟨_, by simpa [Word.spaced] using reads.conditional reads' reads'', ?_⟩
    exact (shows.append ((Shows.word _ rfl).append (shows'.append
      ((Shows.word _ rfl).append shows'')))).construct (by simp) rfl (by simp)

end Phrase

/-! ### Chains -/

/-- Words that read as the operands of a chain behind the first and come to some trees. -/
structure Chained (Continue : List Kind → List Mark → Prop) (ws : List Word)
    (ts : List (Tree (Kind × String))) : Prop where
  written : ∀ w ∈ ws, w.Written
  nonempty : ts ≠ []
  reads : ∃ ms, Continue (ws.map (·.kind)) ms ∧ Shows Word.label ws ms ts

variable {ts : List (Tree (Kind × String))} {Continue : List Kind → List Mark → Prop}

/-- A chain of operands, flat in one construct. -/
theorem Chained.phrase {kind : Kind} {place : Nat} (chained : Chained Continue vs ts)
    (proper : kind.isTransparent = false) (first : Phrase place ws t)
    (reads : ∀ {ks ls : List Kind} {m : Mark} {ns : List Mark}, Reads place ks m → Continue ls ns →
      Reads rank (ks ++ ls) (.construct kind (m :: ns))) :
    Phrase rank (ws ++ vs) (.node (Word.label kind (ws ++ vs)) (t :: ts)) where
  written := List.forall_mem_append.2 ⟨first.written, chained.written⟩
  reads := by
    obtain ⟨m, left, shows⟩ := first.reads
    obtain ⟨ms, right, shows'⟩ := chained.reads
    refine ⟨_, by simpa using reads left right, ?_⟩
    exact (shows.append shows').construct (by simp [first.ne_nil]) proper
      (by simpa using chained.nonempty)

namespace Chained

/-- The words of a comparison come to nothing. -/
theorem shows_words (c : Comparison) :
    Shows Word.label c.words (c.kinds.map Mark.of) [] := by
  cases c with
  | notMember | notSame => exact (Shows.word _ rfl).append (Shows.word _ rfl)
  | _ => exact Shows.word _ rfl

theorem compared (c : Comparison) (operand : Phrase 6 ws t) :
    Chained Compares (c.words ++ ws) [t] where
  written := List.forall_mem_append.2 ⟨c.written, operand.written⟩
  nonempty := by simp
  reads := by
    obtain ⟨m, reads, shows⟩ := operand.reads
    exact ⟨_, by simpa [Comparison.kinds] using Compares.last c reads, (shows_words c).append shows⟩

theorem compares (c : Comparison) (operand : Phrase 6 ws t) (links : Chained Compares vs ts) :
    Chained Compares (c.words ++ (ws ++ vs)) (t :: ts) where
  written := List.forall_mem_append.2
    ⟨c.written, List.forall_mem_append.2 ⟨operand.written, links.written⟩⟩
  nonempty := by simp
  reads := by
    obtain ⟨m, reads, shows⟩ := operand.reads
    obtain ⟨ms, compares, shows'⟩ := links.reads
    exact ⟨_, by simpa [Comparison.kinds] using Compares.more c reads compares,
      (shows_words c).append (shows.append shows')⟩

theorem joined (j : Junction) (operand : Phrase (j.rank + 1) ws t) :
    Chained (Joins j) (j.word :: ws) [t] where
  written := List.forall_mem_cons.2 ⟨j.written, operand.written⟩
  nonempty := by simp
  reads := by
    obtain ⟨m, reads, shows⟩ := operand.reads
    exact ⟨_, Joins.last reads, (Shows.word j.word j.written.lexeme).append shows⟩

theorem joins (j : Junction) (operand : Phrase (j.rank + 1) ws t)
    (others : Chained (Joins j) vs ts) : Chained (Joins j) (j.word :: (ws ++ vs)) (t :: ts) where
  written := List.forall_mem_cons.2
    ⟨j.written, List.forall_mem_append.2 ⟨operand.written, others.written⟩⟩
  nonempty := by simp
  reads := by
    obtain ⟨m, reads, shows⟩ := operand.reads
    obtain ⟨ms, joins, shows'⟩ := others.reads
    exact ⟨_, by simpa using Joins.more reads joins,
      (Shows.word j.word j.written.lexeme).append (shows.append shows')⟩

end Chained

theorem Operator.rank_le (o : Operator) : o.rank + 1 ≤ 14 := by cases o <;> decide

theorem Junction.rank_lt (j : Junction) : j.rank + 1 ≤ 14 := by cases j <;> decide

/-! ### Expressions -/

theorem Expression.rank_pos (e : Expression) : 1 ≤ e.rank := by
  cases e with
  | binary o _ _ => cases o <;> exact Nat.succ_pos _
  | joined j _ _ => cases j <;> exact Nat.succ_pos _
  | _ => exact Nat.succ_pos _

mutual

/-- The words of an expression read as an operand of its rank and come to its tree. -/
theorem Expression.phrase (e : Expression) : Phrase e.rank e.words e.tree := by
  match e with
  | .name n => exact .name n
  | .number n => exact .number n
  | .grouped inner => exact (inner.phrase.mono inner.rank_pos).bracketed
  | .power base exponent =>
    exact .power (base.phrase.operand base.rank_pos (by decide))
      (exponent.phrase.operand exponent.rank_pos (by decide))
  | .signed s inner => exact .signed s (inner.phrase.operand inner.rank_pos (by decide))
  | .binary o left right =>
    exact .binary o (left.phrase.operand left.rank_pos (Nat.le_of_lt o.rank_le))
      (right.phrase.operand right.rank_pos o.rank_le)
  | .compared first links =>
    exact links.chained.phrase rfl (first.phrase.operand first.rank_pos (by decide)) Reads.compared
  | .negated inner => exact .negated (inner.phrase.operand inner.rank_pos (by decide))
  | .joined j first others =>
    exact (others.chained j).phrase rfl (first.phrase.operand first.rank_pos j.rank_lt) Reads.joined
  | .conditional body test other =>
    exact .conditional (body.phrase.operand body.rank_pos (by decide))
      (test.phrase.operand test.rank_pos (by decide))
      (other.phrase.operand other.rank_pos (by decide))

/-- The words of the comparisons of a chain read as such and come to the trees of the operands. -/
theorem Links.chained (links : Links) : Chained Compares links.words links.trees := by
  match links with
  | .last c e => exact .compared c (e.phrase.operand e.rank_pos (by decide))
  | .more c e links => exact .compares c (e.phrase.operand e.rank_pos (by decide)) links.chained

/-- The words of the operands of a chain read as such and come to their trees. -/
theorem Operands.chained (j : Junction) (others : Operands) :
    Chained (Joins j) (others.words j) others.trees := by
  match others with
  | .last e => exact .joined j (e.phrase.operand e.rank_pos j.rank_lt)
  | .more e others => exact .joins j (e.phrase.operand e.rank_pos j.rank_lt) (others.chained j)

end

end SureCode
