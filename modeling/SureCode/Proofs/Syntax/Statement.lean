import Mathlib
import SureCode.Proofs.Syntax.Operators

/-!
# Statements of one line

How `pass` and an assignment read as a line of their own, and how a run over lines becomes a run
over a text.
-/

namespace SureCode.Grammar

open Program Rule State

variable {ks rest : List Kind} {m : Mark} {k kind : Kind} {built : List Mark}

/-- An expression is taken over as the value of an assignment. -/
theorem runs_assignedValue (reads : Reads 1 ks m) (loose : binds k < 1)
    (ends : [.walrus, .comma].contains k = false) :
    Runs .assignedValue (.facing (ks ++ k :: rest) kind built)
      (.facing (k :: rest) kind (m :: built)) := by
  have differs : k ≠ .walrus ∧ [Kind.comma].contains k = false := by simpa using ends
  have named : Runs .starNamed (facing (ks ++ k :: rest) kind built) _ :=
    Reads.runs_starNamed reads loose differs.1
  have listed : Runs .starExprs (facing (ks ++ k :: rest) kind built)
      (.facing (k :: rest) kind (m :: built)) := .intro (.seq (.require named) (.skip differs.2))
  obtain ⟨first, others, rfl, le⟩ := reads.opens
  exact .intro (.no (contains_of_opening le (by decide)) (.call listed))

/-- What an assignment to a name is taken over as. -/
def assignMark (m : Mark) : Mark :=
  .construct .assign [.construct .ident [.of .name], .of .equal, m]

/-- A simple statement is taken over with the end of its line. -/
theorem runs_line (simple : Runs .simple (.facing ks kind built)
    (.facing (.newline :: k :: rest) kind (m :: built))) :
    Runs .line (.facing ks kind built) (.facing (k :: rest) kind (.of .newline :: m :: built)) := by
  have ended : Runs .lineEnd (facing (.newline :: k :: rest) kind (m :: built)) _ :=
    .intro (.choose (.take (by decide) (by simp)))
  exact .intro (.seq (.call simple) (.choose (.call ended)))

theorem runs_line_assign (reads : Reads 1 ks m) :
    Runs .line (.facing (.name :: .equal :: (ks ++ .newline :: k :: rest)) kind built)
      (.facing (k :: rest) kind (.of .newline :: assignMark m :: built)) := by
  have target : Runs .assignedValue
      (facing (.name :: .equal :: (ks ++ .newline :: k :: rest)) .exprStmt []) _ :=
    runs_assignedValue (Reads.name.mono (by decide)) (by decide) (by decide)
  have value : Runs .assignedValue (facing (ks ++ .newline :: k :: rest) .exprStmt
      [.of .equal, .construct .ident [.of .name]]) _ :=
    runs_assignedValue reads (by decide) (by decide)
  have ended : Runs .assignedTail (facing (.newline :: k :: rest) .exprStmt
      [m, .of .equal, .construct .ident [.of .name]]) _ := .intro (.skip (by decide))
  have tail : Runs .assignedTail (facing (.equal :: (ks ++ .newline :: k :: rest)) .exprStmt
      [.construct .ident [.of .name]]) _ :=
    .intro (.yes (by decide)
      (.seq (.seq (.take (by decide) (by simp)) (.call value)) (.call ended)))
  have plain : Runs .plainStatement
      (facing (.name :: .equal :: (ks ++ .newline :: k :: rest)) .exprStmt []) _ :=
    .intro (.seq (.call target) (.choose (.seq (.call tail) (.become .assign))))
  have simple : Runs .simple
      (facing (.name :: .equal :: (ks ++ .newline :: k :: rest)) kind built) _ :=
    .intro (.mark (.choose (.call plain)))
  exact runs_line simple

theorem runs_line_pass :
    Runs .line (.facing (.passKw :: .newline :: k :: rest) kind built)
      (.facing (k :: rest) kind
        (.of .newline :: .construct .passStmt [.of .passKw] :: built)) := by
  have simple : Runs .simple (facing (.passKw :: .newline :: k :: rest) kind built) _ :=
    .intro (.mark (.choose (.seq (.take (by decide) (by simp)) (.become .passStmt))))
  exact runs_line simple

end SureCode.Grammar
