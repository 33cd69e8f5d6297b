import SureCode.Grammar.Events
import SureCode.Token.Lexer

/-!
# Parsing

From a text to its tree: the grammar leaves a log of the tokens, replaying the log gives nodes, and
layout fills in code and gaps. A text that does not fit the grammar still has a tree where anything
of it could be read, and the diagnostics say what is wrong.
-/

namespace SureCode

/-- What parsing a text gives. -/
structure Parse (κ : Type) where
  /-- The tree, if the text has any construct. -/
  tree : Option (Node κ)
  diagnostics : List Diagnostic
deriving Repr

namespace Parse

variable {κ : Type}

/-- Whether anything is wrong with the text. -/
def hasErrors (p : Parse κ) : Bool := !p.diagnostics.isEmpty

/-- The tree of a text with nothing wrong. -/
def ok? (p : Parse κ) : Option (Node κ) := if p.hasErrors then none else p.tree

end Parse

/-- Parses a text. -/
def parse {κ : Type} (text : String) : Parse κ :=
  let source := text.toList
  let log := Grammar.Log.read (tokenize text)
  match log.root? with
  | none => ⟨none, log.faults.reverse⟩
  | some root =>
    let tree := Node.layout source root
    match tree.validate source with
    | .ok () => ⟨some tree, log.faults.reverse⟩
    | .error fault => ⟨some tree, log.faults.reverse ++ [⟨.layout fault, tree.label.span⟩]⟩

/-- The tree of a text that parses. -/
def Node.ofText? {κ : Type} (text : String) : Option (Node κ) := (parse text).ok?

/-- The number of nodes of a text that parses. -/
def nodeCount? (text : String) : Option Nat :=
  let p : Parse Float := parse text
  if p.hasErrors then none else some ((p.tree.map Tree.size).getD 0)

end SureCode
