import Mathlib
import SureCode.Proofs.Token.Spelling
import SureCode.Tree.Basic

/-!
# Expressions in writing

Operator expressions as trees, the words they are written with and the nodes they stand for. Every
operator has a rank, from conditional expressions, which bind loosest, up to atoms. An operand whose
rank is lower than its place asks for stands in round brackets (`operand`); further brackets may
stand around every expression (`Expression.grouped`).
-/

namespace SureCode

open Cursor Lexeme SureCode.Tree

/-! ### Names and numbers -/

/-- A name that is no keyword. -/
structure Identifier where
  first : Char
  more : List Char
  starts : startsWord first = true
  continues : ∀ ch ∈ more, continuesWord ch = true
  free : Kind.ofKeyword? (String.ofList (first :: more)) = none

/-- An integer literal: decimal digits, or the digits of another base behind its letter. There may
be underscores among the digits. -/
inductive IntegerLiteral where
  | decimal (first : Char) (more : List Char) (starts : first.isDigit = true)
      (digits : ∀ ch ∈ more, isDigit false ch = true)
  | based (base : Char) (more : List Char) (letter : isBase base = true)
      (digits : ∀ ch ∈ more, isDigit (base == 'x' || base == 'X') ch = true)

namespace Identifier

def word (n : Identifier) : Word := ⟨1, n.first :: n.more, .name⟩

theorem spells (n : Identifier) : Spells n.word.text n.word.kind :=
  spells_word n.starts n.continues (by rw [n.free]; rfl)

end Identifier

namespace IntegerLiteral

def text : IntegerLiteral → List Char
  | decimal first more _ _ => first :: more
  | based base more _ _ => '0' :: base :: more

def word (n : IntegerLiteral) : Word := ⟨1, n.text, .intNumber⟩

theorem spells (n : IntegerLiteral) : Spells n.word.text n.word.kind := by
  cases n with
  | decimal first more starts digits => exact spells_decimal starts digits
  | based base more letter digits => exact spells_based letter digits

end IntegerLiteral

/-! ### Operators -/

/-- A word behind one blank. -/
def Word.spaced (text : String) (kind : Kind) : Word := ⟨1, text.toList, kind⟩

inductive Sign where
  | plus | minus | tilde
deriving DecidableEq, Repr

inductive Operator where
  | bitOr | bitXor | bitAnd | shiftLeft | shiftRight | add | subtract | multiply | divide
  | floorDivide | remainder | matrixMultiply
deriving DecidableEq, Repr

inductive Comparison where
  | less | greater | lessEqual | greaterEqual | equal | notEqual | member | notMember | same
  | notSame
deriving DecidableEq, Repr

inductive Junction where
  | or | and
deriving DecidableEq, Repr

def Sign.word : Sign → Word
  | plus => .spaced "+" .plus
  | minus => .spaced "-" .minus
  | tilde => .spaced "~" .tilde

namespace Operator

def word : Operator → Word
  | bitOr => .spaced "|" .pipe
  | bitXor => .spaced "^" .caret
  | bitAnd => .spaced "&" .ampersand
  | shiftLeft => .spaced "<<" .shiftLeft
  | shiftRight => .spaced ">>" .shiftRight
  | add => .spaced "+" .plus
  | subtract => .spaced "-" .minus
  | multiply => .spaced "*" .star
  | divide => .spaced "/" .slash
  | floorDivide => .spaced "//" .doubleSlash
  | remainder => .spaced "%" .percent
  | matrixMultiply => .spaced "@" .atSign

def rank : Operator → Nat
  | bitOr => 6
  | bitXor => 7
  | bitAnd => 8
  | shiftLeft | shiftRight => 9
  | add | subtract => 10
  | multiply | divide | floorDivide | remainder | matrixMultiply => 11

end Operator

def Comparison.words : Comparison → List Word
  | less => [.spaced "<" .less]
  | greater => [.spaced ">" .greater]
  | lessEqual => [.spaced "<=" .lessEqual]
  | greaterEqual => [.spaced ">=" .greaterEqual]
  | equal => [.spaced "==" .equalEqual]
  | notEqual => [.spaced "!=" .notEqual]
  | member => [.spaced "in" .inKw]
  | notMember => [.spaced "not" .notKw, .spaced "in" .inKw]
  | same => [.spaced "is" .isKw]
  | notSame => [.spaced "is" .isKw, .spaced "not" .notKw]

namespace Junction

def word : Junction → Word
  | or => .spaced "or" .orKw
  | and => .spaced "and" .andKw

def rank : Junction → Nat
  | or => 2
  | and => 3

end Junction

/-! ### Expressions -/

mutual

/-- An operator expression. -/
inductive Expression where
  | name (name : Identifier)
  | number (literal : IntegerLiteral)
  /-- Further brackets around an expression. -/
  | grouped (inner : Expression)
  | power (base exponent : Expression)
  | signed (sign : Sign) (operand : Expression)
  | binary (op : Operator) (left right : Expression)
  | compared (first : Expression) (links : Links)
  | negated (operand : Expression)
  | joined (junction : Junction) (first : Expression) (others : Operands)
  | conditional (body test other : Expression)

/-- The comparisons of a chain, each with its right operand. -/
inductive Links where
  | last (comparison : Comparison) (operand : Expression)
  | more (comparison : Comparison) (operand : Expression) (links : Links)

/-- The operands of a chain behind the first. -/
inductive Operands where
  | last (operand : Expression)
  | more (operand : Expression) (others : Operands)

end

/-- How tightly the outermost operator of an expression binds. -/
def Expression.rank : Expression → Nat
  | conditional _ _ _ => 1
  | joined junction _ _ => junction.rank
  | negated _ => 4
  | compared _ _ => 5
  | binary op _ _ => op.rank
  | signed _ _ => 12
  | power _ _ => 13
  | name _ | number _ | grouped _ => 14

namespace Word

/-- Words in round brackets. -/
def bracketed (ws : List Word) : List Word :=
  spaced "(" .leftParen :: (ws ++ [spaced ")" .rightParen])

/-- The words of an operand where a rank is asked for. -/
def operand (place rank : Nat) (ws : List Word) : List Word :=
  if rank < place then bracketed ws else ws

/-- The text from the first of some words to the last. -/
def code : List Word → List Char
  | [] => []
  | w :: ws => w.text ++ line ws

end Word

open Word (bracketed operand spaced)

mutual

/-- The words of an expression. -/
def Expression.words : Expression → List Word
  | .name n => [n.word]
  | .number n => [n.word]
  | .grouped inner => bracketed inner.words
  | .power base exponent =>
    operand 14 base.rank base.words
      ++ spaced "**" .doubleStar :: operand 12 exponent.rank exponent.words
  | .signed sign e => sign.word :: operand 12 e.rank e.words
  | .binary op left right =>
    operand op.rank left.rank left.words
      ++ op.word :: operand (op.rank + 1) right.rank right.words
  | .compared first links => operand 6 first.rank first.words ++ links.words
  | .negated e => spaced "not" .notKw :: operand 4 e.rank e.words
  | .joined junction first others =>
    operand (junction.rank + 1) first.rank first.words ++ others.words junction
  | .conditional body test other =>
    operand 2 body.rank body.words
      ++ spaced "if" .ifKw :: (operand 2 test.rank test.words
        ++ spaced "else" .elseKw :: operand 1 other.rank other.words)

/-- The words of the comparisons of a chain. -/
def Links.words : Links → List Word
  | .last comparison e => comparison.words ++ operand 6 e.rank e.words
  | .more comparison e links => comparison.words ++ (operand 6 e.rank e.words ++ links.words)

/-- The words of the operands of a chain behind the first. -/
def Operands.words (junction : Junction) : Operands → List Word
  | .last e => junction.word :: operand (junction.rank + 1) e.rank e.words
  | .more e others =>
    junction.word :: (operand (junction.rank + 1) e.rank e.words ++ others.words junction)

end

/-- The kind of a construct with the text of its words. -/
def Word.label (kind : Kind) (ws : List Word) : Kind × String :=
  (kind, String.ofList (Word.code ws))

mutual

/-- The tree of an expression: its kind and its text, with the trees of its operands. Brackets leave
nothing of their own. -/
def Expression.tree : Expression → Tree (Kind × String)
  | e@(.name _) => node (Word.label .ident e.words) []
  | e@(.number _) => node (Word.label .constant e.words) []
  | .grouped inner => inner.tree
  | e@(.power base exponent) => node (Word.label .binOp e.words) [base.tree, exponent.tree]
  | e@(.signed _ inner) => node (Word.label .unaryOp e.words) [inner.tree]
  | e@(.binary _ left right) => node (Word.label .binOp e.words) [left.tree, right.tree]
  | e@(.compared first links) => node (Word.label .compare e.words) (first.tree :: links.trees)
  | e@(.negated inner) => node (Word.label .unaryOp e.words) [inner.tree]
  | e@(.joined _ first others) => node (Word.label .boolOp e.words) (first.tree :: others.trees)
  | e@(.conditional body test other) =>
    node (Word.label .ifExp e.words) [body.tree, test.tree, other.tree]

/-- The trees of the operands of a chain of comparisons behind the first. -/
def Links.trees : Links → List (Tree (Kind × String))
  | .last _ e => [e.tree]
  | .more _ e links => e.tree :: links.trees

/-- The trees of the operands of a chain behind the first. -/
def Operands.trees : Operands → List (Tree (Kind × String))
  | .last e => [e.tree]
  | .more e others => e.tree :: others.trees

end

end SureCode
