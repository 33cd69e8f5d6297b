/-!
# Kinds

One enumeration names the kinds of tokens and the kinds of constructs. Its order is fixed, since a
kind's number is its place in the order and the keywords are one stretch of it.
-/

namespace SureCode

/-- What a token or a construct is. -/
inductive Kind where
  -- Brackets and punctuation
  | leftParen | rightParen | leftBracket | rightBracket | leftBrace | rightBrace | comma | colon
  | semicolon | dot | ellipsis | equal | arrow | walrus | augOp
  -- Operators
  | plus | minus | star | doubleStar | slash | doubleSlash | percent | atSign | shiftLeft
  | shiftRight | ampersand | pipe | caret | tilde
  -- Comparisons
  | less | greater | lessEqual | greaterEqual | equalEqual | notEqual
  -- Keywords
  | andKw | asKw | assertKw | breakKw | continueKw | defKw | delKw | elifKw | elseKw | falseKw
  | forKw | fromKw | globalKw | ifKw | importKw | inKw | isKw | lambdaKw | noneKw | nonlocalKw
  | notKw | orKw | passKw | raiseKw | returnKw | trueKw | whileKw | yieldKw
  -- Words and literals
  | name | intNumber | floatNumber | string
  -- Layout, and what no other kind fits
  | newline | indent | dedent | unknown | eof
  -- Statements
  | moduleBody | exprStmt | parenExpr | returnStmt | assign | augAssign | annAssign | passStmt
  | breakStmt | continueStmt | deleteStmt | assertStmt | raiseStmt | globalStmt | nonlocalStmt
  | importStmt | importFrom | importAlias | ifStmt | forStmt | whileStmt | functionDef
  | parameters | parameter
  -- Expressions
  | binOp | boolOp | unaryOp | compare | call | keywordArg | member | subscript | slice | ident
  | constant | list | tuple | set | dict | listComp | setComp | dictComp | generatorExp
  | comprehension | ifExp | lambda | starred | namedExpr | yieldExpr | error | tombstone
deriving DecidableEq, Repr

namespace Kind

instance : Inhabited Kind := ⟨.unknown⟩

/-- All kinds in their order. -/
def all : List Kind :=
  [.leftParen, .rightParen, .leftBracket, .rightBracket, .leftBrace, .rightBrace, .comma, .colon,
   .semicolon, .dot, .ellipsis, .equal, .arrow, .walrus, .augOp, .plus, .minus, .star,
   .doubleStar, .slash, .doubleSlash, .percent, .atSign, .shiftLeft, .shiftRight, .ampersand,
   .pipe, .caret, .tilde, .less, .greater, .lessEqual, .greaterEqual, .equalEqual, .notEqual,
   .andKw, .asKw, .assertKw, .breakKw, .continueKw, .defKw, .delKw, .elifKw, .elseKw, .falseKw,
   .forKw, .fromKw, .globalKw, .ifKw, .importKw, .inKw, .isKw, .lambdaKw, .noneKw, .nonlocalKw,
   .notKw, .orKw, .passKw, .raiseKw, .returnKw, .trueKw, .whileKw, .yieldKw, .name, .intNumber,
   .floatNumber, .string, .newline, .indent, .dedent, .unknown, .eof, .moduleBody, .exprStmt,
   .parenExpr, .returnStmt, .assign, .augAssign, .annAssign, .passStmt, .breakStmt,
   .continueStmt, .deleteStmt, .assertStmt, .raiseStmt, .globalStmt, .nonlocalStmt, .importStmt,
   .importFrom, .importAlias, .ifStmt, .forStmt, .whileStmt, .functionDef, .parameters,
   .parameter, .binOp, .boolOp, .unaryOp, .compare, .call, .keywordArg, .member, .subscript,
   .slice, .ident, .constant, .list, .tuple, .set, .dict, .listComp, .setComp, .dictComp,
   .generatorExp, .comprehension, .ifExp, .lambda, .starred, .namedExpr, .yieldExpr, .error,
   .tombstone]

/-- The place of a kind in the order. -/
def number (kind : Kind) : Nat := kind.ctorIdx

/-- The name under which trees and records show a kind. -/
def label : Kind → String
  | .leftParen => "LEFT_PAREN"
  | .rightParen => "RIGHT_PAREN"
  | .leftBracket => "LEFT_BRACKET"
  | .rightBracket => "RIGHT_BRACKET"
  | .leftBrace => "LEFT_BRACE"
  | .rightBrace => "RIGHT_BRACE"
  | .comma => "COMMA"
  | .colon => "COLON"
  | .semicolon => "SEMICOLON"
  | .dot => "DOT"
  | .ellipsis => "ELLIPSIS"
  | .equal => "EQ"
  | .arrow => "ARROW"
  | .walrus => "WALRUS"
  | .augOp => "AUG_OP"
  | .plus => "PLUS"
  | .minus => "MINUS"
  | .star => "STAR"
  | .doubleStar => "DOUBLE_STAR"
  | .slash => "SLASH"
  | .doubleSlash => "DOUBLE_SLASH"
  | .percent => "PERCENT"
  | .atSign => "AT"
  | .shiftLeft => "LSHIFT"
  | .shiftRight => "RSHIFT"
  | .ampersand => "AMP"
  | .pipe => "PIPE"
  | .caret => "CARET"
  | .tilde => "TILDE"
  | .less => "LT"
  | .greater => "GT"
  | .lessEqual => "LT_EQ"
  | .greaterEqual => "GT_EQ"
  | .equalEqual => "EQ_EQ"
  | .notEqual => "NOT_EQ"
  | .andKw => "AND_KW"
  | .asKw => "AS_KW"
  | .assertKw => "ASSERT_KW"
  | .breakKw => "BREAK_KW"
  | .continueKw => "CONTINUE_KW"
  | .defKw => "DEF_KW"
  | .delKw => "DEL_KW"
  | .elifKw => "ELIF_KW"
  | .elseKw => "ELSE_KW"
  | .falseKw => "FALSE_KW"
  | .forKw => "FOR_KW"
  | .fromKw => "FROM_KW"
  | .globalKw => "GLOBAL_KW"
  | .ifKw => "IF_KW"
  | .importKw => "IMPORT_KW"
  | .inKw => "IN_KW"
  | .isKw => "IS_KW"
  | .lambdaKw => "LAMBDA_KW"
  | .noneKw => "NONE_KW"
  | .nonlocalKw => "NONLOCAL_KW"
  | .notKw => "NOT_KW"
  | .orKw => "OR_KW"
  | .passKw => "PASS_KW"
  | .raiseKw => "RAISE_KW"
  | .returnKw => "RETURN_KW"
  | .trueKw => "TRUE_KW"
  | .whileKw => "WHILE_KW"
  | .yieldKw => "YIELD_KW"
  | .name => "NAME"
  | .intNumber => "INT_NUMBER"
  | .floatNumber => "FLOAT_NUMBER"
  | .string => "STRING"
  | .newline => "NEWLINE"
  | .indent => "INDENT"
  | .dedent => "DEDENT"
  | .unknown => "UNKNOWN"
  | .eof => "EOF"
  | .moduleBody => "MODULE"
  | .exprStmt => "EXPR_STMT"
  | .parenExpr => "PAREN_EXPR"
  | .returnStmt => "RETURN"
  | .assign => "ASSIGN"
  | .augAssign => "AUG_ASSIGN"
  | .annAssign => "ANN_ASSIGN"
  | .passStmt => "PASS"
  | .breakStmt => "BREAK"
  | .continueStmt => "CONTINUE"
  | .deleteStmt => "DELETE"
  | .assertStmt => "ASSERT"
  | .raiseStmt => "RAISE"
  | .globalStmt => "GLOBAL"
  | .nonlocalStmt => "NONLOCAL"
  | .importStmt => "IMPORT"
  | .importFrom => "IMPORT_FROM"
  | .importAlias => "ALIAS"
  | .ifStmt => "IF"
  | .forStmt => "FOR"
  | .whileStmt => "WHILE"
  | .functionDef => "FUNCTION_DEF"
  | .parameters => "ARGUMENTS"
  | .parameter => "ARG"
  | .binOp => "BIN_OP"
  | .boolOp => "BOOL_OP"
  | .unaryOp => "UNARY_OP"
  | .compare => "COMPARE"
  | .call => "CALL"
  | .keywordArg => "KEYWORD"
  | .member => "ATTRIBUTE"
  | .subscript => "SUBSCRIPT"
  | .slice => "SLICE"
  | .ident => "IDENT"
  | .constant => "CONSTANT"
  | .list => "LIST"
  | .tuple => "TUPLE"
  | .set => "SET"
  | .dict => "DICT"
  | .listComp => "LIST_COMP"
  | .setComp => "SET_COMP"
  | .dictComp => "DICT_COMP"
  | .generatorExp => "GENERATOR_EXP"
  | .comprehension => "COMPREHENSION"
  | .ifExp => "IF_EXP"
  | .lambda => "LAMBDA"
  | .starred => "STARRED"
  | .namedExpr => "NAMED_EXPR"
  | .yieldExpr => "YIELD"
  | .error => "ERROR"
  | .tombstone => "TOMBSTONE"

/-- The kind with the given name. -/
def ofLabel? (label : String) : Option Kind := all.find? fun kind => kind.label == label

/-- The word that a keyword is spelled with. -/
def keywordText? : Kind → Option String
  | .andKw => some "and"
  | .asKw => some "as"
  | .assertKw => some "assert"
  | .breakKw => some "break"
  | .continueKw => some "continue"
  | .defKw => some "def"
  | .delKw => some "del"
  | .elifKw => some "elif"
  | .elseKw => some "else"
  | .falseKw => some "False"
  | .forKw => some "for"
  | .fromKw => some "from"
  | .globalKw => some "global"
  | .ifKw => some "if"
  | .importKw => some "import"
  | .inKw => some "in"
  | .isKw => some "is"
  | .lambdaKw => some "lambda"
  | .noneKw => some "None"
  | .nonlocalKw => some "nonlocal"
  | .notKw => some "not"
  | .orKw => some "or"
  | .passKw => some "pass"
  | .raiseKw => some "raise"
  | .returnKw => some "return"
  | .trueKw => some "True"
  | .whileKw => some "while"
  | .yieldKw => some "yield"
  | _ => none

/-- The keyword that a word is. -/
def ofKeyword? (word : String) : Option Kind :=
  all.find? fun kind => kind.keywordText? == some word

/-- The words that cannot be names. -/
def isKeyword (kind : Kind) : Bool := kind.keywordText?.isSome

/-- The marks with a single spelling: brackets, punctuation, operators and comparisons. -/
def markText? : Kind → Option String
  | .leftParen => some "("
  | .rightParen => some ")"
  | .leftBracket => some "["
  | .rightBracket => some "]"
  | .leftBrace => some "\x7b"
  | .rightBrace => some "\x7d"
  | .comma => some ","
  | .colon => some ":"
  | .semicolon => some ";"
  | .dot => some "."
  | .ellipsis => some "..."
  | .equal => some "="
  | .arrow => some "->"
  | .walrus => some ":="
  | .plus => some "+"
  | .minus => some "-"
  | .star => some "*"
  | .doubleStar => some "**"
  | .slash => some "/"
  | .doubleSlash => some "//"
  | .percent => some "%"
  | .atSign => some "@"
  | .shiftLeft => some "<<"
  | .shiftRight => some ">>"
  | .ampersand => some "&"
  | .pipe => some "|"
  | .caret => some "^"
  | .tilde => some "~"
  | .less => some "<"
  | .greater => some ">"
  | .lessEqual => some "<="
  | .greaterEqual => some ">="
  | .equalEqual => some "=="
  | .notEqual => some "!="
  | _ => none

/-- Tokens that show where lines and blocks end. They have no text of their own, or only blanks, and
never widen a construct. -/
def isLayout : Kind → Bool
  | .newline | .indent | .dedent | .eof => true
  | _ => false

/-- Constructs that are marked while reading but are no nodes: their children belong to the node
around them. -/
def isTransparent : Kind → Bool
  | .exprStmt | .parenExpr => true
  | _ => false

theorem mem_all (kind : Kind) : kind ∈ all := by
  cases kind <;> decide

end Kind

/-! ### Sets of kinds -/

/-- A finite set of kinds. -/
structure KindSet where
  members : List Kind
deriving Repr, Inhabited

namespace KindSet

def empty : KindSet := ⟨[]⟩

def ofList (kinds : List Kind) : KindSet := ⟨kinds⟩

def union (s t : KindSet) : KindSet := ⟨s.members ++ t.members⟩

def contains (s : KindSet) (kind : Kind) : Bool := s.members.contains kind

@[simp] theorem contains_empty (kind : Kind) : empty.contains kind = false := rfl

@[simp] theorem contains_ofList (kinds : List Kind) (kind : Kind) :
    (ofList kinds).contains kind = kinds.contains kind := rfl

@[simp] theorem contains_union (s t : KindSet) (kind : Kind) :
    (s.union t).contains kind = (s.contains kind || t.contains kind) := by
  simp [contains, union]

end KindSet

end SureCode
