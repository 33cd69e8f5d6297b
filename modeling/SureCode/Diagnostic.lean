import SureCode.Node.Layout

/-!
# Diagnostics

What is wrong with a text, and where. Most faults say what was expected at a token; each has one
wording.
-/

namespace SureCode

/-- What the grammar can miss at a token. -/
inductive Expected where
  | token (kind : Kind)
  | expression
  | name
  | attributeName
  | parameterName
  | parameter
  | moduleName
  | functionName
  | functionParameters
  | endOfStatement
  | indentedBlock
deriving DecidableEq, Repr

/-- The wording for what is missing. -/
def Expected.wording : Expected → String
  | token kind => "`" ++ ((kind.markText?.or kind.keywordText?).getD kind.label) ++ "`"
  | expression => "expression"
  | name => "name"
  | attributeName => "attribute name"
  | parameterName => "parameter name"
  | parameter => "parameter"
  | moduleName => "module name"
  | functionName => "function name"
  | functionParameters => "function parameters"
  | endOfStatement => "end of statement"
  | indentedBlock => "an indented block"

/-- What is wrong at some place of a text. -/
inductive Fault where
  | expected (what : Expected)
  | unexpectedIndent
  | unmatchedDedent
  | layout (fault : SpanFault)
deriving DecidableEq, Repr

/-- The wording of a fault. -/
def Fault.message : Fault → String
  | expected what => "expected " ++ what.wording
  | unexpectedIndent => "unexpected indent"
  | unmatchedDedent => "unindent does not match any outer indentation level"
  | layout fault => fault.message

/-- A fault and its place. -/
structure Diagnostic where
  fault : Fault
  span : Span
deriving DecidableEq, Repr

/-- Fault and place on one line. -/
def Diagnostic.summary (d : Diagnostic) : String := d.fault.message ++ " at " ++ d.span.toString

end SureCode
