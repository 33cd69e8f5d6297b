import SureCode.Grammar.Program

/-!
# The rules

The grammar of the language: simple statements on one line, blocks by indentation, and expressions
by precedence. `Rule.program` gives the program of every rule.

Faults never stop the reader. Where a token is missing it is reported and left out; a token that
fits nowhere is taken over inside an `error` construct, unless it ends a line or a block.
-/

namespace SureCode.Grammar

open Program

/-! ### Tokens -/

/-- The tokens that can begin an expression. -/
def expressionFirst : List Kind :=
  [.name, .intNumber, .floatNumber, .string, .trueKw, .falseKw, .noneKw, .ellipsis, .leftParen,
   .leftBracket, .leftBrace, .plus, .minus, .tilde, .notKw, .lambdaKw, .star]

/-- The tokens that end a line or a block. -/
def lineEnd : List Kind := [.newline, .indent, .dedent, .eof]

/-- The literals of a single token, string literals left out. -/
def literals : List Kind := [.intNumber, .floatNumber, .trueKw, .falseKw, .noneKw, .ellipsis]

/-- The comparisons of a single token, `is` left out. -/
def plainComparisons : List Kind :=
  [.less, .greater, .lessEqual, .greaterEqual, .equalEqual, .notEqual, .inKw]

/-- The levels of binary operators, loosest first; `unary` is tighter than all of them. -/
inductive Level where
  | bitOr | bitXor | bitAnd | shift | sum | product | unary
deriving DecidableEq, Repr

namespace Level

/-- The levels that have operators, each with its operators and the next tighter level. -/
def table : List (Level × List Kind × Level) :=
  [(bitOr, [.pipe], bitXor), (bitXor, [.caret], bitAnd), (bitAnd, [.ampersand], shift),
   (shift, [.shiftLeft, .shiftRight], sum), (sum, [.plus, .minus], product),
   (product, [.star, .slash, .doubleSlash, .percent, .atSign], unary)]

/-- The operators at least as tight as a level, each group with the level of its right operand. -/
def operators (level : Level) : List (List Kind × Level) :=
  (table.filter fun row => level.ctorIdx ≤ row.1.ctorIdx).map (·.2)

end Level

/-! ### Rules -/

/-- The rules of the grammar. -/
inductive Rule where
  -- blocks and lines
  | moduleBody | statements | block | statement | suite | line | lineEnd | restOfLine
  | ifStatement | forStatement | whileStatement | elseClause | functionDef
  | parameterList (inDef : Bool) | parameterTail (inDef : Bool)
  -- simple statements
  | simple | plainStatement | assignedValue | assignedTail | nameTail
  | importFrom | dots | aliases (dotted : Bool) | dottedName | dottedTail
  -- expression lists
  | starExprs | starTail | targets | targetTail | starTarget | starNamed
  -- expressions
  | namedExpr | expr | lambda | yieldExpr | disjunction | orTail | conjunction | andTail
  | inversion | comparison | comparisonTail | bitOr | binary (level : Level)
  | binaryTail (level : Level) | factor | power | primary | trailers
  | callArguments | arguments | slices | sliceTail | slice | sliceRest
  -- atoms
  | atom | strings | parenthesized | listDisplay | braceDisplay | entryTail | entries
  | elements (close : Kind) | comprehensions | conditions
deriving DecidableEq, Repr

namespace Rule

/-- Runs a program if the next token is one of some kinds. -/
def when (kinds : List Kind) (body : Program Rule) : Program Rule :=
  branch ⟨kinds, none⟩ body done

/-- Takes over the next token if it has the given kind. -/
def optional (kind : Kind) : Program Rule := when [kind] advance

/-- The first program whose kinds the next token is among, or else the last one. -/
def choose (cases_ : List (List Kind × Program Rule)) (other : Program Rule) : Program Rule :=
  cases_.foldr (fun entry rest => branch ⟨entry.1, none⟩ entry.2 rest) other

/-- Takes over a token of the given kind or reports that it is missing. -/
def expectToken (kind : Kind) : Program Rule := expect kind (.token kind)

/-- Reports a fault and takes over the next token as an error. -/
def stray (fault : Fault) : Program Rule := mark .error (report fault ++ advance)

/-- An expression list, which becomes a tuple when a comma follows its first item. -/
def listOf (item tail : Rule) : Program Rule :=
  require item ++ when [.comma] (wrap .tuple (call tail))

/-- The further items of an expression list; a comma may be the last thing in it. -/
def listTail (first : List Kind) (item tail : Rule) : Program Rule :=
  when [.comma] (advance ++ when first (call item ++ call tail))

/-- A starred item, or a plain one. -/
def starOr (plain : Rule) : Program Rule :=
  branch ⟨[.star], none⟩ (mark .starred (advance ++ call bitOr)) (require plain)

/-- A chain of operands around one operator, flat in a single construct. -/
def chain (operator : Kind) (operand tail : Rule) : Program Rule :=
  require operand ++ when [operator] (wrap .boolOp (call tail))

/-- The further operands of a chain. -/
def chainTail (operator : Kind) (operand tail : Rule) : Program Rule :=
  when [operator] (advance ++ call operand ++ call tail)

/-! ### Blocks and lines -/

/-- The header and body of a loop or branch: a keyword, a head, a colon and a suite. -/
def compound (head : Program Rule) : Program Rule :=
  advance ++ head ++ expectToken .colon ++ call suite

/-- A function definition after its keyword. -/
def definition : Program Rule :=
  expect .name .functionName
    ++ branch ⟨[.leftParen], none⟩
      (advance ++ call (parameterList true) ++ expectToken .rightParen)
      (report (.expected .functionParameters))
    ++ when [.arrow] (advance ++ call expr)
    ++ expectToken .colon ++ call suite

/-- One parameter, with its annotation if it may have one, and its default after it. -/
def parameter (inDef : Bool) : Program Rule :=
  mark .parameter
      (branch ⟨[.name], none⟩ done advance ++ expect .name .parameterName
        ++ if inDef then when [.colon] (advance ++ call expr) else done)
    ++ when [.equal] (advance ++ call expr)

/-- The parameters up to the end of the list. A lone star and a slash are no parameters. -/
def parameters (inDef : Bool) : Program Rule :=
  let more := when [.comma] (advance ++ call (parameterTail inDef))
  let close : Kind := if inDef then .rightParen else .colon
  choose [(close :: Grammar.lineEnd, done), ([.slash], advance ++ more)] <|
    branch ⟨[.star], some [.name]⟩ (parameter inDef ++ more) <|
      choose
        [([.star], advance ++ more), ([.doubleStar, .name], parameter inDef ++ more)]
        (stray (.expected .parameter) ++ call (parameterTail inDef))

/-! ### Simple statements -/

/-- One simple statement. Without a keyword it is an expression, or an assignment to one. -/
def simpleBody : Program Rule :=
  choose
    [([.passKw], advance ++ become .passStmt),
     ([.breakKw], advance ++ become .breakStmt),
     ([.continueKw], advance ++ become .continueStmt),
     ([.returnKw], advance ++ when expressionFirst (call starExprs) ++ become .returnStmt),
     ([.delKw], advance ++ call targets ++ become .deleteStmt),
     ([.assertKw], advance ++ call expr ++ when [.comma] (advance ++ call expr)
       ++ become .assertStmt),
     ([.raiseKw], advance
       ++ when expressionFirst (call expr ++ when [.fromKw] (advance ++ call expr))
       ++ become .raiseStmt),
     ([.globalKw], advance ++ expect .name .name ++ call nameTail ++ become .globalStmt),
     ([.nonlocalKw], advance ++ expect .name .name ++ call nameTail ++ become .nonlocalStmt),
     ([.importKw], advance ++ call (aliases true) ++ become .importStmt),
     ([.fromKw], call importFrom ++ become .importFrom)]
    (call plainStatement)

/-- A statement that begins with an expression. -/
def plainBody : Program Rule :=
  call assignedValue ++
    choose
      [([.equal], call assignedTail ++ become .assign),
       ([.augOp], advance ++ call assignedValue ++ become .augAssign),
       ([.colon], advance ++ call expr ++ when [.equal] (advance ++ call assignedValue)
         ++ become .annAssign)]
      done

/-- An import from a module, which dots and a name give. -/
def importFromBody : Program Rule :=
  advance
    ++ choose
      [([.dot, .ellipsis], call dots ++ when [.name] (call dottedName)),
       ([.name], call dottedName)]
      (report (.expected .moduleName))
    ++ expectToken .importKw
    ++ choose
      [([.star], advance),
       ([.leftParen], advance ++ call (aliases false) ++ optional .comma
         ++ expectToken .rightParen)]
      (call (aliases false))

/-- Imported names with their aliases. A comma that no name follows is left to others. -/
def aliasesBody (dotted : Bool) : Program Rule :=
  mark .importAlias
      ((if dotted then call dottedName else expect .name .name)
        ++ when [.asKw] (advance ++ expect .name .name))
    ++ branch ⟨[.comma], some [.name]⟩ (advance ++ call (aliases dotted)) done

/-! ### Expressions -/

/-- The further operands of a comparison. -/
def comparisons : Program Rule :=
  let operand := call bitOr ++ call comparisonTail
  branch ⟨[.notKw], some [.inKw]⟩ (advance ++ advance ++ operand) <|
    choose
      [([.isKw], advance ++ optional .notKw ++ operand),
       (plainComparisons, advance ++ operand)]
      done

/-- A comparison chain, if a comparison follows the first operand. -/
def comparisonBody : Program Rule :=
  let chained := wrap .compare (call comparisonTail)
  require bitOr
    ++ branch ⟨[.notKw], some [.inKw]⟩ chained (when (.isKw :: plainComparisons) chained)

/-- The operators that follow an operand, those looser than `level` left to others. -/
def binaryOperators (level : Level) : Program Rule :=
  choose
    (level.operators.map fun entry =>
      (entry.1, wrap .binOp (advance ++ call (binary entry.2)) ++ call (binaryTail level)))
    done

/-- What may follow an operand directly: members, calls and subscripts. -/
def trailersBody : Program Rule :=
  choose
    [([.dot], wrap .member (advance ++ expect .name .attributeName) ++ call trailers),
     ([.leftParen], wrap .call (call callArguments) ++ call trailers),
     ([.leftBracket], wrap .subscript (advance ++ call slices ++ expectToken .rightBracket)
       ++ call trailers)]
    done

/-- The arguments of a call up to its closing bracket. -/
def argumentsBody : Program Rule :=
  let more := when [.comma] (advance ++ call arguments)
  choose
    [(.rightParen :: Grammar.lineEnd, done),
     ([.star], mark .starred (advance ++ call expr) ++ more),
     ([.doubleStar], mark .keywordArg (advance ++ call expr) ++ more)] <|
    branch ⟨[.name], some [.equal]⟩
      (mark .keywordArg (advance ++ advance ++ call expr) ++ more)
      (require namedExpr ++ when [.forKw] (wrap .generatorExp (call comprehensions)) ++ more)

/-- The parts of a slice after its lower bound. -/
def sliceParts : Program Rule :=
  advance ++ when expressionFirst (call expr)
    ++ when [.colon] (advance ++ when expressionFirst (call expr))

/-! ### Atoms -/

/-- What stands between round brackets. -/
def parenthesizedBody : Program Rule :=
  advance ++ choose
    [([.rightParen], advance ++ become .tuple),
     ([.yieldKw], call yieldExpr ++ expectToken .rightParen)]
    (call starNamed
      ++ choose
        [([.forKw], call comprehensions ++ become .generatorExp),
         ([.comma], call (elements .rightParen) ++ become .tuple)]
        done
      ++ expectToken .rightParen)

/-- What stands between square brackets. -/
def listBody : Program Rule :=
  advance ++ choose [([.rightBracket], advance)]
    (call starNamed
      ++ choose [([.forKw], call comprehensions ++ become .listComp)]
        (call (elements .rightBracket))
      ++ expectToken .rightBracket)

/-- What stands between braces: a dictionary as soon as a colon or a double star shows it. -/
def braceBody : Program Rule :=
  advance ++ choose [([.rightBrace], advance)]
    (choose [([.doubleStar], advance ++ call bitOr ++ call entryTail)]
        (call starNamed
          ++ choose
            [([.colon], advance ++ call expr ++ call entryTail),
             ([.forKw], call comprehensions ++ become .setComp)]
            (call (elements .rightBrace) ++ become .set))
      ++ expectToken .rightBrace)

/-- The further entries of a dictionary. -/
def entriesBody : Program Rule :=
  when [.comma] (advance ++
    choose
      [([.rightBrace], done),
       ([.doubleStar], advance ++ call bitOr ++ call entries)]
      (call expr ++ expectToken .colon ++ call expr ++ call entries))

/-- The smallest expressions. -/
def atomBody : Program Rule :=
  choose
    [([.name], mark .ident advance),
     (literals, mark .constant advance),
     ([.string], mark .constant (call strings)),
     ([.leftParen], mark .parenExpr (call parenthesized)),
     ([.leftBracket], mark .list (call listDisplay)),
     ([.leftBrace], mark .dict (call braceDisplay))]
    (mark .error
        (report (.expected .expression) ++ choose [(Grammar.lineEnd, done)] advance)
      ++ fail)

/-- The program of a rule. -/
def program : Rule → Program Rule
  | moduleBody => mark .moduleBody (call statements)
  | statements => choose [([.eof], done)] (call statement ++ call statements)
  | block => choose [([.dedent, .eof], done)] (call statement ++ call block)
  | statement =>
    choose
      [([.ifKw], call ifStatement), ([.forKw], call forStatement),
       ([.whileKw], call whileStatement), ([.defKw], call functionDef),
       ([.indent], stray .unexpectedIndent), ([.dedent], stray .unmatchedDedent)]
      (call line)
  | suite =>
    choose
      [([.newline], advance ++
        choose [([.indent], advance ++ call block ++ optional .dedent)]
          (report (.expected .indentedBlock)))]
      (call line)
  | line =>
    call simple ++
      choose [([.semicolon], advance ++ choose [([.newline, .eof], call lineEnd)] (call line))]
        (call lineEnd)
  | lineEnd =>
    choose [([.newline], advance), ([.eof], done)]
      (report (.expected .endOfStatement) ++ mark .error (call restOfLine) ++ optional .newline)
  | restOfLine => choose [(Grammar.lineEnd, done)] (advance ++ call restOfLine)
  | ifStatement =>
    mark .ifStmt
      (compound (call namedExpr) ++ choose [([.elifKw], call ifStatement)] (call elseClause))
  | forStatement =>
    mark .forStmt
      (compound (call targets ++ expectToken .inKw ++ call starExprs) ++ call elseClause)
  | whileStatement => mark .whileStmt (compound (call namedExpr) ++ call elseClause)
  | elseClause => when [.elseKw] (advance ++ expectToken .colon ++ call suite)
  | functionDef => mark .functionDef (advance ++ definition)
  | parameterList inDef => mark .parameters (call (parameterTail inDef))
  | parameterTail inDef => parameters inDef
  | simple => mark .exprStmt simpleBody
  | plainStatement => plainBody
  | assignedValue => choose [([.yieldKw], call yieldExpr)] (call starExprs)
  | assignedTail => when [.equal] (advance ++ call assignedValue ++ call assignedTail)
  | nameTail => when [.comma] (advance ++ expect .name .name ++ call nameTail)
  | importFrom => importFromBody
  | dots => when [.dot, .ellipsis] (advance ++ call dots)
  | aliases dotted => aliasesBody dotted
  | dottedName => expect .name .name ++ call dottedTail
  | dottedTail => branch ⟨[.dot], some [.name]⟩ (advance ++ advance ++ call dottedTail) done
  | starExprs => listOf starNamed starTail
  | starTail => listTail expressionFirst starNamed starTail
  | targets => listOf starTarget targetTail
  | targetTail => listTail expressionFirst starTarget targetTail
  | starTarget => starOr bitOr
  | starNamed => starOr namedExpr
  | namedExpr =>
    branch ⟨[.name], some [.walrus]⟩ (mark .namedExpr (call atom ++ advance ++ call expr))
      (require expr)
  | expr =>
    choose [([.lambdaKw], require lambda)]
      (require disjunction
        ++ when [.ifKw]
          (wrap .ifExp (advance ++ call disjunction ++ expectToken .elseKw ++ call expr)))
  | lambda =>
    mark .lambda (advance ++ call (parameterList false) ++ expectToken .colon ++ call expr)
  | yieldExpr =>
    mark .yieldExpr
      (advance ++ choose [([.fromKw], advance ++ call expr)]
        (when expressionFirst (call starExprs)))
  | disjunction => chain .orKw conjunction orTail
  | orTail => chainTail .orKw conjunction orTail
  | conjunction => chain .andKw inversion andTail
  | andTail => chainTail .andKw inversion andTail
  | inversion =>
    choose [([.notKw], mark .unaryOp (advance ++ call inversion))] (require comparison)
  | comparison => comparisonBody
  | comparisonTail => comparisons
  | bitOr => require (binary .bitOr)
  | binary level => require factor ++ call (binaryTail level)
  | binaryTail level => binaryOperators level
  | factor =>
    choose [([.plus, .minus, .tilde], mark .unaryOp (advance ++ call factor))] (require power)
  | power => require primary ++ when [.doubleStar] (wrap .binOp (advance ++ call factor))
  | primary => require atom ++ call trailers
  | trailers => trailersBody
  | callArguments => advance ++ call arguments ++ expectToken .rightParen
  | arguments => argumentsBody
  | slices => listOf slice sliceTail
  | sliceTail => listTail (.colon :: expressionFirst) slice sliceTail
  | slice =>
    choose [([.colon], mark .slice (call sliceRest))]
      (require namedExpr ++ when [.colon] (wrap .slice (call sliceRest)))
  | sliceRest => sliceParts
  | atom => atomBody
  | strings => when [.string] (advance ++ call strings)
  | parenthesized => parenthesizedBody
  | listDisplay => listBody
  | braceDisplay => braceBody
  | entryTail =>
    choose [([.forKw], call comprehensions ++ become .dictComp)] (call entries)
  | entries => entriesBody
  | elements close =>
    when [.comma] (advance ++ choose [([close], done)] (call starNamed ++ call (elements close)))
  | comprehensions =>
    when [.forKw]
      (mark .comprehension
          (advance ++ call targets ++ expectToken .inKw ++ call disjunction ++ call conditions)
        ++ call comprehensions)
  | conditions => when [.ifKw] (advance ++ call disjunction ++ call conditions)

end Rule

/-! ### Whole texts -/

/-- A bound on the depth of calls that some tokens lead to. Between two tokens that are taken over,
rules call each other no deeper than the grammar has levels. -/
def callBound (tokens : List Token) : Nat := 64 * (tokens.length + 1)

/-- The place before some tokens. -/
def State.ofTokens (tokens : List Token) : State where
  current := tokens.headD (.empty .eof 0)
  ahead := tokens.tail
  kind := .tombstone
  built := []
  faults := []

/-- The place after the whole text has been read. -/
def State.read (tokens : List Token) : State :=
  match runRule Rule.program (callBound tokens) .moduleBody (.ofTokens tokens) with
  | some (_, s) => s
  | none => .ofTokens tokens

end SureCode.Grammar
