import SureCode.Diagnostic
import SureCode.Grammar.Mark

/-!
# Grammar programs

The grammar is data: every rule has a program, and one interpreter runs them all. A program looks at
the next two tokens at most, takes tokens over one by one, and brackets them into constructs. It
either succeeds or fails; a failure ends the rule it happens in, and `require` passes it on to the
rule that asked.

A rule calls rules, so an interpreter is given a bound on the depth of calls and has no result when
the bound is too small. The one here says what a program means: it brackets the tokens into marks. A
text is read by one that leaves a log of the same marks.
-/

namespace SureCode.Grammar

/-- A test of the next token, and perhaps of the one after it. -/
structure Lookahead where
  first : List Kind
  second : Option (List Kind) := none
deriving Repr, DecidableEq

/-- The program of a rule, over the names `ρ` of rules. -/
inductive Program (ρ : Type) where
  /-- Succeeds. -/
  | done
  /-- Fails. -/
  | fail
  /-- Takes over the next token, whatever it is. The end of the text stays where it is. -/
  | advance
  /-- Takes over the next token if it has the given kind, and else reports what is missing. -/
  | expect (kind : Kind) (what : Expected)
  /-- Reports a fault at the next token. -/
  | report (fault : Fault)
  /-- Runs a rule and goes on, whatever comes of it. -/
  | call (rule : ρ)
  /-- Runs a rule and fails if it does. -/
  | require (rule : ρ)
  /-- Marks what a program takes over as a construct. -/
  | mark (kind : Kind) (body : Program ρ)
  /-- Marks the last mark, and what a program takes over after it, as a construct. -/
  | wrap (kind : Kind) (body : Program ρ)
  /-- Changes the kind of the construct that is being marked. -/
  | become (kind : Kind)
  /-- One of two programs, by the next tokens. -/
  | branch (test : Lookahead) (yes no : Program ρ)
  /-- One program after another. -/
  | seq (first second : Program ρ)
deriving Repr

instance {ρ : Type} : Append (Program ρ) := ⟨.seq⟩

/-- A place between two tokens, inside a construct that is being marked. -/
structure State where
  /-- The next token. -/
  current : Token
  /-- The tokens after the next. -/
  ahead : List Token
  /-- The kind of the construct that is being marked. -/
  kind : Kind
  /-- The marks it has so far, the last one first. -/
  built : List Mark
  /-- The faults so far, the last one first. -/
  faults : List Diagnostic
deriving Repr

namespace State

/-- Whether the next tokens pass a test. Past the end of the text lies nothing but the end. -/
def sees (s : State) (test : Lookahead) : Bool :=
  test.first.contains s.current.kind && match test.second with
    | none => true
    | some kinds => kinds.contains ((s.ahead.head?.map (·.kind)).getD .eof)

/-- Takes over the next token unless it is the end of the text. -/
def advance (s : State) : State :=
  match s.ahead with
  | [] => s
  | next :: ahead =>
    if s.current.kind = .eof then s
    else { s with current := next, ahead, built := .token s.current :: s.built }

/-- Reports a fault at the next token. -/
def report (fault : Fault) (s : State) : State :=
  { s with faults := ⟨fault, s.current.span⟩ :: s.faults }

/-- Begins a construct with the given marks. -/
def enter (kind : Kind) (built : List Mark) (s : State) : State := { s with kind, built }

/-- Ends the construct of `s`, inside the construct of `outer` after the marks `before`. -/
def leave (s outer : State) (before : List Mark) : State :=
  { s with kind := outer.kind, built := .construct s.kind s.built.reverse :: before }

end State

variable {ρ : Type}

/-- Runs a program, given the results of rules. -/
def exec (run : ρ → State → Option (Bool × State)) : Program ρ → State → Option (Bool × State)
  | .done, s => some (true, s)
  | .fail, s => some (false, s)
  | .advance, s => some (true, s.advance)
  | .expect kind what, s =>
    some (true, if s.current.kind = kind then s.advance else s.report (.expected what))
  | .report fault, s => some (true, s.report fault)
  | .call rule, s => (run rule s).map fun result => (true, result.2)
  | .require rule, s => run rule s
  | .mark kind body, s =>
    (exec run body (s.enter kind [])).map fun result => (true, result.2.leave s s.built)
  | .wrap kind body, s =>
    (exec run body (s.enter kind (s.built.take 1))).map fun result =>
      (true, result.2.leave s (s.built.drop 1))
  | .become kind, s => some (true, { s with kind })
  | .branch test yes no, s => if s.sees test then exec run yes s else exec run no s
  | .seq first second, s =>
    match exec run first s with
    | some (true, s) => exec run second s
    | result => result

/-- Runs a rule with the given bound on the depth of calls. -/
def runRule (program : ρ → Program ρ) : Nat → ρ → State → Option (Bool × State)
  | 0, _, _ => none
  | bound + 1, rule, s => exec (runRule program bound) (program rule) s

end SureCode.Grammar
