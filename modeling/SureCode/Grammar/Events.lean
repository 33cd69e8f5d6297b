import SureCode.Grammar.Rules

/-!
# Events

The grammar run on a log. Instead of marks it leaves one list of events: a token, the start of a
construct or the finish of one. A start is logged before the kind of its construct is known, so it
stands as a tombstone until the construct is complete. A construct can be put around one that is
complete already: its start comes later in the log, and the earlier start is linked forward to it.

A place in a log is a 32-bit number, and so is the distance that a link leads. They wrap around: in a
log of more than `2 ^ 32` events a construct may be completed or linked at a wrong place.

`replay` goes through a log with a stack of the constructs that have begun. A start opens its own
construct inside those that its links lead to, which are struck out of the log. Frames, which gather
the span and the nodes of a construct, make the log of a text into its tree (`Log.root?`).
-/

namespace SureCode.Grammar

variable {ρ κ : Type}

/-- One thing that happens while a text is read. -/
inductive Event where
  /-- A construct begins. A link says how many events further on the construct around it begins. -/
  | start (kind : Kind) (forward : Option UInt32)
  /-- A token is taken over. -/
  | token (token : Token)
  /-- The construct begun last ends. -/
  | finish
deriving DecidableEq, Repr

namespace Event

/-- A start whose construct is not complete, or that has been dealt with. -/
def tombstone : Event := .start .tombstone none

/-- The event with the kind of a construct filled in. -/
def named (kind : Kind) : Event → Event
  | start _ forward => start kind forward
  | event => event

/-- The event with a link filled in. -/
def linked (distance : UInt32) : Event → Event
  | start kind _ => start kind (some distance)
  | event => event

/-- The token that an event takes over. -/
def token? : Event → Option Token
  | token t => some t
  | _ => none

end Event

/-! ### Logging -/

/-- A place between two tokens, with what has happened before it. -/
structure Log where
  /-- The next token. -/
  current : Token
  /-- The tokens after the next. -/
  ahead : List Token
  /-- The kind of the construct that is being read. -/
  kind : Kind
  /-- What has happened, the first event first. -/
  events : List Event
  /-- Where the construct begins that has just been completed, if one has. -/
  completed : Option UInt32
  /-- The faults so far, the last one first. -/
  faults : List Diagnostic
deriving Repr

namespace Log

/-- The log before some tokens. -/
def ofTokens (tokens : List Token) : Log where
  current := tokens.headD (.empty .eof 0)
  ahead := tokens.tail
  kind := .tombstone
  events := []
  completed := none
  faults := []

/-- Whether the next tokens pass a test. Past the end of the text lies nothing but the end. -/
def sees (l : Log) (test : Lookahead) : Bool :=
  test.first.contains l.current.kind && match test.second with
    | none => true
    | some kinds => kinds.contains ((l.ahead.head?.map (·.kind)).getD .eof)

/-- Takes over the next token unless it is the end of the text. -/
def advance (l : Log) : Log :=
  match l.ahead with
  | [] => l
  | next :: ahead =>
    if l.current.kind = .eof then l
    else { l with current := next, ahead, events := l.events ++ [.token l.current],
                  completed := none }

/-- Reports a fault at the next token. -/
def report (fault : Fault) (l : Log) : Log :=
  { l with faults := ⟨fault, l.current.span⟩ :: l.faults }

/-- Begins a construct. -/
def begin (kind : Kind) (l : Log) : Log :=
  { l with kind, events := l.events ++ [.tombstone], completed := none }

/-- The place of the next event. -/
def place (l : Log) : UInt32 := .ofNat l.events.length

/-- Links the construct at a place forward to the one that begins next. -/
def link (place : UInt32) (l : Log) : Log :=
  { l with events := l.events.modify place.toNat (.linked (l.place - place)) }

/-- Ends the construct that begins at a place, inside one of another kind. -/
def complete (place : UInt32) (outer : Kind) (l : Log) : Log :=
  { l with kind := outer, events := l.events.modify place.toNat (.named l.kind) ++ [.finish],
           completed := some place }

/-- The tokens that have been taken over. -/
def tokens (l : Log) : List Token := l.events.filterMap Event.token?

end Log

/-- Runs a program on a log, given the results of rules. Nothing can be put around a construct when
none has just been completed. -/
def record (run : ρ → Log → Option (Bool × Log)) : Program ρ → Log → Option (Bool × Log)
  | .done, l => some (true, l)
  | .fail, l => some (false, l)
  | .advance, l => some (true, l.advance)
  | .expect kind what, l =>
    some (true, if l.current.kind = kind then l.advance else l.report (.expected what))
  | .report fault, l => some (true, l.report fault)
  | .call rule, l => (run rule l).map fun result => (true, result.2)
  | .require rule, l => run rule l
  | .mark kind body, l =>
    (record run body (l.begin kind)).map fun result =>
      (true, result.2.complete l.place l.kind)
  | .wrap kind body, l =>
    l.completed.bind fun place =>
      (record run body ((l.link place).begin kind)).map fun result =>
        (true, result.2.complete l.place l.kind)
  | .become kind, l => some (true, { l with kind })
  | .branch test yes no, l => if l.sees test then record run yes l else record run no l
  | .seq first second, l =>
    match record run first l with
    | some (true, l) => record run second l
    | result => result

/-- Runs a rule on a log with the given bound on the depth of calls. -/
def recordRule (program : ρ → Program ρ) : Nat → ρ → Log → Option (Bool × Log)
  | 0, _, _ => none
  | bound + 1, rule, l => record (recordRule program bound) (program rule) l

/-- The log of a whole text. -/
def Log.read? (tokens : List Token) : Option Log :=
  (recordRule Rule.program (callBound tokens) .moduleBody (.ofTokens tokens)).map (·.2)

/-- The log of a whole text, which is empty when the bound on the depth of calls is too small. -/
def Log.read (tokens : List Token) : Log := (Log.read? tokens).getD (.ofTokens tokens)

/-! ### Replaying -/

/-- The kinds of the constructs that a chain of links leads to, the innermost first, and the events
with their starts struck out. A link leads so many events on. Nothing if it leads past the log. -/
def adopt? : Option Nat → List Event → Option (List Kind × List Event)
  | none, events => some ([], events)
  | some 0, events => some ([], events)
  | some (_ + 1), [] => none
  | some 1, .start kind forward :: rest =>
    (adopt? (forward.map UInt32.toNat) rest).map fun (kinds, rest) =>
      (if kind = .tombstone then kinds else kind :: kinds, .tombstone :: rest)
  | some 1, _ :: rest => some ([], .tombstone :: rest)
  | some (distance + 2), event :: rest =>
    (adopt? (some (distance + 1)) rest).map fun (kinds, rest) => (kinds, event :: rest)

theorem length_adopt? {forward : Option Nat} {events rest : List Event} {kinds : List Kind}
    (adopted : adopt? forward events = some (kinds, rest)) : rest.length = events.length := by
  fun_induction adopt? forward events generalizing kinds rest with
  | case1 | case2 =>
    obtain ⟨-, rfl⟩ := Prod.mk.inj (Option.some.inj adopted)
    rfl
  | case3 => cases adopted
  | case4 kind forward events ih | case6 distance event rest ih =>
    obtain ⟨⟨_, _⟩, inner, eq⟩ := Option.map_eq_some_iff.1 adopted
    obtain ⟨-, rfl⟩ := Prod.mk.inj eq
    exact congrArg (· + 1) (ih inner)
  | case5 =>
    obtain ⟨-, rfl⟩ := Prod.mk.inj (Option.some.inj adopted)
    rfl

/-- What a replay makes of a construct that has begun. -/
structure Builder (φ : Type) where
  /-- The construct when it begins. -/
  start : Kind → φ
  /-- The construct with a further token. -/
  token : φ → Token → φ
  /-- The construct with a further one, which has ended inside it. -/
  finish : φ → φ → φ

/-- The stack of constructs that a log leaves, the innermost first. Nothing if a finish has no
construct to end or none around it, or if a link leads past the log. -/
def replay {φ : Type} (b : Builder φ) (stack : List φ) : List Event → Option (List φ)
  | [] => some stack
  | .start kind forward :: rest =>
    if kind = .tombstone then replay b stack rest
    else
      match _adopted : adopt? (forward.map UInt32.toNat) rest with
      | none => none
      | some (kinds, rest) => replay b ((kind :: kinds).map b.start ++ stack) rest
  | .finish :: rest =>
    match stack with
    | inner :: outer :: stack => replay b (b.finish outer inner :: stack) rest
    | _ => none
  | .token t :: rest =>
    match stack with
    | innermost :: stack => replay b (b.token innermost t :: stack) rest
    | [] => replay b [] rest
termination_by events => events.length
decreasing_by
  case _ => simp
  case _ => simp [length_adopt? _adopted]
  all_goals simp

/-! ### Frames -/

/-- A construct that has begun: its kind, and the span and the children it has so far. -/
structure Frame (κ : Type) where
  kind : Kind
  span : Option Span
  children : List (Node κ)
deriving Repr

namespace Frame

/-- A construct with nothing in it. -/
def ofKind (kind : Kind) : Frame κ := ⟨kind, none, []⟩

/-- The construct with a further stretch of text and its nodes. -/
def cover (frame : Frame κ) (span : Option Span) (children : List (Node κ)) : Frame κ :=
  { frame with
    span := Mark.coverSpan frame.span span
    children := frame.children ++ children }

/-- The nodes that the construct comes to. -/
def settle (frame : Frame κ) : List (Node κ) := Mark.settle frame.kind frame.span frame.children

/-- Frames gather the spans of tokens that are no layout, and the nodes of the constructs inside. -/
def builder : Builder (Frame κ) where
  start := ofKind
  token frame t := frame.cover (if t.kind.isLayout then none else some t.span) []
  finish outer inner := outer.cover inner.span inner.settle

end Frame

/-- The first node that a log comes to, unless the replay stops on the way. -/
def Log.root? (l : Log) : Option (Node κ) :=
  (replay Frame.builder [.ofKind .tombstone] l.events).bind fun stack =>
    stack.getLast?.bind (·.children.head?)

end SureCode.Grammar
