import Mathlib
import SureCode.Proofs.Grammar.Progress
import SureCode.Proofs.Grammar.Recording

/-!
# The rules end

The claims about the rules that bound the depth of their calls (`Rule.measure`), checked rule by rule
and kind by kind, and those about the constructs that they hand over to one another
(`Rule.handover`). Reading a text comes to its end (`exists_read`), and so does its log
(`exists_log`), whose marks are those of the text as long as its places can be told apart
(`marks_read`).
-/

namespace SureCode.Grammar

namespace Rule

/-! ### Claims about the rules -/

/-- The tokens that a rule surely takes over. All statements and the rules behind a keyword or an
opening bracket take over any token; expressions take over any token inside a line, be it as an
error. -/
def eats (rule : Rule) (kind : Kind) : Bool :=
  kind != .eof && match rule with
    | statement | ifStatement | forStatement | whileStatement | functionDef | importFrom | yieldExpr
    | lambda | callArguments | sliceRest | parenthesized | listDisplay | braceDisplay => true
    | simple | plainStatement | assignedValue | starExprs | targets | starTarget | starNamed
    | namedExpr | expr | disjunction | conjunction | inversion | comparison | bitOr | binary _
    | factor | power | primary | slices | slice | atom => !Grammar.lineEnd.contains kind
    | line => kind != .indent && kind != .dedent
    | lineEnd => kind == .newline
    | strings => kind == .string
    | _ => false

/-- How many levels of rules may follow before the next token. An opening bracket is taken over, so
only at the end of the text is there anything below the rules behind one. -/
def rank (rule : Rule) (kind : Kind) : Nat :=
  match rule with
  | parenthesized | listDisplay | braceDisplay => if kind == .eof then 17 else 0
  | callArguments => if kind == .eof then 16 else 0
  | lambda => if kind == .eof then 13 else 0
  | entryTail | dottedName | trailers | lineEnd | parameterList _ => 1
  | atom | aliases _ => 2
  | primary | importFrom => 3
  | power => 4
  | factor => 5
  | binary _ => 6
  | bitOr => 7
  | comparison => 8
  | inversion => 9
  | conjunction => 10
  | disjunction => 11
  | expr => 12
  | namedExpr => 13
  | starNamed | starTarget | slice => 14
  | arguments | targets | starExprs | slices => 15
  | assignedValue => 17
  | plainStatement => 18
  | simple => 19
  | line => 20
  | suite => 21
  | ifStatement | forStatement | whileStatement | functionDef => 22
  | statement => 23
  | block | statements => 24
  | moduleBody => 25
  | _ => 0

def measure : Measure Rule := ⟨eats, rank⟩

/-- The claims about a rule hold before a token of any kind. -/
def measured (rule : Rule) : Bool := Kind.all.all (measure.checks program rule)

theorem measured_eq_true (rule : Rule) : rule.measured = true := by
  cases rule with
  | elements close => rfl
  | parameterList inDef | parameterTail inDef => cases inDef <;> decide +kernel
  | aliases dotted => cases dotted <;> decide +kernel
  | binary level | binaryTail level => cases level <;> decide +kernel
  | _ => decide +kernel

theorem checks_eq_true (rule : Rule) (kind : Kind) : measure.checks program rule kind = true :=
  List.all_eq_true.1 rule.measured_eq_true kind (Kind.mem_all kind)

/-- Rules that read an operand or an item leave a construct to be put into another, and the rules
that go on after an operand take one. -/
def handover : Handover Rule where
  takes
    | binaryTail _ | trailers => true
    | _ => false
  gives
    | starTarget | starNamed | namedExpr | expr | lambda | disjunction | conjunction | inversion
    | comparison | bitOr | binary _ | binaryTail _ | factor | power | primary | trailers | slice
    | atom => true
    | _ => false

theorem handover_checks (rule : Rule) : handover.checks program rule = true := by
  cases rule with
  | elements close => rfl
  | parameterList inDef | parameterTail inDef => cases inDef <;> decide
  | aliases dotted => cases dotted <;> decide
  | binary level | binaryTail level => cases level <;> decide
  | _ => decide

/-! ### The end of a text -/

variable {s : State} {result : Bool × State} {tokens : List Token}

theorem runRule_statements (bound : Nat) (s : State) :
    runRule program (bound + 1) statements s
      = if s.sees ⟨[.eof], none⟩ then some (true, s)
        else (runRule program bound statement s).bind fun first =>
          (runRule program bound statements first.2).map fun rest => (true, rest.2) := by
  change (if _ then _ else _) = _
  split
  · rfl
  · change exec (runRule program bound) (.seq (.call statement) (.call statements)) s = _
    rw [exec, exec]
    cases runRule program bound statement s <;> rfl

theorem runRule_moduleBody (bound : Nat) (s : State) :
    runRule program (bound + 1) moduleBody s
      = (runRule program bound statements (s.enter .moduleBody [])).map fun inner =>
          (true, inner.2.leave s s.built) := by
  change ((runRule program bound statements _).map _).map _ = _
  rw [Option.map_map]
  rfl

/-- Statements are read until the text ends. -/
theorem kind_statements (bound : Nat) (ok : runRule program bound statements s = some result) :
    result.2.current.kind = .eof := by
  induction bound generalizing s result with
  | zero => cases ok
  | succ bound ih =>
    rw [runRule_statements] at ok
    split at ok
    case isTrue ended =>
      obtain rfl := Option.some.inj ok
      simpa [State.sees] using ended
    case isFalse =>
      obtain ⟨first, -, ok⟩ := Option.bind_eq_some_iff.1 ok
      obtain ⟨rest, read, rfl⟩ := Option.map_eq_some_iff.1 ok
      have last := ih read
      exact last

theorem kind_moduleBody (bound : Nat) (ok : runRule program bound moduleBody s = some result) :
    result.2.current.kind = .eof := by
  cases bound with
  | zero => cases ok
  | succ bound =>
    rw [runRule_moduleBody] at ok
    obtain ⟨inner, read, rfl⟩ := Option.map_eq_some_iff.1 ok
    have last := kind_statements bound read
    exact last

/-- A text whose tokens end is read to its end. -/
theorem exists_read (ended : Ended tokens) :
    ∃ success s, runRule program (callBound tokens) moduleBody (.ofTokens tokens)
        = some (success, s) ∧
      State.read tokens = s ∧ s.current.kind = .eof ∧ s.ahead = [] := by
  have left_eq := ended.left_ofTokens
  have ended_left : Ended (State.ofTokens tokens).left := left_eq.symm ▸ ended
  have enough : rankLimit * (State.ofTokens tokens).left.length
      + measure.rank moduleBody (State.ofTokens tokens).current.kind < callBound tokens := by
    rw [left_eq]
    change 64 * tokens.length + 25 < 64 * (tokens.length + 1)
    omega
  obtain ⟨⟨success, s⟩, ok⟩ := Option.isSome_iff_exists.1
    (isSome_runRule checks_eq_true _ moduleBody _ ended_left enough)
  have suffix := (proceeds_runRule checks_eq_true _ _ _ _ ended_left ok).1
  have kind : s.current.kind = .eof := kind_moduleBody _ ok
  exact ⟨success, s, ok, by rw [State.read, ok], kind, (ended_left.left suffix).ahead_eq_nil kind⟩

/-- Reading a text whose tokens end leaves a log that agrees with its marks. -/
theorem exists_log (ended : Ended tokens) :
    Log.read? tokens = some (.read tokens) ∧ Mirrors [] [] (.read tokens) (.read tokens) := by
  obtain ⟨success, s, ok, read, -⟩ := exists_read ended
  have begun : Mirrors [] [] (.ofTokens tokens) (.ofTokens tokens) :=
    ⟨rfl, rfl, rfl, rfl, [], [], none, rfl, .nil, .nil [], rfl⟩
  have free : handover.takes moduleBody = false := rfl
  obtain ⟨log, logged, mirrors, -⟩ := agrees_recordRule handover_checks _ _ _ _ _ _ _ begun
    (fun takes => Bool.noConfusion (free.symm.trans takes)) ok
  have found : Log.read? tokens = some log := by rw [Log.read?, logged]; rfl
  have same : Log.read tokens = log := by rw [Log.read, found]; rfl
  exact ⟨same ▸ found, same ▸ read ▸ mirrors⟩

end Rule

/-! ### The log of a text -/

section Read

variable {tokens : List Token} (ended : Ended tokens)
include ended

theorem faults_read : (Log.read tokens).faults = (State.read tokens).faults :=
  (Rule.exists_log ended).2.faults

theorem tokens_read :
    (Log.read tokens).tokens = Mark.tokensAll (State.read tokens).built.reverse := by
  obtain ⟨-, -, -, -, -, ms, es, last, built, encodes, recorded, -⟩ := Rule.exists_log ended
  rw [Log.tokens, Event.filterMap_token?_congr recorded.bare, List.nil_append, encodes.tokens, built,
    List.nil_append]

/-- The marks of a log have tokens of the text, in their order. -/
theorem sublist_marks_read : (Mark.tokensAll (Log.read tokens).marks).Sublist tokens := by
  have taken := sublist_tokens_marks (Log.read tokens)
  have all := (onward_read tokens).tokens
  rw [ended.left_ofTokens] at all
  change _ = Mark.tokensAll [] ++ tokens at all
  rw [Mark.tokensAll, List.nil_append] at all
  rw [tokens_read ended] at taken
  have more := taken.trans (List.sublist_append_left _ (State.read tokens).left)
  rwa [all] at more

/-- Starts and finishes of a text match. -/
theorem balanced_read : Event.Balanced (Log.read tokens).events := by
  obtain ⟨-, -, -, -, -, ms, es, last, -, encodes, recorded, -⟩ := Rule.exists_log ended
  exact encodes.balanced.of_bare recorded.bare

/-- The log of a text has no kinds other than those of its marks. -/
theorem named_read {kinds : Kind → Prop} (named : Mark.Named kinds (State.read tokens).built) :
    Event.Named kinds (Log.read tokens).events := by
  obtain ⟨-, -, -, -, -, ms, es, last, built, -, recorded, -⟩ := Rule.exists_log ended
  rw [List.nil_append] at built
  exact recorded.named nofun (built ▸ named.subset (List.reverse_subset.2 (List.Subset.refl _)))

variable (short : (Log.read tokens).events.length ≤ UInt32.size)
include short

/-- Where places can be told apart, the log of a text encodes its marks. -/
theorem encodes_read :
    ∃ last, Encodes (State.read tokens).built.reverse (Log.read tokens).events last := by
  obtain ⟨-, -, -, -, -, ms, es, last, built, encodes, recorded, -⟩ := Rule.exists_log ended
  rw [built, recorded.exact short]
  exact ⟨last, encodes⟩

/-- Replaying the log of a text leaves nothing open. -/
theorem replay_read :
    replay Group.builder [⟨.tombstone, []⟩] (Log.read tokens).events
      = some [⟨.tombstone, (State.read tokens).built.reverse⟩] := by
  obtain ⟨last, encodes⟩ := encodes_read ended short
  have replayed := (encodes.adds short).1 ⟨.tombstone, []⟩ [] []
  rw [List.append_nil, replay_nil] at replayed
  exact replayed

theorem marks_read : (Log.read tokens).marks = (State.read tokens).built.reverse := by
  rw [Log.marks, replay_read ended short]
  rfl

end Read

end SureCode.Grammar
