import Mathlib
import SureCode.Proofs.Grammar.Replay

/-!
# Logs and marks agree

Running a program on a log and running it on marks give the same result, take over the same tokens
and report the same faults (`agrees_recordRule`). As long as its places can be told apart, the log
encodes the marks. A longer one still has the tokens of the marks in their order, starts and finishes
that match, and no kinds other than those of the marks (`Recorded`).

What a log needs beyond that is that a construct has just been completed wherever a program puts
another around it, and that no construct is left without a kind; both can be read off the programs
(`Program.completes`, `Program.proper`).
-/

namespace SureCode.Grammar

variable {ρ : Type}

/-! ### Just completed -/

/-- Whether a construct has surely just been completed, after success and after failure. -/
structure Completes where
  onSuccess : Bool
  onFailure : Bool
deriving DecidableEq, Repr

namespace Completes

/-- What holds after the given result. -/
def after (c : Completes) (success : Bool) : Bool := if success then c.onSuccess else c.onFailure

/-- What holds whatever the result is. -/
def always (ready : Bool) : Completes := ⟨ready, ready⟩

/-- What holds after both of two programs. -/
def both (a b : Completes) : Completes :=
  ⟨a.onSuccess && b.onSuccess, a.onFailure && b.onFailure⟩

/-- What holds after one program after another. -/
def andThen (a b : Completes) : Completes := ⟨b.onSuccess, a.onFailure && b.onFailure⟩

variable {a b : Completes} {success : Bool}

@[simp] theorem after_always (ready success : Bool) : (always ready).after success = ready := by
  cases success <;> rfl

theorem after_both : (a.both b).after success = (a.after success && b.after success) := by
  cases success <;> rfl

theorem after_of_andThen (holds : (a.andThen b).after success = true) : b.after success = true := by
  cases success with
  | true => exact holds
  | false => exact (Bool.and_eq_true_iff.1 holds).2

theorem failed_of_andThen (holds : (a.andThen b).after false = true) : a.after false = true :=
  (Bool.and_eq_true_iff.1 holds).1

end Completes

/-- What is known of rules: before which a construct has just been completed, and after which. -/
structure Handover (ρ : Type) where
  /-- The rule is only run when a construct has just been completed. -/
  takes : ρ → Bool
  /-- A construct has just been completed when the rule has run. -/
  gives : ρ → Bool

namespace Program

/-- Whether a construct has surely just been completed after a program, given whether one has before
it. There is nothing to be said about a result that a program cannot have. -/
def completes (known : Handover ρ) (before : Bool) : Program ρ → Completes
  | done => ⟨before, true⟩
  | fail => ⟨true, before⟩
  | advance => ⟨false, true⟩
  | expect _ _ => ⟨false, true⟩
  | report _ => ⟨before, true⟩
  | call rule => ⟨known.gives rule, true⟩
  | require rule => .always (known.gives rule)
  | mark _ _ => .always true
  | wrap _ _ => .always true
  | become _ => ⟨before, true⟩
  | branch _ yes no => (completes known before yes).both (completes known before no)
  | seq first second =>
    let between := completes known before first
    between.andThen (completes known between.onSuccess second)

/-- Whether a program puts constructs only around those that have just been completed, runs rules
only when what they take is there, and gives every construct a kind. -/
def proper (known : Handover ρ) (before : Bool) : Program ρ → Bool
  | call rule => !known.takes rule || before
  | require rule => !known.takes rule || before
  | mark kind body => kind != .tombstone && proper known false body
  | wrap kind body => before && kind != .tombstone && proper known false body
  | become kind => kind != .tombstone
  | branch _ yes no => proper known before yes && proper known before no
  | seq first second =>
    proper known before first && proper known (completes known before first).onSuccess second
  | _ => true

end Program

/-- The claims about a rule. -/
def Handover.checks (known : Handover ρ) (program : ρ → Program ρ) (rule : ρ) : Bool :=
  (program rule).proper known (known.takes rule)
    && (!known.gives rule || (program rule).completes known (known.takes rule) == .always true)

/-! ### Logs of states -/

theorem State.kind_advance (s : State) : s.advance.kind = s.kind := by
  rcases s.advance_cases with ⟨eq, -⟩ | ⟨-, next, ahead, -, eq⟩ <;> rw [eq]

/-! ### The events of a log -/

namespace Log

variable {l : Log}

theorem advance_eq_self (stuck : l.ahead = [] ∨ l.current.kind = .eof) : l.advance = l := by
  unfold Log.advance
  split
  · rfl
  · rename_i next rest more
    exact if_pos (stuck.resolve_left (by simp [more]))

theorem advance_eq {next : Token} {rest : List Token} (going : l.current.kind ≠ .eof)
    (more : l.ahead = next :: rest) :
    l.advance = { l with
      current := next, ahead := rest, events := l.events ++ [.token l.current],
      completed := none } := by
  unfold Log.advance
  rw [more]
  exact if_neg going

end Log

/-- The events of a log that has recorded some marks after some other events. They encode the marks
as long as places can be told apart. A place that is not the right one changes kinds and links, but
no other part of an event. -/
structure Recorded (before : List Event) (ms : List Mark) (es events : List Event) : Prop where
  bare : events.map Event.bare = (before ++ es).map Event.bare
  named : ∀ {kinds : Kind → Prop}, Event.Named kinds before → Mark.Named kinds ms →
    Event.Named kinds events
  exact : events.length ≤ UInt32.size → events = before ++ es

namespace Recorded

variable {before es inner events inside : List Event} {ms first parts : List Mark}

theorem nil (before : List Event) : Recorded before [] [] before := by
  refine ⟨?_, fun named _ => named, fun _ => ?_⟩
  · rw [List.append_nil]
  · rw [List.append_nil]

theorem length (recorded : Recorded before ms es events) :
    events.length = before.length + es.length := by
  rw [← List.length_append, ← List.length_map Event.bare, recorded.bare, List.length_map]

theorem token (recorded : Recorded before ms es events) (t : Token) :
    Recorded before (ms ++ [.token t]) (es ++ [.token t]) (events ++ [.token t]) where
  bare := by simp [recorded.bare]
  named before_named marks := by
    have events_named := recorded.named before_named (Mark.named_append.1 marks).1
    exact events_named.append (.token _ t)
  exact short := by
    rw [List.length_append, List.length_singleton] at short
    rw [recorded.exact (by omega), List.append_assoc]

/-- A link goes to the last construct. -/
theorem link {start : Nat} (recorded : Recorded before ms es events) (within : start < es.length) :
    Recorded before ms (es.modify start (.linked (.ofNat (es.length - start))))
      (events.modify (UInt32.ofNat (before.length + start)).toNat
        (.linked (.ofNat events.length - .ofNat (before.length + start)))) where
  bare := by
    rw [Event.map_modify (Event.bare_linked _), recorded.bare, List.map_append, List.map_append,
      Event.map_modify (Event.bare_linked _)]
  named before_named marks := (recorded.named before_named marks).linked _ _
  exact short := by
    rw [List.length_modify] at short
    have length := recorded.length
    have place : (UInt32.ofNat (before.length + start)).toNat = before.length + start :=
      UInt32.toNat_ofNat_of_lt' (by omega)
    have distance : UInt32.ofNat events.length - .ofNat (before.length + start)
        = .ofNat (es.length - start) := by
      rw [← UInt32.ofNat_sub (by omega), length, Nat.add_sub_add_left]
    rw [place, distance, recorded.exact short, modify_length_add]

/-- A construct is given its kind where it began. -/
theorem construct (outside : Recorded before (ms ++ first) es events)
    (recorded : Recorded (events ++ [.tombstone]) parts inner inside) (kind : Kind) :
    Recorded before (ms ++ [.construct kind (first ++ parts)])
      (es ++ .start kind none :: (inner ++ [.finish]))
      (inside.modify (UInt32.ofNat events.length).toNat (.named kind) ++ [.finish]) where
  bare := by
    rw [List.map_append, Event.map_modify (Event.bare_named _), recorded.bare]
    simp [outside.bare, Event.bare, Event.tombstone]
  named before_named marks := by
    obtain ⟨marks, construct⟩ := Mark.named_append.1 marks
    obtain ⟨own, within⟩ := Mark.named_construct.1 construct
    obtain ⟨first_named, parts_named⟩ := Mark.named_append.1 within
    have outer := outside.named before_named (Mark.named_append.2 ⟨marks, first_named⟩)
    have begun := recorded.named (outer.append (.tombstone _)) parts_named
    exact (begun.filled own _).append (.finish _)
  exact short := by
    rw [List.length_append, List.length_modify, List.length_singleton] at short
    have length := recorded.length
    rw [List.length_append, List.length_singleton] at length
    have place : (UInt32.ofNat events.length).toNat = events.length :=
      UInt32.toNat_ofNat_of_lt' (by omega)
    rw [place, recorded.exact (by omega), List.append_assoc, List.singleton_append, modify_length,
      outside.exact (by omega)]
    simp [Event.tombstone, Event.named]

end Recorded

/-- A log and a place that agree, the log with some events before those that encode the marks, and
the place with some marks before them. -/
structure Mirrors (before : List Event) (outer : List Mark) (l : Log) (s : State) : Prop where
  current : l.current = s.current
  ahead : l.ahead = s.ahead
  kind : l.kind = s.kind
  faults : l.faults = s.faults
  encoded : ∃ ms es last, s.built.reverse = outer ++ ms ∧ Encodes ms es last ∧
    Recorded before ms es l.events ∧
    l.completed = last.map fun start => .ofNat (before.length + start)

namespace Mirrors

variable {before : List Event} {outer : List Mark} {l : Log} {s : State}

theorem sees (mirrors : Mirrors before outer l s) (test : Lookahead) : l.sees test = s.sees test := by
  rw [Log.sees, mirrors.current, mirrors.ahead]
  rfl

theorem advance (mirrors : Mirrors before outer l s) :
    Mirrors before outer l.advance s.advance := by
  obtain ⟨current, ahead, kind, faults, ms, es, last, built, encodes, recorded, completed⟩ := mirrors
  rcases s.advance_cases with ⟨eq, stuck⟩ | ⟨going, next, rest, more, eq⟩
  · rw [eq, Log.advance_eq_self (by rwa [ahead, current])]
    exact ⟨current, ahead, kind, faults, ms, es, last, built, encodes, recorded, completed⟩
  · rw [eq, Log.advance_eq (by rwa [current]) (ahead.trans more)]
    refine ⟨rfl, rfl, kind, faults, ms ++ [.token s.current], es ++ [.token s.current], none, ?_,
      encodes.token s.current, ?_, rfl⟩
    · simp [built]
    · dsimp only
      rw [current]
      exact recorded.token s.current

theorem report (mirrors : Mirrors before outer l s) (fault : Fault) :
    Mirrors before outer (l.report fault) (s.report fault) :=
  ⟨mirrors.current, mirrors.ahead, mirrors.kind,
    by rw [Log.report, State.report, mirrors.faults, mirrors.current], mirrors.encoded⟩

theorem become (mirrors : Mirrors before outer l s) (kind : Kind) :
    Mirrors before outer { l with kind } { s with kind } :=
  ⟨mirrors.current, mirrors.ahead, rfl, mirrors.faults, mirrors.encoded⟩

/-- A construct that begins encodes nothing yet. -/
theorem begin {first built : List Mark} (current : l.current = s.current)
    (ahead : l.ahead = s.ahead) (faults : l.faults = s.faults) (kind : Kind)
    (around : built.reverse = first) :
    Mirrors (l.events ++ [.tombstone]) first (l.begin kind) (s.enter kind built) :=
  ⟨current, ahead, rfl, faults, [], [], none, by simp [State.enter, around], .nil, .nil _, rfl⟩

/-- A construct that ends goes where it began, when its events encode it there. -/
theorem leave {ms first built : List Mark} {es events : List Event} {l' : Log} {s' : State}
    (inside : Mirrors (events ++ [.tombstone]) first l' s') (kind : l.kind = s.kind)
    (outside : built.reverse = outer ++ ms) (recorded : Recorded before (ms ++ first) es events)
    (construct : ∀ {parts inner last}, Encodes parts inner last →
      Encodes (ms ++ [.construct s'.kind (first ++ parts)])
        (es ++ .start s'.kind none :: (inner ++ [.finish])) (some es.length)) :
    Mirrors before outer (l'.complete (.ofNat events.length) l.kind) (s'.leave s built) := by
  obtain ⟨current, ahead, kind', faults, parts, inner, last, built', encodes, within, -⟩ := inside
  refine ⟨current, ahead, kind, faults, _, _, _, ?_, construct encodes, ?_, ?_⟩
  · simp [State.leave, outside, built']
  · rw [Log.complete, kind']
    exact recorded.construct within s'.kind
  · rw [Log.complete, recorded.length]
    rfl

/-- A log and a place agree inside a new construct, and after it when they do at its end. -/
theorem mark (mirrors : Mirrors before outer l s) (kind : Kind) :
    Mirrors (l.events ++ [.tombstone]) [] (l.begin kind) (s.enter kind []) ∧
      ∀ l' s', Mirrors (l.events ++ [.tombstone]) [] l' s' → s'.kind ≠ .tombstone →
        Mirrors before outer (l'.complete l.place l.kind) (s'.leave s s.built) := by
  obtain ⟨current, ahead, same, faults, ms, es, last, built, encodes, recorded, -⟩ := mirrors
  refine ⟨.begin current ahead faults kind rfl, fun l' s' inside named => ?_⟩
  exact inside.leave same built (by rwa [List.append_nil]) (.mark named encodes)

/-- A log and a place agree inside a construct around the last mark, and after it when they do at its
end. The start of that mark is where a construct has just been completed. -/
theorem wrap {place : UInt32} (mirrors : Mirrors before outer l s)
    (completed : l.completed = some place) (kind : Kind) :
    ∃ first, Mirrors ((l.link place).events ++ [.tombstone]) first ((l.link place).begin kind)
        (s.enter kind (s.built.take 1)) ∧
      ∀ l' s', Mirrors ((l.link place).events ++ [.tombstone]) first l' s' → s'.kind ≠ .tombstone →
        Mirrors before outer (l'.complete l.place l.kind) (s'.leave s (s.built.drop 1)) := by
  obtain ⟨current, ahead, same, faults, ms, es, last, built, encodes, recorded, places⟩ := mirrors
  obtain ⟨start, rfl, rfl⟩ := Option.map_eq_some_iff.1 (places.symm.trans completed)
  obtain ⟨front, m, rfl⟩ := encodes.exists_concat
  have linked : Recorded before (front ++ [m])
      (es.modify start (.linked (.ofNat (es.length - start))))
      (l.link (.ofNat (before.length + start))).events := recorded.link encodes.start_lt
  have built_eq : s.built = m :: (outer ++ front).reverse := by
    rw [← List.reverse_reverse s.built, built]
    simp
  have around : (s.built.take 1).reverse = [m] := by simp [built_eq]
  have outside : (s.built.drop 1).reverse = outer ++ front := by simp [built_eq]
  have begun := begin (l := l.link (.ofNat (before.length + start))) current ahead faults kind around
  refine ⟨[m], begun, fun l' s' inside named => ?_⟩
  have place : l.place = .ofNat (l.link (.ofNat (before.length + start))).events.length := by
    rw [Log.link, List.length_modify, Log.place]
  rw [place]
  refine inside.leave same outside linked fun inner => ?_
  rw [List.length_modify]
  exact .wrap named encodes inner

end Mirrors

/-! ### Runs on logs -/

section Runs

variable {known : Handover ρ} {run : ρ → State → Option (Bool × State)}
  {log : ρ → Log → Option (Bool × Log)} {before : List Event} {outer : List Mark} {l : Log}
  {s : State} {result : Bool × State} {ready : Bool}

/-- A run on a log that agrees with the result of one on marks. The construct that is being read
keeps a kind. -/
def Follows (before : List Event) (outer : List Mark) (s : State) (result : Bool × State)
    (ready : Bool) (recorded : Option (Bool × Log)) : Prop :=
  ∃ l, recorded = some (result.1, l) ∧ Mirrors before outer l result.2 ∧
    (ready = true → l.completed.isSome = true) ∧
    (s.kind ≠ .tombstone → result.2.kind ≠ .tombstone)

/-- Running rules on logs agrees with running them on marks. -/
def Agrees (known : Handover ρ) (run : ρ → State → Option (Bool × State))
    (log : ρ → Log → Option (Bool × Log)) : Prop :=
  ∀ rule before outer l s result, Mirrors before outer l s →
    (known.takes rule = true → l.completed.isSome = true) → run rule s = some result →
      Follows before outer s result (known.gives rule) (log rule l)

/-- What a rule takes is there where a proper program runs it. -/
theorem taken_of_proper {rule : ρ} (proper : (!known.takes rule || ready) = true)
    (given : ready = true → l.completed.isSome = true) (takes : known.takes rule = true) :
    l.completed.isSome = true := by
  rw [takes] at proper
  exact given proper

/-- A program that is proper runs on a log as it does on marks. -/
theorem follows_exec (agrees : Agrees known run log) (p : Program ρ)
    (proper : p.proper known ready = true) (mirrors : Mirrors before outer l s)
    (given : ready = true → l.completed.isSome = true) (ok : exec run p s = some result) :
    Follows before outer s result ((p.completes known ready).after result.1) (record log p l) := by
  -- the body of a construct is a run of its own, behind the events and the marks outside
  induction p generalizing before outer l s result ready with
  | done | fail =>
    obtain rfl := Option.some.inj ok
    exact ⟨l, rfl, mirrors, given, id⟩
  | advance =>
    obtain rfl := Option.some.inj ok
    exact ⟨l.advance, rfl, mirrors.advance, nofun, fun named => s.kind_advance.symm ▸ named⟩
  | expect kind what =>
    obtain rfl := Option.some.inj ok
    refine ⟨_, rfl, ?_, nofun, ?_⟩
    · rw [mirrors.current]
      dsimp only
      split
      · exact mirrors.advance
      · exact mirrors.report _
    · dsimp only
      split
      · exact fun named => s.kind_advance.symm ▸ named
      · exact id
  | report fault =>
    obtain rfl := Option.some.inj ok
    exact ⟨l.report fault, rfl, mirrors.report fault, given, id⟩
  | call rule =>
    obtain ⟨inner, ran, rfl⟩ := Option.map_eq_some_iff.1 ok
    obtain ⟨l', logged, mirrors', gives, named⟩ :=
      agrees _ _ _ _ _ _ mirrors (taken_of_proper proper given) ran
    exact ⟨l', by rw [record, logged]; rfl, mirrors', gives, named⟩
  | require rule =>
    obtain ⟨l', logged, mirrors', gives, named⟩ :=
      agrees _ _ _ _ _ _ mirrors (taken_of_proper proper given) ok
    refine ⟨l', logged, mirrors', fun ready => gives ?_, named⟩
    rwa [Program.completes, Completes.after_always] at ready
  | mark kind body ih =>
    obtain ⟨inner, ran, rfl⟩ := Option.map_eq_some_iff.1 ok
    obtain ⟨named, proper⟩ := Bool.and_eq_true_iff.1 proper
    obtain ⟨begun, ends⟩ := mirrors.mark kind
    obtain ⟨l', logged, inside, -, kept⟩ := ih proper begun nofun ran
    exact ⟨_, by rw [record, logged]; rfl, ends _ _ inside (kept (bne_iff_ne.1 named)), fun _ => rfl,
      id⟩
  | wrap kind body ih =>
    obtain ⟨inner, ran, rfl⟩ := Option.map_eq_some_iff.1 ok
    simp only [Program.proper, Bool.and_eq_true] at proper
    obtain ⟨⟨rfl, named⟩, proper⟩ := proper
    obtain ⟨place, completed⟩ := Option.isSome_iff_exists.1 (given rfl)
    obtain ⟨first, begun, ends⟩ := mirrors.wrap completed kind
    obtain ⟨l', logged, inside, -, kept⟩ := ih proper begun nofun ran
    exact ⟨_, by rw [record, completed, Option.bind_some, logged]; rfl,
      ends _ _ inside (kept (bne_iff_ne.1 named)), fun _ => rfl, id⟩
  | become kind =>
    obtain rfl := Option.some.inj ok
    exact ⟨{ l with kind }, rfl, mirrors.become kind, given, fun _ => bne_iff_ne.1 proper⟩
  | branch test yes no yes_ih no_ih =>
    obtain ⟨yes_proper, no_proper⟩ := Bool.and_eq_true_iff.1 proper
    rw [record, mirrors.sees]
    rcases exec_branch_eq_some_iff.1 ok with ⟨seen, ok⟩ | ⟨unseen, ok⟩
    · obtain ⟨l', logged, mirrors', gives, named⟩ := yes_ih yes_proper mirrors given ok
      refine ⟨l', by rw [if_pos seen, logged], mirrors', fun ready => gives ?_, named⟩
      rw [Program.completes, Completes.after_both, Bool.and_eq_true_iff] at ready
      exact ready.1
    · obtain ⟨l', logged, mirrors', gives, named⟩ := no_ih no_proper mirrors given ok
      refine ⟨l', by rw [if_neg unseen, logged], mirrors', fun ready => gives ?_, named⟩
      rw [Program.completes, Completes.after_both, Bool.and_eq_true_iff] at ready
      exact ready.2
  | seq first second first_ih second_ih =>
    obtain ⟨first_proper, second_proper⟩ := Bool.and_eq_true_iff.1 proper
    rcases exec_seq_eq_some_iff.1 ok with ⟨middle, ran, ok⟩ | ⟨failed, ok⟩
    · obtain ⟨l', logged, mirrors', gives, named⟩ := first_ih first_proper mirrors given ran
      obtain ⟨l'', logged', mirrors'', gives', named'⟩ := second_ih second_proper mirrors' gives ok
      exact ⟨l'', by rw [record, logged]; exact logged', mirrors'',
        fun ready => gives' (Completes.after_of_andThen ready), fun kept => named' (named kept)⟩
    · obtain ⟨l', logged, mirrors', gives, named⟩ := first_ih first_proper mirrors given ok
      rw [failed] at logged gives
      refine ⟨l', by rw [record, logged, failed], mirrors', fun ready => gives ?_, named⟩
      rw [failed] at ready
      exact Completes.failed_of_andThen ready

/-- Rules about which the claims hold run on logs as they do on marks. -/
theorem agrees_recordRule {program : ρ → Program ρ}
    (checked : ∀ rule, known.checks program rule = true) (bound : Nat) :
    Agrees known (runRule program bound) (recordRule program bound) := by
  induction bound with
  | zero => exact fun _ _ _ _ _ _ _ _ ok => nomatch ok
  | succ bound ih =>
    intro rule before outer l s result mirrors taken ok
    obtain ⟨proper, gives⟩ := Bool.and_eq_true_iff.1 (checked rule)
    obtain ⟨l', logged, mirrors', completed, named⟩ :=
      follows_exec ih (program rule) proper mirrors taken ok
    refine ⟨l', logged, mirrors', fun ready => completed ?_, named⟩
    rw [ready, Bool.not_true, Bool.false_or, beq_iff_eq] at gives
    rw [gives, Completes.after_always]

end Runs

end SureCode.Grammar
