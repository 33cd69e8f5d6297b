import Mathlib
import SureCode.Proofs.Grammar.Erasure
import SureCode.Proofs.Grammar.Rules

/-!
# Logs look at kinds only

Running a program on a log asks a token for nothing but its kind. With other tokens of the same kinds
it does the same (`Renamed.recordRule`), and the log comes to the same marks over those tokens
(`Renamed.marks`), however long it is. Tokens can be told by their numbers, so the log of a text is
that of its numbers (`renamed_read`), and these depend on the kinds of its tokens only
(`numbered_congr`).
-/

namespace SureCode.Grammar

variable {ρ : Type} {f : Token → Token} {l l' : Log}

/-! ### Runs on other tokens -/

/-- A log that is like another one but for its tokens and the places of its faults. -/
structure Renamed (f : Token → Token) (l l' : Log) : Prop where
  current : l'.current = f l.current
  ahead : l'.ahead = l.ahead.map f
  kind : l'.kind = l.kind
  events : l'.events = l.events.map (Event.map f)
  completed : l'.completed = l.completed

/-- Events can be changed where they begin a construct. -/
theorem modify_map {fill : Event → Event}
    (apart : ∀ event, fill (event.map f) = (fill event).map f) (events : List Event) (place : Nat) :
    (events.map (Event.map f)).modify place fill
      = (events.modify place fill).map (Event.map f) := by
  induction events generalizing place with
  | nil => simp
  | cons e es ih => cases place <;> simp [apart, ih]

namespace Renamed

theorem place (renamed : Renamed f l l') : l'.place = l.place := by
  rw [Log.place, renamed.events, List.length_map]
  rfl

theorem begin (renamed : Renamed f l l') (kind : Kind) : Renamed f (l.begin kind) (l'.begin kind) :=
  ⟨renamed.current, renamed.ahead, rfl, by simp [Log.begin, renamed.events, Event.map, Event.tombstone],
    rfl⟩

theorem link (renamed : Renamed f l l') (place : UInt32) :
    Renamed f (l.link place) (l'.link place) := by
  refine ⟨renamed.current, renamed.ahead, renamed.kind, ?_, renamed.completed⟩
  rw [Log.link, Log.link, renamed.place, renamed.events]
  exact modify_map (fun event => by cases event <;> rfl) _ _

theorem complete (renamed : Renamed f l l') (place : UInt32) (outer : Kind) :
    Renamed f (l.complete place outer) (l'.complete place outer) := by
  refine ⟨renamed.current, renamed.ahead, rfl, ?_, rfl⟩
  rw [Log.complete, Log.complete, renamed.events, renamed.kind, List.map_append]
  exact congrArg (· ++ _) (modify_map (fun event => by cases event <;> rfl) _ _)

variable (same : ∀ t, (f t).kind = t.kind)
include same

theorem sees (renamed : Renamed f l l') (test : Lookahead) : l'.sees test = l.sees test := by
  have second : (l.ahead.map f).head?.map (·.kind) = l.ahead.head?.map (·.kind) := by
    cases l.ahead <;> simp [same]
  rw [Log.sees, Log.sees, renamed.current, renamed.ahead, same, second]

theorem advance (renamed : Renamed f l l') : Renamed f l.advance l'.advance := by
  have kept := renamed
  obtain ⟨current, ahead, kind, events, completed⟩ := renamed
  have kinds : l'.current.kind = l.current.kind := by rw [current, same]
  cases more : l.ahead with
  | nil =>
    rw [Log.advance_eq_self (.inl more), Log.advance_eq_self (.inl (by rw [ahead, more]; rfl))]
    exact kept
  | cons next rest =>
    by_cases ended : l.current.kind = .eof
    · rw [Log.advance_eq_self (.inr ended), Log.advance_eq_self (.inr (kinds.trans ended))]
      exact kept
    · rw [Log.advance_eq ended more, Log.advance_eq (kinds ▸ ended) (by rw [ahead, more]; rfl)]
      exact ⟨rfl, rfl, kind, by simp [events, current, Event.map], rfl⟩

variable {run : ρ → Log → Option (Bool × Log)} {result : Bool × Log}

/-- A run of a program with other tokens. -/
theorem record
    (runs : ∀ rule l l' result, Renamed f l l' → run rule l = some result →
      ∃ m, run rule l' = some (result.1, m) ∧ Renamed f result.2 m)
    (p : Program ρ) (renamed : Renamed f l l') (ok : record run p l = some result) :
    ∃ m, Grammar.record run p l' = some (result.1, m) ∧ Renamed f result.2 m := by
  induction p generalizing l l' result with
  | done | fail =>
    obtain rfl := Option.some.inj ok
    exact ⟨l', rfl, renamed⟩
  | advance =>
    obtain rfl := Option.some.inj ok
    exact ⟨l'.advance, rfl, renamed.advance same⟩
  | expect kind what =>
    obtain rfl := Option.some.inj ok
    refine ⟨_, rfl, ?_⟩
    dsimp only
    rw [renamed.current, same]
    split
    · exact renamed.advance same
    · exact ⟨renamed.current, renamed.ahead, renamed.kind, renamed.events, renamed.completed⟩
  | report fault =>
    obtain rfl := Option.some.inj ok
    exact ⟨l'.report fault, rfl,
      renamed.current, renamed.ahead, renamed.kind, renamed.events, renamed.completed⟩
  | call rule =>
    obtain ⟨inner, ran, rfl⟩ := Option.map_eq_some_iff.1 ok
    obtain ⟨m, ran', renamed'⟩ := runs _ _ _ _ renamed ran
    exact ⟨m, by rw [Grammar.record, ran']; rfl, renamed'⟩
  | require rule => exact runs _ _ _ _ renamed ok
  | mark kind body ih =>
    obtain ⟨inner, ran, rfl⟩ := Option.map_eq_some_iff.1 ok
    obtain ⟨m, ran', renamed'⟩ := ih (renamed.begin kind) ran
    refine ⟨_, by rw [Grammar.record, ran']; rfl, ?_⟩
    rw [renamed.place, renamed.kind]
    exact renamed'.complete _ _
  | wrap kind body ih =>
    obtain ⟨place, completed, ok⟩ := Option.bind_eq_some_iff.1 ok
    obtain ⟨inner, ran, rfl⟩ := Option.map_eq_some_iff.1 ok
    obtain ⟨m, ran', renamed'⟩ := ih ((renamed.link place).begin kind) ran
    refine ⟨_, by rw [Grammar.record, renamed.completed, completed, Option.bind_some, ran']; rfl, ?_⟩
    rw [renamed.place, renamed.kind]
    exact renamed'.complete _ _
  | become kind =>
    obtain rfl := Option.some.inj ok
    exact ⟨{ l' with kind }, rfl,
      renamed.current, renamed.ahead, rfl, renamed.events, renamed.completed⟩
  | branch test yes no yes_ih no_ih =>
    rw [Grammar.record] at ok ⊢
    rw [renamed.sees same]
    split at ok
    · rw [if_pos ‹_›]
      exact yes_ih renamed ok
    · rw [if_neg ‹_›]
      exact no_ih renamed ok
  | seq first second first_ih second_ih =>
    rw [Grammar.record] at ok
    rcases ran : Grammar.record run first l with _ | ⟨_ | _, middle⟩
    · simp [ran] at ok
    · rw [ran] at ok
      obtain rfl := Option.some.inj ok
      obtain ⟨m, ran', renamed'⟩ := first_ih renamed ran
      exact ⟨m, by rw [Grammar.record, ran'], renamed'⟩
    · rw [ran] at ok
      obtain ⟨m, ran', renamed'⟩ := first_ih renamed ran
      obtain ⟨m', ran'', renamed''⟩ := second_ih renamed' ok
      exact ⟨m', by rw [Grammar.record, ran']; exact ran'', renamed''⟩

/-- A run of a rule with other tokens. -/
theorem recordRule {program : ρ → Program ρ} (bound : Nat) {rule : ρ} (renamed : Renamed f l l')
    (ok : recordRule program bound rule l = some result) :
    ∃ m, Grammar.recordRule program bound rule l' = some (result.1, m) ∧ Renamed f result.2 m := by
  induction bound generalizing rule l l' result with
  | zero => cases ok
  | succ bound ih =>
    have runs (rule : ρ) (l l' : Log) (result : Bool × Log) (renamed : Renamed f l l')
        (ran : Grammar.recordRule program bound rule l = some result) :
        ∃ m, Grammar.recordRule program bound rule l' = some (result.1, m) ∧ Renamed f result.2 m :=
      ih renamed ran
    exact record same runs (program rule) renamed ok

end Renamed

/-! ### The marks of other tokens -/

/-- A group over other tokens. -/
def Group.map (f : Token → Token) (g : Group) : Group := ⟨g.kind, g.parts.map (Mark.map f)⟩

theorem Group.carries_map (f : Token → Token) : builder.Carries builder f (Group.map f) where
  start _ := rfl
  token g t := by simp [Group.map, builder]
  finish outer inner := by simp [Group.map, builder]

/-- The marks of a log with other tokens. -/
theorem Renamed.marks (renamed : Renamed f l l') : l'.marks = l.marks.map (Mark.map f) := by
  have replayed := replay_map (Group.carries_map f) [⟨.tombstone, []⟩] l.events
  rw [← renamed.events] at replayed
  change replay Group.builder [⟨.tombstone, []⟩] l'.events = _ at replayed
  rw [Log.marks, replayed, Log.marks]
  cases replay Group.builder [⟨.tombstone, []⟩] l.events with
  | none => rfl
  | some stack =>
    rw [Option.map_some, Option.bind_some, Option.bind_some, List.getLast?_map]
    cases stack.getLast? <;> rfl

/-! ### Numbers for tokens -/

section Numbers

variable {ts us : List Token}

/-- Tokens with their numbers for spans. -/
def numbered (ts : List Token) : List Token := ts.zipIdx.map fun (t, i) => .empty t.kind i

/-- The token of some tokens with a number. -/
def recalled (ts : List Token) (t : Token) : Token :=
  { t with span := (ts[t.span.start]?.map (·.span)).getD t.span }

theorem recalled_kind (ts : List Token) (t : Token) : (recalled ts t).kind = t.kind := rfl

theorem map_recalled (ts : List Token) : (numbered ts).map (recalled ts) = ts := by
  refine List.ext_getElem (by simp [numbered]) fun i _ lt => ?_
  simp [numbered, recalled, Token.empty, Span.empty, List.getElem?_eq_getElem lt]

/-- Numbers depend on kinds only. -/
theorem numbered_congr (same : ts.map (·.kind) = us.map (·.kind)) : numbered ts = numbered us := by
  have kinds (ts : List Token) :
      numbered ts = (ts.map (·.kind)).zipIdx.map fun (kind, i) => .empty kind i := by
    rw [List.zipIdx_map, List.map_map]
    rfl
  rw [kinds, same, ← kinds]

theorem ended_numbered (ended : Ended ts) : Ended (numbered ts) := by
  obtain ⟨front, last, rfl, unended, kind⟩ := ended
  refine ⟨numbered front, .empty last.kind front.length, ?_, fun t mem => ?_, kind⟩
  · simp [numbered, List.zipIdx_append]
  · obtain ⟨⟨u, i⟩, here, rfl⟩ := List.mem_map.1 mem
    exact unended u (List.fst_mem_of_mem_zipIdx here)

/-- The log of some tokens is that of their numbers. -/
theorem renamed_read (ended : Ended ts) :
    Renamed (recalled ts) (Log.read (numbered ts)) (Log.read ts) := by
  have begun : Renamed (recalled ts) (.ofTokens (numbered ts)) (.ofTokens ts) := by
    have all := map_recalled ts
    obtain ⟨front, last, eq, -⟩ := ended_numbered ended
    obtain ⟨first, rest, eq⟩ := List.exists_cons_of_ne_nil (show numbered ts ≠ [] by simp [eq])
    rw [eq] at all ⊢
    generalize recalled ts = f at all
    subst all
    exact ⟨rfl, rfl, rfl, rfl, rfl⟩
  have bound : callBound (numbered ts) = callBound ts := by simp [callBound, numbered]
  obtain ⟨result, ran, eq⟩ := Option.map_eq_some_iff.1 (Rule.exists_log (ended_numbered ended)).1
  obtain ⟨log, ran', renamed⟩ := Renamed.recordRule (recalled_kind ts) _ begun ran
  have read : Log.read ts = log := by
    rw [Log.read, Log.read?, ← bound, ran']
    rfl
  rw [read, ← eq]
  exact renamed

end Numbers

end SureCode.Grammar
