import Mathlib
import SureCode.Grammar.Events
import SureCode.Proofs.Grammar.Run

/-!
# Replaying any log

A replay that gathers the marks of every construct stands behind every other one: builders that
carry over to each other make the same of a log (`replay_map`), and frames are what groups of marks
come to (`carries_frame`). So the tree of a log is that of its marks (`root?_eq`). Whatever the log,
these have tokens of the log in their order (`sublist_tokens_marks`) and constructs of the kinds that
its starts have (`named_marks`).
-/

namespace SureCode

namespace Mark

variable {κ : Type}

theorem coverSpan_none (s : Option Span) : coverSpan s none = s := by
  cases s <;> rfl

theorem coverSpan_assoc (a b c : Option Span) :
    coverSpan (coverSpan a b) c = coverSpan a (coverSpan b c) := by
  cases a with
  | none => rfl
  | some s =>
    cases b with
    | none => rfl
    | some t =>
      cases c with
      | none => rfl
      | some u => simp [coverSpan, Span.cover, Nat.min_assoc, Nat.max_assoc]

theorem nodesAll_append (ms ns : List Mark) :
    nodesAll (κ := κ) (ms ++ ns)
      = (coverSpan (nodesAll (κ := κ) ms).1 (nodesAll (κ := κ) ns).1,
          (nodesAll ms).2 ++ (nodesAll ns).2) := by
  induction ms with
  | nil => rfl
  | cons m ms ih =>
    rw [List.cons_append, nodesAll, nodesAll, ih]
    simp [coverSpan_assoc]

theorem nodesAll_singleton (m : Mark) : nodesAll (κ := κ) [m] = nodes m := by
  simp [nodesAll, coverSpan_none]

end Mark

namespace Grammar

variable {κ φ ψ : Type}

/-! ### Steps of a replay -/

section Steps

variable {b : Builder φ} {stack : List φ} {kind : Kind} {forward : Option UInt32}
  {kinds : List Kind} {rest rest' : List Event}

@[simp] theorem replay_nil (b : Builder φ) (stack : List φ) : replay b stack [] = some stack := by
  rw [replay]

@[simp] theorem replay_tombstone (b : Builder φ) (stack : List φ) (forward : Option UInt32)
    (rest : List Event) :
    replay b stack (.start .tombstone forward :: rest) = replay b stack rest := by
  rw [replay, if_pos rfl]

theorem replay_start (named : kind ≠ .tombstone)
    (adopted : adopt? (forward.map UInt32.toNat) rest = some (kinds, rest')) :
    replay b stack (.start kind forward :: rest)
      = replay b (b.start kind :: (kinds.map b.start ++ stack)) rest' := by
  rw [replay, if_neg named]
  split
  · simp_all
  · simp_all

theorem replay_start_eq_none (named : kind ≠ .tombstone)
    (lost : adopt? (forward.map UInt32.toNat) rest = none) :
    replay b stack (.start kind forward :: rest) = none := by
  rw [replay, if_neg named]
  split
  · rfl
  · simp_all

@[simp] theorem replay_finish (b : Builder φ) (inner outer : φ) (stack : List φ)
    (rest : List Event) :
    replay b (inner :: outer :: stack) (.finish :: rest)
      = replay b (b.finish outer inner :: stack) rest := by
  rw [replay]

theorem replay_finish_eq_none (few : stack.length < 2) :
    replay b stack (.finish :: rest) = none := by
  rw [replay]
  rintro inner outer stack rfl
  simp at few

@[simp] theorem replay_token (b : Builder φ) (innermost : φ) (stack : List φ) (t : Token)
    (rest : List Event) :
    replay b (innermost :: stack) (.token t :: rest)
      = replay b (b.token innermost t :: stack) rest := by
  rw [replay]

@[simp] theorem replay_token_nil (b : Builder φ) (t : Token) (rest : List Event) :
    replay b [] (.token t :: rest) = replay b [] rest := by
  rw [replay]

end Steps

/-! ### Builders that carry over -/

/-- The event with another token. -/
def Event.map (f : Token → Token) : Event → Event
  | start kind forward => start kind forward
  | token t => token (f t)
  | finish => finish

@[simp] theorem Event.map_id (events : List Event) : events.map (Event.map id) = events := by
  have same : Event.map id = id := by
    funext event
    cases event <;> rfl
  rw [same, List.map_id]

/-- What one builder makes carries over to what another makes of other tokens. -/
structure Builder.Carries (b : Builder φ) (b' : Builder ψ) (f : Token → Token) (h : φ → ψ) :
    Prop where
  start : ∀ kind, h (b.start kind) = b'.start kind
  token : ∀ x t, h (b.token x t) = b'.token (h x) (f t)
  finish : ∀ outer inner, h (b.finish outer inner) = b'.finish (h outer) (h inner)

/-- Links lead past tokens, whatever these are. -/
theorem adopt?_map (f : Token → Token) (forward : Option Nat) (events : List Event) :
    adopt? forward (events.map (Event.map f))
      = (adopt? forward events).map fun (kinds, rest) => (kinds, rest.map (Event.map f)) := by
  fun_induction adopt? forward events with
  | case1 | case2 | case3 => simp [adopt?]
  | case4 kind forward rest ih => simp [adopt?, Event.map, Event.tombstone, ih, Function.comp_def]
  | case5 event rest other =>
    cases event with
    | start kind forward => exact absurd rfl (other kind forward)
    | token | finish => simp [adopt?, Event.map, Event.tombstone]
  | case6 distance event rest ih => simp [adopt?, ih, Function.comp_def]

/-- Builders that carry over to each other make the same of a log. -/
theorem replay_map {b : Builder φ} {b' : Builder ψ} {f : Token → Token} {h : φ → ψ}
    (carries : b.Carries b' f h) (stack : List φ) (events : List Event) :
    replay b' (stack.map h) (events.map (Event.map f))
      = (replay b stack events).map (List.map h) := by
  induction stack, events using replay.induct (b := b) with
  | case1 stack => simp
  | case2 stack forward rest ih => simpa [Event.map] using ih
  | case3 stack kind forward rest named lost =>
    have lost' := adopt?_map f (forward.map UInt32.toNat) rest
    rw [lost] at lost'
    rw [replay_start_eq_none named lost, List.map_cons, Event.map, replay_start_eq_none named lost']
    rfl
  | case4 stack kind forward rest named kinds rest' adopted ih =>
    have adopted' := adopt?_map f (forward.map UInt32.toNat) rest
    rw [adopted] at adopted'
    rw [replay_start named adopted, List.map_cons, Event.map, replay_start named adopted']
    simpa [carries.start, Function.comp_def] using ih
  | case5 rest inner outer stack ih => simpa [Event.map, carries.finish] using ih
  | case6 stack rest few =>
    have short : stack.length < 2 := by
      match stack with
      | [] | [_] => simp
      | inner :: outer :: stack => exact absurd rfl (few inner outer stack)
    rw [replay_finish_eq_none short, List.map_cons, Event.map,
      replay_finish_eq_none (by simpa using short)]
    rfl
  | case7 t rest innermost stack ih => simpa [Event.map, carries.token] using ih
  | case8 t rest ih => simpa [Event.map] using ih

/-! ### Groups of marks -/

/-- A construct that has begun, with the marks that it has so far. -/
structure Group where
  kind : Kind
  parts : List Mark

namespace Group

/-- Groups keep the marks of a log. -/
def builder : Builder Group where
  start kind := ⟨kind, []⟩
  token g t := ⟨g.kind, g.parts ++ [.token t]⟩
  finish outer inner := ⟨outer.kind, outer.parts ++ [.construct inner.kind inner.parts]⟩

/-- The frame of a group: the span around its marks and the nodes they come to. -/
def frame (g : Group) : Frame κ :=
  ⟨g.kind, (Mark.nodesAll (κ := κ) g.parts).1, (Mark.nodesAll g.parts).2⟩

/-- Frames are what groups come to. -/
theorem carries_frame : builder.Carries Frame.builder id (frame (κ := κ)) where
  start _ := rfl
  token g t := by
    simp [frame, builder, Frame.builder, Frame.cover, Mark.nodesAll_append, Mark.nodesAll_singleton,
      Mark.nodes]
  finish outer inner := by
    simp [frame, builder, Frame.builder, Frame.cover, Frame.settle, Mark.nodesAll_append,
      Mark.nodesAll_singleton, Mark.nodes]

/-- The tokens of a stack of groups, those of the outermost first. -/
def tokens : List Group → List Token
  | [] => []
  | g :: stack => tokens stack ++ Mark.tokensAll g.parts

/-- All constructs of a stack of groups are of certain kinds, those that have begun inside the
outermost included. -/
inductive Named (kinds : Kind → Prop) : List Group → Prop where
  | outermost {g : Group} : Mark.Named kinds g.parts → Named kinds [g]
  | inner {g outer : Group} {stack : List Group} : kinds g.kind → Mark.Named kinds g.parts →
    Named kinds (outer :: stack) → Named kinds (g :: outer :: stack)

end Group

/-- The marks of the constructs that have ended in a log; none if its replay stops on the way. -/
def Log.marks (l : Log) : List Mark :=
  ((replay Group.builder [⟨.tombstone, []⟩] l.events).bind fun stack =>
    stack.getLast?.map (·.parts)).getD []

/-- The tree of a log is the first node that its marks come to. -/
theorem root?_eq (l : Log) : l.root? = (Mark.nodesAll (κ := κ) l.marks).2.head? := by
  have framed := replay_map (Group.carries_frame (κ := κ)) [⟨.tombstone, []⟩] l.events
  rw [Event.map_id] at framed
  have begun : [Frame.ofKind (κ := κ) .tombstone] = List.map Group.frame [⟨.tombstone, []⟩] := rfl
  rw [Log.root?, begun, framed, Log.marks]
  cases replay Group.builder [⟨.tombstone, []⟩] l.events with
  | none => rfl
  | some stack =>
    rw [Option.map_some, Option.bind_some, Option.bind_some, List.getLast?_map]
    cases stack.getLast? <;> rfl

/-! ### The marks of any log -/

section Facts

variable {forward : Option Nat} {kinds : List Kind} {events rest : List Event} {stack left : List Group}
  {named : Kind → Prop}

/-- All starts are of certain kinds, tombstones aside. -/
def Event.Named (kinds : Kind → Prop) (events : List Event) : Prop :=
  ∀ kind forward, .start kind forward ∈ events → kind ≠ .tombstone → kinds kind

/-- Links strike out tokens at most. -/
theorem sublist_adopt? (adopted : adopt? forward events = some (kinds, rest)) :
    (rest.filterMap Event.token?).Sublist (events.filterMap Event.token?) := by
  fun_induction adopt? forward events generalizing kinds rest with
  | case1 | case2 =>
    obtain ⟨-, rfl⟩ := Prod.mk.inj (Option.some.inj adopted)
    exact .refl _
  | case3 => cases adopted
  | case4 kind forward events ih =>
    obtain ⟨⟨_, _⟩, inner, eq⟩ := Option.map_eq_some_iff.1 adopted
    obtain ⟨-, rfl⟩ := Prod.mk.inj eq
    simpa [Event.tombstone, List.filterMap_cons, Event.token?] using ih inner
  | case5 event events =>
    obtain ⟨-, rfl⟩ := Prod.mk.inj (Option.some.inj adopted)
    exact (List.sublist_cons_self event events).filterMap Event.token?
  | case6 distance event events ih =>
    obtain ⟨⟨_, _⟩, inner, eq⟩ := Option.map_eq_some_iff.1 adopted
    obtain ⟨-, rfl⟩ := Prod.mk.inj eq
    rw [← List.singleton_append, ← List.singleton_append (l := events), List.filterMap_append,
      List.filterMap_append]
    exact (ih inner).append_left _

/-- Links lead to starts, and leave all others as they are. -/
theorem named_adopt? (adopted : adopt? forward events = some (kinds, rest))
    (all : Event.Named named events) :
    (∀ kind ∈ kinds, named kind) ∧ Event.Named named rest := by
  fun_induction adopt? forward events generalizing kinds rest with
  | case1 | case2 =>
    obtain ⟨rfl, rfl⟩ := Prod.mk.inj (Option.some.inj adopted)
    exact ⟨List.forall_mem_nil _, all⟩
  | case3 => cases adopted
  | case4 kind forward events ih =>
    obtain ⟨⟨inner, _⟩, found, eq⟩ := Option.map_eq_some_iff.1 adopted
    obtain ⟨rfl, rfl⟩ := Prod.mk.inj eq
    obtain ⟨found, left⟩ := ih found fun kind forward mem => all kind forward (.tail _ mem)
    refine ⟨?_, fun kind forward mem differs => ?_⟩
    · split
      · exact found
      · rename_i differs
        exact List.forall_mem_cons.2 ⟨all kind forward (.head _) differs, found⟩
    · rcases List.mem_cons.1 mem with struck | mem
      · cases struck
        exact absurd rfl differs
      · exact left kind forward mem differs
  | case5 event events =>
    obtain ⟨rfl, rfl⟩ := Prod.mk.inj (Option.some.inj adopted)
    refine ⟨List.forall_mem_nil _, fun kind forward mem differs => ?_⟩
    rcases List.mem_cons.1 mem with struck | mem
    · cases struck
      exact absurd rfl differs
    · exact all kind forward (.tail _ mem) differs
  | case6 distance event events ih =>
    obtain ⟨⟨_, _⟩, found, eq⟩ := Option.map_eq_some_iff.1 adopted
    obtain ⟨rfl, rfl⟩ := Prod.mk.inj eq
    obtain ⟨found, left⟩ := ih found fun kind forward mem => all kind forward (.tail _ mem)
    refine ⟨found, fun kind forward mem differs => ?_⟩
    rcases List.mem_cons.1 mem with rfl | mem
    · exact all kind forward (.head _) differs
    · exact left kind forward mem differs

theorem Group.tokens_start (kinds : List Kind) (stack : List Group) :
    tokens (kinds.map builder.start ++ stack) = tokens stack := by
  induction kinds with
  | nil => rfl
  | cons kind kinds ih =>
    rw [List.map_cons, List.cons_append, tokens, ih]
    exact List.append_nil _

/-- A replay keeps tokens in their order. -/
theorem sublist_replay (replayed : replay Group.builder stack events = some left) :
    (Group.tokens left).Sublist (Group.tokens stack ++ events.filterMap Event.token?) := by
  induction stack, events using replay.induct (b := Group.builder) with
  | case1 stack =>
    obtain rfl := Option.some.inj ((replay_nil _ _).symm.trans replayed)
    simp
  | case2 stack forward rest ih => exact ih ((replay_tombstone ..).symm.trans replayed)
  | case3 stack kind forward rest differs lost =>
    rw [replay_start_eq_none differs lost] at replayed
    cases replayed
  | case4 stack kind forward rest differs kinds rest' adopted ih =>
    rw [replay_start differs adopted] at replayed
    have kept := ih replayed
    rw [Group.tokens_start] at kept
    exact kept.trans ((sublist_adopt? adopted).append_left _)
  | case5 rest inner outer stack ih =>
    have kept := ih ((replay_finish ..).symm.trans replayed)
    simpa [Group.tokens, Group.builder, Mark.tokensAll_append, Mark.tokensAll_construct,
      List.filterMap_cons, Event.token?] using kept
  | case6 stack rest few =>
    rw [replay] at replayed
    · cases replayed
    · exact few
  | case7 t rest innermost stack ih =>
    have kept := ih ((replay_token ..).symm.trans replayed)
    simpa [Group.tokens, Group.builder, Mark.tokensAll_append, Mark.tokensAll_token,
      List.filterMap_cons, Event.token?] using kept
  | case8 t rest ih =>
    have kept := ih ((replay_token_nil ..).symm.trans replayed)
    have more := (List.sublist_cons_self (.token t) rest).filterMap Event.token?
    exact kept.trans (more.append_left _)

theorem Group.Named.start {kinds : List Kind} (all : ∀ kind ∈ kinds, named kind)
    (below : Named named stack) : Named named (kinds.map builder.start ++ stack) := by
  induction kinds with
  | nil => exact below
  | cons kind kinds ih =>
    obtain ⟨here, later⟩ := List.forall_mem_cons.1 all
    have rest := ih later
    rw [List.map_cons, List.cons_append]
    cases above : kinds.map builder.start ++ stack with
    | nil =>
      rw [above] at rest
      cases rest
    | cons outer stack =>
      rw [above] at rest
      exact .inner here nofun rest

/-- A replay makes constructs of the kinds of starts. -/
theorem named_replay (replayed : replay Group.builder stack events = some left)
    (all : Event.Named named events) (below : Group.Named named stack) :
    Group.Named named left := by
  have later {event : Event} {rest : List Event} (all : Event.Named named (event :: rest)) :
      Event.Named named rest := fun kind forward mem => all kind forward (.tail _ mem)
  induction stack, events using replay.induct (b := Group.builder) with
  | case1 stack =>
    obtain rfl := Option.some.inj ((replay_nil _ _).symm.trans replayed)
    exact below
  | case2 stack forward rest ih =>
    exact ih ((replay_tombstone ..).symm.trans replayed) (later all) below
  | case3 stack kind forward rest differs lost =>
    rw [replay_start_eq_none differs lost] at replayed
    cases replayed
  | case4 stack kind forward rest differs kinds rest' adopted ih =>
    rw [replay_start differs adopted] at replayed
    obtain ⟨found, rest_named⟩ := named_adopt? adopted (later all)
    have own : named kind := all kind forward (.head _) differs
    exact ih replayed rest_named (.start (List.forall_mem_cons.2 ⟨own, found⟩) below)
  | case5 rest inner outer stack ih =>
    refine ih ((replay_finish ..).symm.trans replayed) (later all) ?_
    cases below with
    | inner own inside below =>
      have parts (outer_named : Mark.Named named outer.parts) :
          Mark.Named named (outer.parts ++ [.construct inner.kind inner.parts]) :=
        Mark.named_append.2 ⟨outer_named, Mark.named_construct.2 ⟨own, inside⟩⟩
      cases below with
      | outermost outer_named => exact .outermost (parts outer_named)
      | inner outer_own outer_named below => exact .inner outer_own (parts outer_named) below
  | case6 stack rest few =>
    rw [replay] at replayed
    · cases replayed
    · exact few
  | case7 t rest innermost stack ih =>
    refine ih ((replay_token ..).symm.trans replayed) (later all) ?_
    have parts (inner_named : Mark.Named named innermost.parts) :
        Mark.Named named (innermost.parts ++ [.token t]) :=
      Mark.named_append.2 ⟨inner_named, nofun⟩
    cases below with
    | outermost inner_named => exact .outermost (parts inner_named)
    | inner own inner_named below => exact .inner own (parts inner_named) below
  | case8 t rest ih => cases below

theorem Group.sublist_tokens {g : Group} (mem : g ∈ stack.getLast?) :
    (Mark.tokensAll g.parts).Sublist (tokens stack) := by
  obtain ⟨above, rfl⟩ := List.getLast?_eq_some_iff.1 mem
  clear mem
  induction above with
  | nil => exact .refl _
  | cons inner above ih => exact ih.trans (List.sublist_append_left _ _)

theorem Group.Named.outermost_parts {g : Group} (all : Named named stack)
    (mem : g ∈ stack.getLast?) : Mark.Named named g.parts := by
  induction all with
  | outermost parts =>
    obtain rfl := Option.some.inj mem
    exact parts
  | inner _ _ _ ih => exact ih (by rwa [List.getLast?_cons_cons] at mem)

/-- Marks of a log are those of the outermost group that its replay leaves. -/
theorem Log.marks_cases (l : Log) :
    l.marks = [] ∨ ∃ left, ∃ g ∈ left.getLast?, l.marks = g.parts ∧
      replay Group.builder [⟨.tombstone, []⟩] l.events = some left := by
  rw [marks]
  cases replay Group.builder [⟨.tombstone, []⟩] l.events with
  | none => exact .inl rfl
  | some left =>
    rw [Option.bind_some]
    cases last : left.getLast? with
    | none => exact .inl rfl
    | some g => exact .inr ⟨left, g, last, rfl, rfl⟩

/-- The marks of a log have tokens of the log, in their order. -/
theorem sublist_tokens_marks (l : Log) : (Mark.tokensAll l.marks).Sublist l.tokens := by
  obtain none | ⟨left, g, last, eq, replayed⟩ := l.marks_cases
  · rw [none]
    exact List.nil_sublist _
  · rw [eq]
    exact (Group.sublist_tokens last).trans (sublist_replay replayed)

/-- The marks of a log have constructs of the kinds of its starts. -/
theorem named_marks {l : Log} (all : Event.Named named l.events) : Mark.Named named l.marks := by
  obtain none | ⟨left, g, last, eq, replayed⟩ := l.marks_cases
  · rw [none]
    exact nofun
  · rw [eq]
    exact (named_replay replayed all (.outermost nofun)).outermost_parts last

end Facts

end Grammar

end SureCode
