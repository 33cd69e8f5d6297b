import Mathlib
import SureCode.Proofs.Grammar.Groups

/-!
# Replaying the log of some marks

A log encodes marks when it lists their tokens in order, brackets each construct by a start and a
finish, and links the start of a mark that a construct was put around to the start of that construct
(`Encodes`). In such a log starts and finishes match (`Encodes.balanced`). As long as its places can
be told apart, its replay adds the marks to the group it begins in and leaves all other groups as
they are (`Encodes.adds`).
-/

namespace SureCode.Grammar

/-! ### Logs of marks -/

/-- The events that some marks leave, and where the start of the last mark is when it is a construct
that has not been linked. -/
inductive Encodes : List Mark → List Event → Option Nat → Prop
  | nil : Encodes [] [] none
  | token {ms : List Mark} {es : List Event} {last : Option Nat} (t : Token) :
    Encodes ms es last → Encodes (ms ++ [.token t]) (es ++ [.token t]) none
  | mark {ms parts : List Mark} {es inner : List Event} {last last' : Option Nat} {kind : Kind} :
    kind ≠ .tombstone → Encodes ms es last → Encodes parts inner last' →
    Encodes (ms ++ [.construct kind parts]) (es ++ .start kind none :: (inner ++ [.finish]))
      (some es.length)
  | wrap {ms rest : List Mark} {m : Mark} {es inner : List Event} {place : Nat}
      {last : Option Nat} {kind : Kind} :
    kind ≠ .tombstone → Encodes (ms ++ [m]) es (some place) → Encodes rest inner last →
    Encodes (ms ++ [.construct kind (m :: rest)])
      (es.modify place (.linked (.ofNat (es.length - place)))
        ++ .start kind none :: (inner ++ [.finish]))
      (some es.length)

theorem modify_length_add {α : Type} (xs ys : List α) (n : Nat) (f : α → α) :
    (xs ++ ys).modify (xs.length + n) f = xs ++ ys.modify n f :=
  List.modifyTailIdx_add _ n xs ys

theorem modify_length {α : Type} (xs ys : List α) (y : α) (f : α → α) :
    (xs ++ y :: ys).modify xs.length f = xs ++ f y :: ys :=
  modify_length_add xs (y :: ys) 0 f

theorem mem_or_of_mem_modify {α : Type} {f : α → α} {xs : List α} {n : Nat} {x : α}
    (mem : x ∈ xs.modify n f) : x ∈ xs ∨ ∃ y ∈ xs, f y = x := by
  induction xs generalizing n with
  | nil => simp at mem
  | cons y ys ih =>
    cases n with
    | zero =>
      rw [List.modify_zero_cons, List.mem_cons] at mem
      rcases mem with rfl | mem
      · exact .inr ⟨y, List.mem_cons_self, rfl⟩
      · exact .inl (List.mem_cons_of_mem y mem)
    | succ n =>
      rw [List.modify_succ_cons, List.mem_cons] at mem
      rcases mem with rfl | mem
      · exact .inl List.mem_cons_self
      · obtain mem | ⟨z, mem, eq⟩ := ih mem
        · exact .inl (List.mem_cons_of_mem y mem)
        · exact .inr ⟨z, List.mem_cons_of_mem y mem, eq⟩

namespace Event

/-- What an event does to the number of constructs that are open. -/
def depth : Event → Int
  | start _ _ => 1
  | token _ => 0
  | finish => -1

/-- The kind of the construct that an event begins. -/
def kind? : Event → Option Kind
  | start kind _ => some kind
  | _ => none

/-- No construct ends before it begins, and every construct that begins ends. -/
def Balanced (es : List Event) : Prop :=
  (es.map depth).sum = 0 ∧ ∀ n, 0 ≤ ((es.map depth).take n).sum

/-- An event without what is filled in later: the kind and the link of a start. -/
def bare : Event → Event
  | start _ _ => tombstone
  | event => event

/-- What does not depend on what is filled in stays as it is when something is. -/
theorem map_modify {α : Type} {f : Event → α} {fill : Event → Event}
    (same : ∀ event, f (fill event) = f event) (es : List Event) (place : Nat) :
    (es.modify place fill).map f = es.map f := by
  induction es generalizing place with
  | nil => simp
  | cons e es ih => cases place <;> simp [same, ih]

theorem bare_linked (distance : UInt32) (event : Event) :
    (linked distance event).bare = event.bare := by
  cases event <;> rfl

theorem bare_named (kind : Kind) (event : Event) : (named kind event).bare = event.bare := by
  cases event <;> rfl

theorem kind?_linked (distance : UInt32) (event : Event) :
    (linked distance event).kind? = event.kind? := by
  cases event <;> rfl

theorem token?_bare (event : Event) : event.bare.token? = event.token? := by
  cases event <;> rfl

theorem depth_bare (event : Event) : event.bare.depth = event.depth := by
  cases event <;> rfl

theorem filterMap_token?_congr {es es' : List Event} (same : es.map bare = es'.map bare) :
    es.filterMap token? = es'.filterMap token? := by
  have read (es : List Event) : (es.map bare).filterMap token? = es.filterMap token? := by
    rw [List.filterMap_map]
    exact congrArg (es.filterMap ·) (funext token?_bare)
  rw [← read es, same, read]

namespace Named

variable {kinds : Kind → Prop} {events rest : List Event}

theorem append (first : Named kinds events) (second : Named kinds rest) :
    Named kinds (events ++ rest) := fun kind forward mem =>
  (List.mem_append.1 mem).elim (first kind forward) (second kind forward)

theorem token (kinds : Kind → Prop) (t : Token) : Named kinds [.token t] := by
  intro kind forward mem
  cases List.mem_singleton.1 mem

theorem finish (kinds : Kind → Prop) : Named kinds [.finish] := by
  intro kind forward mem
  cases List.mem_singleton.1 mem

theorem tombstone (kinds : Kind → Prop) : Named kinds [.tombstone] := by
  intro kind forward mem differs
  cases List.mem_singleton.1 mem
  exact absurd rfl differs

/-- Links do not change kinds. -/
theorem linked (named : Named kinds events) (place : Nat) (distance : UInt32) :
    Named kinds (events.modify place (linked distance)) := by
  intro kind forward mem differs
  rcases mem_or_of_mem_modify mem with here | ⟨event, here, eq⟩
  · exact named kind forward here differs
  · cases event with
    | start kind' forward' =>
      cases eq
      exact named kind forward' here differs
    | token | finish => cases eq

/-- Filling in the kind of a construct. -/
theorem filled {kind : Kind} (named : Named kinds events) (own : kinds kind) (place : Nat) :
    Named kinds (events.modify place (.named kind)) := by
  intro kind' forward mem differs
  rcases mem_or_of_mem_modify mem with here | ⟨event, -, eq⟩
  · exact named kind' forward here differs
  · cases event with
    | start =>
      cases eq
      exact own
    | token | finish => cases eq

end Named

namespace Balanced

variable {es inner : List Event}

theorem nil : Balanced [] := ⟨rfl, fun n => by simp⟩

theorem token (t : Token) : Balanced [token t] := by
  refine ⟨rfl, fun n => ?_⟩
  cases n <;> simp [depth]

theorem append (first : Balanced es) (second : Balanced inner) : Balanced (es ++ inner) := by
  refine ⟨by simp [first.1, second.1], fun n => ?_⟩
  rw [List.map_append, List.take_append, List.sum_append]
  exact Int.add_nonneg (first.2 _) (second.2 _)

theorem construct (kind : Kind) (forward : Option UInt32) (inside : Balanced inner) :
    Balanced (start kind forward :: (inner ++ [finish])) := by
  refine ⟨by simp [depth, inside.1], fun n => ?_⟩
  cases n with
  | zero => simp
  | succ n =>
    have least : ∀ m, (-1 : Int) ≤ (List.take m [-1]).sum := by
      intro m
      cases m <;> simp
    rw [List.map_cons, List.map_append, List.take_succ_cons, List.sum_cons, List.take_append,
      List.sum_append]
    have := inside.2 n
    have := least (n - (inner.map depth).length)
    simp only [depth, List.map_cons, List.map_nil]
    omega

theorem of_bare {es' : List Event} (balanced : Balanced es) (same : es'.map bare = es.map bare) :
    Balanced es' := by
  have read (es : List Event) : (es.map bare).map depth = es.map depth := by
    rw [List.map_map]
    exact congrArg (es.map ·) (funext depth_bare)
  rwa [Balanced, ← read, same, read]

theorem linked (balanced : Balanced es) (place : Nat) (distance : UInt32) :
    Balanced (es.modify place (linked distance)) :=
  balanced.of_bare (map_modify (bare_linked distance) es place)

end Balanced

end Event

namespace Encodes

variable {ms : List Mark} {es : List Event} {last : Option Nat}

/-- A log takes over the tokens of the marks. -/
theorem tokens (encodes : Encodes ms es last) : es.filterMap Event.token? = Mark.tokensAll ms := by
  induction encodes with
  | nil => rfl
  | token t _ ih => simp [ih, Event.token?, Mark.tokensAll_append, Mark.tokensAll_token]
  | mark _ _ _ ih inner_ih =>
    rw [Mark.tokensAll_append, Mark.tokensAll_construct]
    simp [List.filterMap_cons, ih, inner_ih, Event.token?]
  | @wrap ms rest m es inner place last kind _ _ _ ih inner_ih =>
    have taken := Event.filterMap_token?_congr
      (Event.map_modify (Event.bare_linked (.ofNat (es.length - place))) es place)
    rw [Mark.tokensAll_append] at ih ⊢
    rw [Mark.tokensAll_construct]
    simp [List.filterMap_cons, taken, ih, inner_ih, Event.token?, Mark.tokensAll]

theorem exists_concat {place : Nat} (encodes : Encodes ms es (some place)) :
    ∃ front m, ms = front ++ [m] := by
  cases encodes <;> exact ⟨_, _, rfl⟩

theorem start_lt {start : Nat} (encodes : Encodes ms es (some start)) : start < es.length := by
  cases encodes <;> simp

/-- No construct ends before it begins, and every construct that begins ends. -/
theorem balanced (encodes : Encodes ms es last) : Event.Balanced es := by
  induction encodes with
  | nil => exact .nil
  | token t _ ih => exact ih.append (.token t)
  | mark _ _ _ ih inner_ih => exact ih.append (.construct _ _ inner_ih)
  | wrap _ _ _ ih inner_ih => exact (ih.linked _ _).append (.construct _ _ inner_ih)

/-- Every construct has been given its kind. -/
theorem tombstone_notMem (encodes : Encodes ms es last) :
    some .tombstone ∉ es.map Event.kind? := by
  induction encodes with
  | nil => simp
  | token t _ ih => simpa [Event.kind?] using ih
  | mark named _ _ ih inner_ih =>
    simp only [List.map_append, List.map_cons, List.map_nil, List.mem_append, List.mem_cons]
    simp [ih, inner_ih, Event.kind?, named.symm]
  | wrap named _ _ ih inner_ih =>
    rw [List.map_append, Event.map_modify (Event.kind?_linked _)]
    simp only [List.map_append, List.map_cons, List.map_nil, List.mem_append, List.mem_cons]
    simp [ih, inner_ih, Event.kind?, named.symm]

end Encodes

/-! ### Steps of a replay -/

variable {rest rest' es : List Event} {kind : Kind} {kinds : List Kind}

/-- A link passes over what lies before the start that it leads to. -/
theorem adopt?_append {forward : Option UInt32} (named : kind ≠ .tombstone)
    (adopted : adopt? (forward.map UInt32.toNat) rest = some (kinds, rest')) (es : List Event) :
    adopt? (some (es.length + 1)) (es ++ .start kind forward :: rest)
      = some (kind :: kinds, es ++ .tombstone :: rest') := by
  induction es with
  | nil =>
    rw [List.nil_append, List.length_nil, adopt?, adopted]
    simp [named]
  | cons e es ih =>
    rw [List.cons_append, List.length_cons, adopt?, ih]
    rfl

example : adopt? (some 2) [.finish, .start .call none, .finish]
    = some ([.call], [.finish, .tombstone, .finish]) := by decide

/-! ### Replaying marks -/

/-- The group with some further marks. -/
def Group.add (g : Group) (ms : List Mark) : Group := ⟨g.kind, g.parts ++ ms⟩

/-- Replaying a log adds some marks to the innermost group. -/
def Adds (es : List Event) (ms : List Mark) : Prop :=
  ∀ (g : Group) (stack : List Group) (rest : List Event),
    replay Group.builder (g :: stack) (es ++ rest) = replay Group.builder (g.add ms :: stack) rest

/-- Replaying a log and a start after it adds some marks to the innermost group, and others to the
group that the start opens above it. -/
def Opens (es : List Event) (ms first : List Mark) : Prop :=
  ∀ (g : Group) (stack : List Group) (kind : Kind) (forward : Option UInt32) (kinds : List Kind)
    (rest rest' : List Event), kind ≠ .tombstone →
    adopt? (forward.map UInt32.toNat) rest = some (kinds, rest') →
      replay Group.builder (g :: stack) (es ++ .start kind forward :: rest)
        = replay Group.builder
            (⟨kind, first⟩ :: (kinds.map Group.builder.start ++ g.add ms :: stack)) rest'

variable {before inner : List Event} {ms first parts : List Mark}

/-- A start opens an empty group. -/
theorem Adds.opens (adds : Adds es ms) : Opens es ms [] := by
  intro g stack kind forward kinds rest rest' named adopted
  rw [adds, replay_start named adopted]
  rfl

/-- A construct that has begun with some marks is added with the rest of its marks. -/
theorem Adds.finish (inside : Adds inner parts) (outer : Group) (stack : List Group) (kind : Kind)
    (first : List Mark) (rest : List Event) :
    replay Group.builder (⟨kind, first⟩ :: outer :: stack) (inner ++ .finish :: rest)
      = replay Group.builder (outer.add [.construct kind (first ++ parts)] :: stack) rest := by
  rw [inside, replay_finish]
  rfl

/-- A construct that is not linked goes where the marks before it do. -/
theorem Opens.adds (outside : Opens before ms first) (inside : Adds inner parts)
    (named : kind ≠ .tombstone) :
    Adds (before ++ .start kind none :: (inner ++ [.finish]))
      (ms ++ [.construct kind (first ++ parts)]) := by
  intro g stack rest
  have unlinked : adopt? ((none : Option UInt32).map UInt32.toNat) (inner ++ .finish :: rest)
      = some ([], inner ++ .finish :: rest) := by
    rw [Option.map_none, adopt?]
  have ended := inside.finish (g.add ms) stack kind first rest
  rw [List.append_assoc, List.cons_append, List.append_assoc, List.singleton_append,
    outside _ _ _ _ _ _ _ named unlinked]
  simpa [Group.add] using ended

/-- A construct that is linked to the next start goes where that start opens a group. -/
theorem Opens.linked (outside : Opens before ms first) (inside : Adds inner parts)
    (named : kind ≠ .tombstone) (near : inner.length + 2 < UInt32.size) :
    Opens (before ++ .start kind (some (.ofNat (inner.length + 2))) :: (inner ++ [.finish])) ms
      [.construct kind (first ++ parts)] := by
  intro g stack outer forward kinds rest rest' outer_named adopted
  have distance : (UInt32.ofNat (inner.length + 2)).toNat = inner.length + 2 :=
    UInt32.toNat_ofNat_of_lt' near
  have linked : adopt? ((some (.ofNat (inner.length + 2))).map UInt32.toNat)
      (inner ++ [.finish] ++ .start outer forward :: rest)
        = some (outer :: kinds, inner ++ .finish :: .tombstone :: rest') := by
    have := adopt?_append outer_named adopted (inner ++ [.finish])
    rw [List.length_append, List.append_assoc inner _ (.tombstone :: rest')] at this
    rw [Option.map_some, distance]
    exact this
  rw [List.append_assoc, List.cons_append, outside _ _ _ _ _ _ _ named linked, List.map_cons,
    List.cons_append, inside.finish, Event.tombstone, replay_tombstone]
  rfl

/-- Replaying the log of some marks adds them to the innermost group. Where the last construct is
linked forward, it ends up in the group that the next start opens. -/
theorem Encodes.adds {last : Option Nat} (encodes : Encodes ms es last)
    (short : es.length ≤ UInt32.size) :
    Adds es ms ∧ ∀ place, last = some place → es.length < UInt32.size →
      ∃ before m, ms = before ++ [m] ∧
        Opens (es.modify place (.linked (.ofNat (es.length - place)))) before [m] := by
  induction encodes with
  | nil => exact ⟨fun g stack rest => by simp [Group.add], nofun⟩
  | token t _ ih =>
    rw [List.length_append, List.length_singleton] at short
    refine ⟨fun g stack rest => ?_, nofun⟩
    rw [List.append_assoc, (ih (by omega)).1, List.singleton_append, replay_token]
    simp [Group.add, Group.builder]
  | @mark ms parts es inner last last' kind named _ _ ih inner_ih =>
    simp only [List.length_append, List.length_cons, List.length_nil] at short ⊢
    have inside := (inner_ih (by omega)).1
    have outside := (ih (by omega)).1.opens
    refine ⟨outside.adds inside named, fun place eq room => ⟨ms, _, rfl, ?_⟩⟩
    obtain rfl := Option.some.inj eq
    have linked := outside.linked inside named (by omega)
    rw [modify_length]
    simpa [Event.linked, Nat.add_assoc] using linked
  | @wrap ms rest m es inner place last kind named _ _ ih inner_ih =>
    simp only [List.length_append, List.length_cons, List.length_nil, List.length_modify]
      at short ⊢
    have inside := (inner_ih (by omega)).1
    obtain ⟨before, m', eq, outside⟩ := (ih (by omega)).2 place rfl (by omega)
    obtain ⟨rfl, same⟩ := List.append_inj' eq rfl
    obtain rfl := List.head_eq_of_cons_eq same
    refine ⟨outside.adds inside named, fun place' eq room => ⟨ms, _, rfl, ?_⟩⟩
    obtain rfl := Option.some.inj eq
    have linked := outside.linked inside named (by omega)
    generalize moved : es.modify place (.linked (.ofNat (es.length - place))) = es' at linked ⊢
    have length : es.length = es'.length := by rw [← moved, List.length_modify]
    rw [length, modify_length]
    simpa [Event.linked, Nat.add_assoc] using linked

end SureCode.Grammar
