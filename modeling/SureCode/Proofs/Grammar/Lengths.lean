import Mathlib
import SureCode.Proofs.Grammar.Rules

/-!
# The length of a log

A log has an event for each token of the text and two for each construct. Constructs are paid for by
tokens: each token that a run takes over pays for so many constructs (`Weights.price`), and what a
rule makes before its first token is bounded as well (`Weights.standing`). What a program makes up to
its first token and what it may still make after it can be read off its text (`Program.standing`,
`Program.moving`, `Program.unpaid`), so the weights are checked rule by rule and kind by kind. Hence
a log is at most so many times longer than the text has tokens (`length_events_read`).
-/

namespace SureCode.Grammar

variable {ρ : Type}

/-! ### Constructs that a program makes -/

/-- What is claimed of the constructs that the rules of a grammar make. -/
structure Weights (ρ : Type) where
  /-- The most that a rule makes without taking over a token. -/
  standing : ρ → Nat
  /-- The most that a rule makes when it takes over tokens, beyond what the tokens after the first
  pay for. -/
  moving : ρ → Nat
  /-- How many constructs a token pays for. -/
  price : Nat

/-- The larger of two numbers, one for each branch of a test, or the only one that counts before a
token of some kind. -/
def Lookahead.most (look : Lookahead) (kind : Kind) (yes no : Nat) : Nat :=
  if !look.first.contains kind then no else if look.second.isNone then yes else max yes no

namespace Program

/-- The most constructs that a program makes before a token of some kind without having taken it
over. A construct whose inside surely takes over a token does not count. -/
def standing (eats : ρ → Kind → Bool) (weights : Weights ρ) (kind : Kind) : Program ρ → Nat
  | call rule => if eats rule kind then 0 else weights.standing rule
  | require rule => if eats rule kind then 0 else weights.standing rule
  | mark _ body =>
    if idle eats kind body = .never then 0 else standing eats weights kind body + 1
  | wrap _ body =>
    if idle eats kind body = .never then 0 else standing eats weights kind body + 1
  | branch look yes no =>
    look.most kind (standing eats weights kind yes) (standing eats weights kind no)
  | seq first second =>
    standing eats weights kind first
      + if (idle eats kind first).succeeds then standing eats weights kind second else 0
  | _ => 0

/-- The most constructs that a program makes beyond what its tokens pay for. -/
def unpaid (weights : Weights ρ) : Program ρ → Nat
  | call rule => weights.standing rule
  | require rule => weights.standing rule
  | mark _ body => unpaid weights body + 1
  | wrap _ body => unpaid weights body + 1
  | branch _ yes no => max (unpaid weights yes) (unpaid weights no)
  | seq first second => unpaid weights first + unpaid weights second
  | _ => 0

/-- The most constructs that a program makes before a token of some kind when it takes it over,
beyond what the tokens after it pay for. -/
def moving (eats : ρ → Kind → Bool) (weights : Weights ρ) (kind : Kind) : Program ρ → Nat
  | call rule => weights.moving rule
  | require rule => weights.moving rule
  | mark _ body => moving eats weights kind body + 1
  | wrap _ body => moving eats weights kind body + 1
  | branch look yes no =>
    look.most kind (moving eats weights kind yes) (moving eats weights kind no)
  | seq first second =>
    max (moving eats weights kind first + unpaid weights second)
      (if (idle eats kind first).succeeds then
        standing eats weights kind first + moving eats weights kind second else 0)
  | _ => 0

end Program

/-! ### What is owed -/

theorem length_constructsAll_reverse (ms : List Mark) :
    (Mark.constructsAll ms.reverse).length = (Mark.constructsAll ms).length := by
  rw [Mark.constructsAll_eq_flatMap, Mark.constructsAll_eq_flatMap]
  exact ((List.reverse_perm ms).flatMap_right _).length_eq

namespace State

variable {s t : State}

/-- The constructs that there are, and those that the tokens ahead will pay for. -/
def owed (price : Nat) (s : State) : Nat :=
  (Mark.constructsAll s.built).length + price * s.left.length

theorem owed_advance (price : Nat) (s : State) :
    s.advance.left = s.left ∧ s.advance.owed price = s.owed price ∨
      s.advance.left ≠ s.left ∧ s.advance.owed price + price = s.owed price := by
  rcases s.advance_cases with ⟨eq, -⟩ | ⟨-, next, ahead, more, eq⟩
  · rw [eq]
    exact .inl ⟨rfl, rfl⟩
  · refine .inr ⟨fun same => ?_, ?_⟩
    · have lengths := congrArg List.length same
      simp [eq, left, more] at lengths
    · rw [eq, owed, owed, left, left, more, List.length_cons, List.length_cons, List.length_cons,
        Nat.mul_succ price (ahead.length + 1), Nat.add_assoc]
      rfl

/-- A construct around the last marks is one construct more. -/
theorem owed_leave (price : Nat) (kind : Kind) (count : Nat) :
    (t.leave s (s.built.drop count)).owed price
        + (s.enter kind (s.built.take count)).owed price
      = t.owed price + s.owed price + 1 := by
  have split := congrArg (fun ms => (Mark.constructsAll ms).length)
    (List.take_append_drop count s.built)
  simp only [Mark.constructsAll_append, List.length_append] at split
  have around : (Mark.constructsAll (t.leave s (s.built.drop count)).built).length
      = (Mark.constructsAll t.built).length + 1
        + (Mark.constructsAll (s.built.drop count)).length := by
    rw [leave, Mark.constructsAll, Mark.constructs, List.length_append, List.length_cons,
      length_constructsAll_reverse]
  change _ + price * t.left.length + (_ + price * s.left.length)
    = _ + price * t.left.length + (_ + price * s.left.length) + 1
  rw [around]
  change _ + _ + ((Mark.constructsAll (s.built.take count)).length + _) = _
  omega

end State

/-! ### Runs -/

section Runs

variable {eats : ρ → Kind → Bool} {weights : Weights ρ} {run : ρ → State → Option (Bool × State)}
  {program : ρ → Program ρ} {s t : State} {result : Bool × State} {look : Lookahead}
  {yes no price standing moving : Nat}

theorem Lookahead.le_most_yes (seen : s.sees look = true) : yes ≤ look.most s.current.kind yes no := by
  rw [Lookahead.most, contains_of_sees seen]
  cases look.second with
  | none => exact Nat.le_refl yes
  | some kinds => exact Nat.le_max_left yes no

theorem Lookahead.le_most_no (unseen : ¬ s.sees look = true) :
    no ≤ look.most s.current.kind yes no := by
  rw [Lookahead.most]
  cases first : look.first.contains s.current.kind with
  | false => exact Nat.le_refl no
  | true =>
    cases second : look.second with
    | none => exact absurd (sees_of_contains first second) unseen
    | some kinds => exact Nat.le_max_right yes no

/-- What a run makes, as far as no tokens pay for it, where it takes over none and where it does. -/
structure Pays (price standing moving : Nat) (s t : State) : Prop where
  standing : t.left = s.left → t.owed price ≤ s.owed price + standing
  moving : t.left ≠ s.left → t.owed price + price ≤ s.owed price + moving

theorem Pays.mono {standing' moving' : Nat} (pays : Pays price standing moving s t)
    (still : standing ≤ standing') (onward : moving ≤ moving') :
    Pays price standing' moving' s t :=
  ⟨fun same => (pays.standing same).trans (Nat.add_le_add_left still _),
    fun moved => (pays.moving moved).trans (Nat.add_le_add_left onward _)⟩

/-- What a run makes in the end, whether or not it takes over tokens. -/
theorem Pays.unpaid (pays : Pays price standing moving s t) (le : moving ≤ price) :
    t.owed price ≤ s.owed price + standing := by
  by_cases same : t.left = s.left
  · exact pays.standing same
  · have := pays.moving same
    omega

/-- What is claimed of the rules of a grammar holds of runs. -/
def Paying (weights : Weights ρ) (run : ρ → State → Option (Bool × State)) : Prop :=
  ∀ rule s result, Ended s.left → run rule s = some result →
    Pays weights.price (weights.standing rule) (weights.moving rule) s result.2

theorem pays_advance (s : State) : Pays price 0 0 s s.advance := by
  rcases s.owed_advance price with ⟨same, eq⟩ | ⟨moved, eq⟩
  · exact ⟨fun _ => eq.le, fun differ => absurd same differ⟩
  · exact ⟨fun same => absurd same moved, fun _ => eq.le⟩

/-- A construct counts where its inside may have taken over no token. -/
theorem Pays.leave {idle : Idle} {success : Bool} {kind : Kind} {count : Nat}
    (inside : Pays price standing moving (s.enter kind (s.built.take count)) t)
    (stuck : t.left = s.left → idle.allows success = true) :
    Pays price (if idle = .never then 0 else standing + 1) (moving + 1) s
      (t.leave s (s.built.drop count)) := by
  have around := State.owed_leave (s := s) (t := t) price kind count
  refine ⟨fun same => ?_, fun moved => ?_⟩
  · have ends : idle ≠ .never := by
      rintro rfl
      have none := stuck same
      cases success <;> cases none
    have := inside.standing same
    rw [if_neg ends]
    omega
  · have := inside.moving moved
    omega

variable (proceeds : Proceeds eats run) (paying : Paying weights run)
include proceeds paying

theorem pays_rule {rule : ρ} (ended : Ended s.left) (ran : run rule s = some result) :
    Pays weights.price (if eats rule s.current.kind then 0 else weights.standing rule)
      (weights.moving rule) s result.2 := by
  have pays := paying rule s result ended ran
  refine ⟨fun same => ?_, pays.moving⟩
  rw [(proceeds rule s result ended ran).2 same]
  exact pays.standing same

variable (affordable : ∀ rule, weights.moving rule ≤ weights.price)

include affordable

/-- A run makes no more than its program says, beyond what its tokens pay for. -/
theorem owed_exec (p : Program ρ) (ended : Ended s.left) (ok : exec run p s = some result) :
    result.2.owed weights.price ≤ s.owed weights.price + p.unpaid weights := by
  induction p generalizing s result with
  | done | fail | report fault | become kind =>
    obtain rfl := Option.some.inj ok
    exact Nat.le_refl _
  | advance =>
    obtain rfl := Option.some.inj ok
    have := s.owed_advance weights.price
    change s.advance.owed _ ≤ _ + 0
    omega
  | expect kind what =>
    obtain rfl := Option.some.inj ok
    have := s.owed_advance weights.price
    dsimp only
    split
    · change s.advance.owed _ ≤ _ + 0
      omega
    · exact Nat.le_refl _
  | call rule =>
    obtain ⟨inner, ran, rfl⟩ := Option.map_eq_some_iff.1 ok
    exact (paying rule s inner ended ran).unpaid (affordable rule)
  | require rule => exact (paying rule s result ended ok).unpaid (affordable rule)
  | mark kind body ih =>
    obtain ⟨inner, ran, rfl⟩ := Option.map_eq_some_iff.1 ok
    have inside := ih (s := s.enter kind []) ended ran
    have around := State.owed_leave (s := s) (t := inner.2) weights.price kind 0
    simp only [List.drop_zero, List.take_zero] at around
    change (inner.2.leave s s.built).owed _ ≤ _ + (body.unpaid weights + 1)
    omega
  | wrap kind body ih =>
    obtain ⟨inner, ran, rfl⟩ := Option.map_eq_some_iff.1 ok
    have inside := ih (s := s.enter kind (s.built.take 1)) ended ran
    have around := State.owed_leave (s := s) (t := inner.2) weights.price kind 1
    change (inner.2.leave s (s.built.drop 1)).owed _ ≤ _ + (body.unpaid weights + 1)
    omega
  | branch look yes no yes_ih no_ih =>
    rw [Program.unpaid]
    rcases exec_branch_eq_some_iff.1 ok with ⟨-, ok⟩ | ⟨-, ok⟩
    · have := yes_ih ended ok
      omega
    · have := no_ih ended ok
      omega
  | seq first second first_ih second_ih =>
    rw [Program.unpaid]
    rcases exec_seq_eq_some_iff.1 ok with ⟨middle, ran, ok⟩ | ⟨-, ok⟩
    · have suffix := (exec_idle proceeds first ended ran).1
      have before := first_ih ended ran
      have after := second_ih (ended.left suffix) ok
      dsimp only at before after
      omega
    · have := first_ih ended ok
      omega

/-- A run makes no more than its program says before the next token. -/
theorem pays_exec (p : Program ρ) (ended : Ended s.left) (ok : exec run p s = some result) :
    Pays weights.price (p.standing eats weights s.current.kind)
      (p.moving eats weights s.current.kind) s result.2 := by
  induction p generalizing s result with
  | done | fail | report fault | become kind =>
    obtain rfl := Option.some.inj ok
    exact ⟨fun _ => Nat.le_refl _, fun moved => absurd rfl moved⟩
  | advance =>
    obtain rfl := Option.some.inj ok
    exact pays_advance s
  | expect kind what =>
    obtain rfl := Option.some.inj ok
    dsimp only
    split
    · exact pays_advance s
    · exact ⟨fun _ => Nat.le_refl _, fun moved => absurd rfl moved⟩
  | call rule =>
    obtain ⟨inner, ran, rfl⟩ := Option.map_eq_some_iff.1 ok
    exact (pays_rule proceeds paying ended ran).mono (Nat.le_refl _) (Nat.le_refl _)
  | require rule => exact pays_rule proceeds paying ended ok
  | mark kind body ih =>
    obtain ⟨inner, ran, rfl⟩ := Option.map_eq_some_iff.1 ok
    have inside := ih (s := s.enter kind (s.built.take 0)) ended ran
    exact inside.leave (exec_idle proceeds body (s := s.enter kind []) ended ran).2
  | wrap kind body ih =>
    obtain ⟨inner, ran, rfl⟩ := Option.map_eq_some_iff.1 ok
    have inside := ih (s := s.enter kind (s.built.take 1)) ended ran
    exact inside.leave (exec_idle proceeds body (s := s.enter kind (s.built.take 1)) ended ran).2
  | branch look yes no yes_ih no_ih =>
    rcases exec_branch_eq_some_iff.1 ok with ⟨seen, ok⟩ | ⟨unseen, ok⟩
    · exact (yes_ih ended ok).mono (look.le_most_yes seen) (look.le_most_yes seen)
    · exact (no_ih ended ok).mono (look.le_most_no unseen) (look.le_most_no unseen)
  | seq first second first_ih second_ih =>
    rcases exec_seq_eq_some_iff.1 ok with ⟨middle, ran, ok⟩ | ⟨-, ok⟩
    · obtain ⟨suffix, stuck⟩ := exec_idle proceeds first ended ran
      have before := first_ih ended ran
      have after := second_ih (ended.left suffix) ok
      have onward := (exec_idle proceeds second (ended.left suffix) ok).1
      by_cases stayed : middle.left = s.left
      · -- the second program starts where the first one did
        have succeeds : (first.idle eats s.current.kind).succeeds = true := stuck stayed
        rw [eq_of_left_eq stayed] at after
        have before := before.standing stayed
        rw [Program.standing, Program.moving, if_pos succeeds, if_pos succeeds]
        refine ⟨fun same => ?_, fun moved => ?_⟩
        · have := after.standing (same.trans stayed.symm)
          omega
        · have := after.moving fun same => moved (same.trans stayed)
          omega
      · -- what comes after the token is paid for by the text of the second program
        have before := before.moving stayed
        have after := owed_exec proceeds paying affordable second (ended.left suffix) ok
        refine ⟨fun same => absurd ?_ stayed, fun _ => ?_⟩
        · refine suffix.eq_of_length_le ?_
          rw [← same]
          exact onward.length_le
        · rw [Program.moving]
          omega
    · refine (first_ih ended ok).mono ?_ ?_
      · exact Nat.le_add_right _ _
      · exact (Nat.le_add_right _ _).trans (Nat.le_max_left _ _)

end Runs

/-! ### Weights -/

/-- Whether the claims about a rule hold of its program before tokens of one kind. No token is taken
over at the end of the text. -/
def Weights.checks (weights : Weights ρ) (eats : ρ → Kind → Bool) (program : ρ → Program ρ)
    (rule : ρ) (kind : Kind) : Bool :=
  (program rule).standing eats weights kind ≤ weights.standing rule
    && (kind == .eof || (program rule).moving eats weights kind ≤ weights.moving rule)
    && weights.moving rule ≤ weights.price

section Checked

variable {m : Measure ρ} {weights : Weights ρ} {program : ρ → Program ρ}
  (measured : ∀ rule kind, m.checks program rule kind = true)
  (weighed : ∀ rule kind, weights.checks m.eats program rule kind = true)

include measured weighed

theorem paying_runRule (bound : Nat) : Paying weights (runRule program bound) := by
  induction bound with
  | zero => exact fun _ _ _ _ ok => by cases ok
  | succ bound ih =>
    intro rule s result ended ok
    have proceeds := proceeds_runRule measured bound
    have affordable : ∀ rule, weights.moving rule ≤ weights.price := fun rule => by
      have claims := weighed rule .eof
      simp only [Weights.checks, Bool.and_eq_true, decide_eq_true_eq] at claims
      exact claims.2
    have claims := weighed rule s.current.kind
    simp only [Weights.checks, Bool.and_eq_true, Bool.or_eq_true, decide_eq_true_eq, beq_iff_eq]
      at claims
    have pays := pays_exec proceeds ih affordable (program rule) ended ok
    refine ⟨fun same => ?_, fun moved => ?_⟩
    · exact (pays.standing same).trans (Nat.add_le_add_left claims.1.1 _)
    · refine (pays.moving moved).trans (Nat.add_le_add_left (claims.1.2.resolve_left ?_) _)
      -- at the end of the text nothing is left to be taken over
      intro last
      have suffix := (proceeds_runRule measured (bound + 1) rule s result ended ok).1
      refine moved (suffix.eq_of_length_le ?_)
      rw [State.left, ended.ahead_eq_nil last]
      exact Nat.succ_le_succ (Nat.zero_le _)

end Checked

namespace Rule

/-- The constructs of the rules. The most are made where a statement begins with a token that all
levels of an expression come down to. -/
def weights : Weights Rule where
  standing
    | forStatement => 6
    | ifStatement | whileStatement => 5
    | functionDef => 4
    | statement | suite | line | lambda => 3
    | simple => 2
    | moduleBody | lineEnd | parameterList _ | importFrom | aliases _ | yieldExpr | plainStatement
    | assignedValue | starExprs | targets | starTarget | starNamed | namedExpr | expr | disjunction
    | conjunction | inversion | comparison | bitOr | binary _ | factor | power | primary | slices
    | slice | atom | parenthesized | listDisplay | braceDisplay => 1
    | _ => 0
  moving
    | moduleBody => 19
    | statements | block | statement | suite | line => 18
    | simple => 15
    | plainStatement => 14
    | slices => 13
    | assignedValue | starExprs | arguments | slice => 12
    | starNamed | namedExpr | expr => 11
    | ifStatement => 10
    | disjunction => 8
    | conjunction => 7
    | forStatement | functionDef | targets | inversion | comparison => 6
    | whileStatement | starTarget | bitOr | binary _ | factor | power => 5
    | parameterList _ => 4
    | elseClause | parameterTail _ | lambda | primary | atom | entryTail | comprehensions => 3
    | aliases _ | yieldExpr | binaryTail _ | trailers | sliceRest | braceDisplay | entries => 2
    | lineEnd | importFrom | assignedTail | starTail | targetTail | orTail | andTail
    | comparisonTail | sliceTail | parenthesized | listDisplay | elements _ | conditions => 1
    | _ => 0
  price := 19

/-- The claims about a rule hold before a token of any kind. -/
def weighed (rule : Rule) : Bool := Kind.all.all (weights.checks eats program rule)

theorem weighed_eq_true (rule : Rule) : rule.weighed = true := by
  cases rule with
  | elements close => rfl
  | parameterList inDef | parameterTail inDef => cases inDef <;> decide +kernel
  | aliases dotted => cases dotted <;> decide +kernel
  | binary level | binaryTail level => cases level <;> decide +kernel
  | _ => decide +kernel

theorem weights_checks (rule : Rule) (kind : Kind) :
    weights.checks measure.eats program rule kind = true :=
  List.all_eq_true.1 rule.weighed_eq_true kind (Kind.mem_all kind)

end Rule

/-! ### The log of a text -/

/-- Marks leave an event for each token and two for each construct. -/
theorem Encodes.length_eq {ms : List Mark} {es : List Event} {last : Option Nat}
    (encodes : Encodes ms es last) :
    es.length = (Mark.tokensAll ms).length + 2 * (Mark.constructsAll ms).length := by
  induction encodes with
  | nil => rfl
  | token t _ ih =>
    rw [List.length_append, ih, Mark.tokensAll_append, Mark.constructsAll_append,
      List.length_append, List.length_append, Mark.tokensAll_token]
    simp [Mark.constructsAll, Mark.constructs]
    omega
  | mark _ _ _ ih inner_ih =>
    simp only [List.length_append, List.length_cons, List.length_nil, ih, inner_ih,
      Mark.tokensAll_append, Mark.constructsAll_append, Mark.tokensAll_construct,
      Mark.constructsAll_construct]
    omega
  | wrap _ _ _ ih inner_ih =>
    simp only [List.length_append, List.length_modify, List.length_cons, List.length_nil, ih,
      inner_ih, Mark.tokensAll_append, Mark.constructsAll_append, Mark.tokensAll_construct,
      Mark.constructsAll_construct]
    simp only [Mark.tokensAll, Mark.constructsAll, List.length_append, List.length_nil]
    omega

variable {tokens : List Token} (ended : Ended tokens)
include ended

theorem length_constructs_read :
    (Mark.constructsAll (State.read tokens).built).length ≤ 19 * tokens.length := by
  obtain ⟨success, s, ok, rfl, -, none⟩ := Rule.exists_read ended
  have left_eq := ended.left_ofTokens
  have ended_left : Ended (State.ofTokens tokens).left := left_eq.symm ▸ ended
  have pays := paying_runRule Rule.checks_eq_true Rule.weights_checks _ _ _ _ ended_left ok
  have owed : (State.read tokens).owed 19 ≤ (State.ofTokens tokens).owed 19 + 1 :=
    pays.unpaid (le_refl 19)
  rw [State.owed, State.owed, left_eq, State.left, none] at owed
  change _ + 19 * 1 ≤ 0 + 19 * tokens.length + 1 at owed
  omega

/-- The log of a text is no longer than a fixed number of events for each token. -/
theorem length_events_read : (Log.read tokens).events.length ≤ 39 * tokens.length := by
  obtain ⟨-, -, -, -, -, ms, es, last, built, encodes, recorded, -⟩ := Rule.exists_log ended
  have constructs := length_constructs_read ended
  have taken := congrArg List.length (onward_read tokens).tokens
  rw [ended.left_ofTokens] at taken
  simp only [State.ofTokens, List.reverse_nil, Mark.tokensAll, List.nil_append,
    List.length_append] at taken
  rw [List.nil_append] at built
  rw [← built] at encodes
  rw [recorded.length, List.length_nil, Nat.zero_add, encodes.length_eq,
    length_constructsAll_reverse]
  omega

end SureCode.Grammar
