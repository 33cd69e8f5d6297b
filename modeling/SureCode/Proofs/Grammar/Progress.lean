import Mathlib
import SureCode.Proofs.Grammar.Run
import SureCode.Proofs.Token.Coverage

/-!
# Every run ends

While a program takes over no token it stays before one kind of token, so what it can do there can
be read off its text: how it may end (`Program.idle`), and which rules it may call on the way
(`Program.descends`). When every rule calls only rules of a lower rank before it has taken over a
token, the depth of calls is bounded by the tokens that are left and the rank, and every run has a
result (`isSome_runRule`).
-/

namespace SureCode.Grammar

variable {ρ : Type}

/-! ### Programs before one token -/

/-- How a program may end without having taken over a token. -/
structure Idle where
  succeeds : Bool
  fails : Bool
deriving DecidableEq, Repr

namespace Idle

/-- Taking over a token is the only way to end. -/
def never : Idle := ⟨false, false⟩

/-- Whether a program may end with a result. -/
def allows (idle : Idle) (success : Bool) : Bool := if success then idle.succeeds else idle.fails

/-- The endings of either of two programs. -/
def either (a b : Idle) : Idle := ⟨a.succeeds || b.succeeds, a.fails || b.fails⟩

/-- The endings of one program after another. -/
def andThen (a b : Idle) : Idle :=
  ⟨a.succeeds && b.succeeds, a.fails || a.succeeds && b.fails⟩

/-- The endings of a program whose failure is passed over. -/
def settled (a : Idle) : Idle := ⟨a.succeeds || a.fails, false⟩

variable {a b : Idle} {success : Bool}

theorem allows_either :
    (a.either b).allows success = (a.allows success || b.allows success) := by
  cases success <;> rfl

theorem allows_andThen (first : a.succeeds = true) (second : b.allows success = true) :
    (a.andThen b).allows success = true := by
  cases success with
  | true => exact Bool.and_eq_true_iff.2 ⟨first, second⟩
  | false => exact Bool.or_eq_true_iff.2 (.inr (Bool.and_eq_true_iff.2 ⟨first, second⟩))

theorem fails_andThen (first : a.fails = true) : (a.andThen b).fails = true :=
  Bool.or_eq_true_iff.2 (.inl first)

theorem succeeds_settled (ends : a.allows success = true) : a.settled.succeeds = true := by
  cases success with
  | true => exact Bool.or_eq_true_iff.2 (.inl ends)
  | false => exact Bool.or_eq_true_iff.2 (.inr ends)

end Idle

namespace Program

/-- How a program may end before a token of some kind without having taken it over, given which
rules surely take over a token of which kind. -/
def idle (eats : ρ → Kind → Bool) (kind : Kind) : Program ρ → Idle
  | done => ⟨true, false⟩
  | fail => ⟨false, true⟩
  | advance => ⟨kind == .eof, false⟩
  | expect wanted _ => ⟨kind == .eof || kind != wanted, false⟩
  | report _ => ⟨true, false⟩
  | call rule => ⟨!eats rule kind, false⟩
  | require rule => ⟨!eats rule kind, !eats rule kind⟩
  | mark _ body => (idle eats kind body).settled
  | wrap _ body => (idle eats kind body).settled
  | become _ => ⟨true, false⟩
  | branch test yes no =>
    if !test.first.contains kind then idle eats kind no
    else if test.second.isNone then idle eats kind yes
    else (idle eats kind yes).either (idle eats kind no)
  | seq first second => (idle eats kind first).andThen (idle eats kind second)

/-- Whether all rules that a program may call before it has taken over a token of some kind satisfy
a test. -/
def descends (eats : ρ → Kind → Bool) (test : ρ → Bool) (kind : Kind) : Program ρ → Bool
  | call rule => test rule
  | require rule => test rule
  | mark _ body => descends eats test kind body
  | wrap _ body => descends eats test kind body
  | branch look yes no =>
    if !look.first.contains kind then descends eats test kind no
    else if look.second.isNone then descends eats test kind yes
    else descends eats test kind yes && descends eats test kind no
  | seq first second =>
    descends eats test kind first
      && (!(idle eats kind first).succeeds || descends eats test kind second)
  | _ => true

end Program

/-! ### Tokens to the end -/

/-- The last token is the end of the text and no other is. -/
def Ended (ts : List Token) : Prop :=
  ∃ front last, ts = front ++ [last] ∧ Unended front ∧ last.kind = .eof

variable {s t : State} {ts us : List Token}

/-- Other tokens of the same kinds. -/
theorem Ended.map {f : Token → Token} (same : ∀ t, (f t).kind = t.kind) (ended : Ended ts) :
    Ended (ts.map f) := by
  obtain ⟨front, last, rfl, unended, kind⟩ := ended
  refine ⟨front.map f, f last, by rw [List.map_append]; rfl, fun t mem => ?_, (same last).trans kind⟩
  obtain ⟨u, here, rfl⟩ := List.mem_map.1 mem
  rw [same]
  exact unended u here

theorem Ended.left_ofTokens (ended : Ended ts) : (State.ofTokens ts).left = ts := by
  obtain ⟨front, last, rfl, -⟩ := ended
  cases front <;> rfl

theorem Ended.suffix (ended : Ended ts) (suffix : us <:+ ts) (nonempty : us ≠ []) : Ended us := by
  obtain ⟨front, last, rfl, unended, kind⟩ := ended
  rcases List.suffix_concat_iff.1 suffix with rfl | ⟨rest, rfl, within⟩
  · exact absurd rfl nonempty
  · exact ⟨rest, last, rfl, fun t mem => unended t (within.subset mem), kind⟩

theorem Ended.left (ended : Ended s.left) (suffix : t.left <:+ s.left) : Ended t.left :=
  ended.suffix suffix (List.cons_ne_nil _ _)

/-- Nothing is left after the end of the text. -/
theorem Ended.ahead_eq_nil (ended : Ended s.left) (kind : s.current.kind = .eof) :
    s.ahead = [] := by
  obtain ⟨front, last, eq, unended, -⟩ := ended
  cases front with
  | nil => exact (List.cons.inj eq).2
  | cons t front =>
    have := unended t List.mem_cons_self
    rw [← (List.cons.inj eq).1] at this
    exact absurd kind this

theorem Ended.kind_eq_eof (ended : Ended s.left) (none : s.ahead = []) :
    s.current.kind = .eof := by
  obtain ⟨front, last, eq, -, kind⟩ := ended
  rw [State.left, none] at eq
  cases front with
  | nil => rwa [(List.cons.inj eq).1]
  | cons t front => simp at eq

theorem contains_of_sees {look : Lookahead} (seen : s.sees look = true) :
    look.first.contains s.current.kind = true := by
  unfold State.sees at seen
  exact (Bool.and_eq_true_iff.1 seen).1

theorem sees_of_contains {look : Lookahead} (first : look.first.contains s.current.kind = true)
    (second : look.second = none) : s.sees look = true := by
  rw [State.sees, first, second]
  rfl

theorem eq_of_left_eq (same : t.left = s.left) : t.current = s.current := (List.cons.inj same).1

/-- Only at the end of the text is a token not taken over. -/
theorem left_advance (ended : Ended s.left) :
    s.advance.left <:+ s.left ∧ (s.advance.left = s.left → s.current.kind = .eof) := by
  rcases s.advance_cases with ⟨eq, stuck⟩ | ⟨-, next, ahead, more, eq⟩
  · rw [eq]
    exact ⟨List.suffix_refl _, fun _ => stuck.elim ended.kind_eq_eof id⟩
  · have left_eq : s.advance.left = s.ahead := by rw [eq, more]; rfl
    rw [left_eq]
    refine ⟨List.suffix_cons _ _, fun same => absurd (congrArg List.length same) ?_⟩
    simp [State.left]

/-! ### Runs before one token -/

section Runs

variable {eats : ρ → Kind → Bool} {run : ρ → State → Option (Bool × State)} {p : Program ρ}
  {result : Bool × State}

/-- Results of rules go forward, and past the next token where the rule surely takes it over. -/
def Proceeds (eats : ρ → Kind → Bool) (run : ρ → State → Option (Bool × State)) : Prop :=
  ∀ rule s result, Ended s.left → run rule s = some result →
    result.2.left <:+ s.left ∧ (result.2.left = s.left → eats rule s.current.kind = false)

section Branches

variable {look : Lookahead} {yes no : Program ρ} {test : ρ → Bool} {success : Bool}

theorem idle_yes (seen : s.sees look = true)
    (ends : (yes.idle eats s.current.kind).allows success = true) :
    ((Program.branch look yes no).idle eats s.current.kind).allows success = true := by
  rw [Program.idle, contains_of_sees seen]
  cases look.second with
  | none => exact ends
  | some kinds =>
    change (Idle.either _ _).allows success = true
    rw [Idle.allows_either, ends, Bool.true_or]

theorem idle_no (unseen : ¬ s.sees look = true)
    (ends : (no.idle eats s.current.kind).allows success = true) :
    ((Program.branch look yes no).idle eats s.current.kind).allows success = true := by
  rw [Program.idle]
  cases first : look.first.contains s.current.kind with
  | false => exact ends
  | true =>
    cases second : look.second with
    | none => exact absurd (sees_of_contains first second) unseen
    | some kinds =>
      change (Idle.either _ _).allows success = true
      rw [Idle.allows_either, ends, Bool.or_true]

theorem descends_yes (seen : s.sees look = true)
    (descends : (Program.branch look yes no).descends eats test s.current.kind = true) :
    yes.descends eats test s.current.kind = true := by
  rw [Program.descends, contains_of_sees seen] at descends
  cases second : look.second with
  | none =>
    rw [second] at descends
    exact descends
  | some kinds =>
    rw [second] at descends
    exact (Bool.and_eq_true_iff.1 descends).1

theorem descends_no (unseen : ¬ s.sees look = true)
    (descends : (Program.branch look yes no).descends eats test s.current.kind = true) :
    no.descends eats test s.current.kind = true := by
  rw [Program.descends] at descends
  cases first : look.first.contains s.current.kind with
  | false =>
    rw [first] at descends
    exact descends
  | true =>
    cases second : look.second with
    | none => exact absurd (sees_of_contains first second) unseen
    | some kinds =>
      rw [first, second] at descends
      exact (Bool.and_eq_true_iff.1 descends).2

end Branches

/-- A run that has taken over nothing ends as its program may. -/
theorem exec_idle (proceeds : Proceeds eats run) (p : Program ρ) (ended : Ended s.left)
    (ok : exec run p s = some result) :
    result.2.left <:+ s.left ∧
      (result.2.left = s.left → (p.idle eats s.current.kind).allows result.1 = true) := by
  induction p generalizing s result with
  | done | fail | become kind | report fault =>
    obtain rfl := Option.some.inj ok
    exact ⟨List.suffix_refl _, fun _ => rfl⟩
  | advance =>
    obtain rfl := Option.some.inj ok
    obtain ⟨suffix, stuck⟩ := left_advance ended
    exact ⟨suffix, fun same => beq_iff_eq.2 (stuck same)⟩
  | expect kind what =>
    obtain rfl := Option.some.inj ok
    dsimp only
    split
    case isTrue =>
      obtain ⟨suffix, stuck⟩ := left_advance ended
      refine ⟨suffix, fun same => ?_⟩
      simp [Program.idle, Idle.allows, stuck same]
    case isFalse missing =>
      refine ⟨List.suffix_refl _, fun _ => ?_⟩
      simp [Program.idle, Idle.allows, missing]
  | call rule =>
    obtain ⟨inner, ran, rfl⟩ := Option.map_eq_some_iff.1 ok
    obtain ⟨suffix, stuck⟩ := proceeds rule s inner ended ran
    exact ⟨suffix, fun same => by simp [Program.idle, Idle.allows, stuck same]⟩
  | require rule =>
    obtain ⟨suffix, stuck⟩ := proceeds rule s result ended ok
    exact ⟨suffix, fun same => by simp [Program.idle, Idle.allows, stuck same]⟩
  | mark kind body ih | wrap kind body ih =>
    obtain ⟨inner, ran, rfl⟩ := Option.map_eq_some_iff.1 ok
    obtain ⟨suffix, stuck⟩ := ih (s := s.enter kind _) ended ran
    exact ⟨suffix, fun same => Idle.succeeds_settled (stuck same)⟩
  | branch look yes no yes_ih no_ih =>
    rcases exec_branch_eq_some_iff.1 ok with ⟨seen, ok⟩ | ⟨unseen, ok⟩
    · obtain ⟨suffix, stuck⟩ := yes_ih ended ok
      exact ⟨suffix, fun same => idle_yes seen (stuck same)⟩
    · obtain ⟨suffix, stuck⟩ := no_ih ended ok
      exact ⟨suffix, fun same => idle_no unseen (stuck same)⟩
  | seq first second first_ih second_ih =>
    rcases exec_seq_eq_some_iff.1 ok with ⟨middle, ran, ok⟩ | ⟨failed, ok⟩
    · obtain ⟨suffix, stuck⟩ := first_ih ended ran
      obtain ⟨suffix', stuck'⟩ := second_ih (ended.left suffix) ok
      refine ⟨suffix'.trans suffix, fun same => ?_⟩
      -- a run that ends where it began was there all the time
      have middle_eq : middle.left = s.left := by
        refine suffix.eq_of_length_le ?_
        rw [← same]
        exact suffix'.length_le
      have ends := stuck' (same.trans middle_eq.symm)
      rw [eq_of_left_eq middle_eq] at ends
      exact Idle.allows_andThen (stuck middle_eq) ends
    · obtain ⟨suffix, stuck⟩ := first_ih ended ok
      rw [failed] at stuck ⊢
      exact ⟨suffix, fun same => Idle.fails_andThen (stuck same)⟩

/-- Where all rules have results for short rests of a text, all programs do. -/
theorem isSome_exec_of_short {count : Nat} (proceeds : Proceeds eats run)
    (total : ∀ rule t, Ended t.left → t.left.length < count → (run rule t).isSome = true)
    (p : Program ρ) (ended : Ended s.left) (short : s.left.length < count) :
    (exec run p s).isSome = true := by
  induction p generalizing s with
  | done | fail | become kind | report fault | advance | expect kind what => rfl
  | call rule =>
    rw [exec, Option.isSome_map]
    exact total rule s ended short
  | require rule => exact total rule s ended short
  | mark kind body ih | wrap kind body ih =>
    rw [exec, Option.isSome_map]
    exact ih (s := s.enter kind _) ended short
  | branch test yes no yes_ih no_ih =>
    rw [exec]
    split
    · exact yes_ih ended short
    · exact no_ih ended short
  | seq first second first_ih second_ih =>
    rw [exec]
    split
    · rename_i middle ran
      have suffix := (exec_idle proceeds first ended ran).1
      exact second_ih (ended.left suffix) (suffix.length_le.trans_lt short)
    · exact first_ih ended short

/-- A program has a result where the rules it may call before the next token do, and all rules have
results after it. -/
theorem isSome_exec {test : ρ → Bool} (proceeds : Proceeds eats run) (ended : Ended ts)
    (here : ∀ rule t, t.left = ts → test rule = true → (run rule t).isSome = true)
    (later : ∀ rule t, Ended t.left → t.left.length < ts.length → (run rule t).isSome = true)
    (p : Program ρ) (left : s.left = ts)
    (descends : p.descends eats test s.current.kind = true) : (exec run p s).isSome = true := by
  induction p generalizing s with
  | done | fail | become kind | report fault | advance | expect kind what => rfl
  | call rule =>
    rw [exec, Option.isSome_map]
    exact here rule s left descends
  | require rule => exact here rule s left descends
  | mark kind body ih | wrap kind body ih =>
    rw [exec, Option.isSome_map]
    exact ih (s := s.enter kind _) left descends
  | branch look yes no yes_ih no_ih =>
    rw [exec]
    split
    case isTrue seen => exact yes_ih left (descends_yes seen descends)
    case isFalse unseen => exact no_ih left (descends_no unseen descends)
  | seq first second first_ih second_ih =>
    rw [Program.descends, Bool.and_eq_true] at descends
    rw [exec]
    split
    · rename_i middle ran
      have ended : Ended s.left := left ▸ ended
      obtain ⟨suffix, stuck⟩ := exec_idle proceeds first ended ran
      rcases Nat.lt_or_ge middle.left.length s.left.length with moved | stayed
      · exact isSome_exec_of_short proceeds later second (ended.left suffix) (left ▸ moved)
      · -- the first program has taken over nothing, so the second one starts where it did
        have same := suffix.eq_of_length_le stayed
        have succeeds : (first.idle eats s.current.kind).succeeds = true := stuck same
        refine second_ih (same.trans left) ?_
        rw [eq_of_left_eq same]
        simpa [succeeds] using descends.2
    · exact first_ih left descends.1

end Runs

/-! ### Ranks -/

/-- The most levels between two tokens, with room. -/
def rankLimit : Nat := 64

/-- What is claimed of the rules of a grammar: the tokens they surely take over, and their ranks
before a token of each kind. -/
structure Measure (ρ : Type) where
  eats : ρ → Kind → Bool
  rank : ρ → Kind → Nat

/-- Whether the claims about a rule hold of its program before tokens of one kind. -/
def Measure.checks (m : Measure ρ) (program : ρ → Program ρ) (rule : ρ) (kind : Kind) : Bool :=
  (program rule).descends m.eats (fun called => m.rank called kind < m.rank rule kind) kind
    && (!m.eats rule kind || (program rule).idle m.eats kind == .never)
    && m.rank rule kind < rankLimit

section Measures

variable {m : Measure ρ} {program : ρ → Program ρ}
  (checked : ∀ rule kind, m.checks program rule kind = true)

include checked

theorem proceeds_runRule (bound : Nat) : Proceeds m.eats (runRule program bound) := by
  induction bound with
  | zero => exact fun _ _ _ _ ok => by cases ok
  | succ bound ih =>
    intro rule s result ended ok
    obtain ⟨suffix, stuck⟩ := exec_idle ih (program rule) ended ok
    refine ⟨suffix, fun same => ?_⟩
    have allowed := stuck same
    have claims := checked rule s.current.kind
    simp only [Measure.checks, Bool.and_eq_true, Bool.or_eq_true, Bool.not_eq_true',
      beq_iff_eq] at claims
    refine claims.1.2.resolve_right fun never => ?_
    rw [never] at allowed
    cases success : result.1 <;> simp [success, Idle.allows, Idle.never] at allowed

/-- A bound over the tokens that are left and the rank of the rule is enough. -/
theorem isSome_runRule (bound : Nat) (rule : ρ) (s : State) (ended : Ended s.left)
    (enough : rankLimit * s.left.length + m.rank rule s.current.kind < bound) :
    (runRule program bound rule s).isSome = true := by
  induction bound generalizing rule s with
  | zero => omega
  | succ bound ih =>
    have claims := checked rule s.current.kind
    simp only [Measure.checks, Bool.and_eq_true] at claims
    refine isSome_exec (proceeds_runRule checked bound) ended (fun called t same lower => ?_)
      (fun called t ended shorter => ?_) (program rule) rfl claims.1.1
    · refine ih called t (same ▸ ended) ?_
      rw [same, eq_of_left_eq same]
      have := of_decide_eq_true lower
      omega
    · have limit := checked called t.current.kind
      simp only [Measure.checks, Bool.and_eq_true, decide_eq_true_eq] at limit
      refine ih called t ended ?_
      have : rankLimit * (t.left.length + 1) ≤ rankLimit * s.left.length :=
        Nat.mul_le_mul_left _ shorter
      rw [Nat.mul_add] at this
      omega

end Measures

end SureCode.Grammar
