import Mathlib
import SureCode.Proofs.Conservation

/-!
# Reading without faults

A token that fits nowhere is never taken over in silence, and nothing is marked as an error without a
report. `Program.safe` checks this of a program from what is known of the next two tokens when it
begins, and `Program.after` is what is known when it has ended without a fault. Where the programs of
all rules are safe, a run that reports nothing leaves only sound marks (`runRule_faultless`).
-/

namespace SureCode

/-! ### Sound marks -/

/-- Kinds of tokens and constructs that fit the grammar. -/
def Kind.isSound (kind : Kind) : Bool := kind != .unknown && kind != .error

namespace Mark

mutual

/-- The kinds of the tokens and constructs of a mark. -/
def kinds : Mark → List Kind
  | token t => [t.kind]
  | construct kind parts => kind :: kindsAll parts

/-- The kinds of the tokens and constructs of some marks. -/
def kindsAll : List Mark → List Kind
  | [] => []
  | m :: ms => kinds m ++ kindsAll ms

end

theorem kindsAll_eq_flatMap (ms : List Mark) : kindsAll ms = ms.flatMap kinds := by
  induction ms with
  | nil => rw [kindsAll, List.flatMap_nil]
  | cons m ms ih => rw [kindsAll, ih, List.flatMap_cons]

/-- All tokens and constructs of some marks fit the grammar. -/
def Sound (ms : List Mark) : Prop := ∀ m ∈ ms, ∀ kind ∈ kinds m, kind.isSound = true

theorem Sound.cons {m : Mark} {ms : List Mark} (first : ∀ kind ∈ kinds m, kind.isSound = true)
    (rest : Sound ms) : Sound (m :: ms) := List.forall_mem_cons.2 ⟨first, rest⟩

theorem Sound.construct {kind : Kind} {parts ms : List Mark} (sound : kind.isSound = true)
    (inside : Sound parts) (rest : Sound ms) : Sound (.construct kind parts.reverse :: ms) := by
  refine rest.cons fun kind' mem => ?_
  rw [kinds, kindsAll_eq_flatMap, List.mem_cons, List.mem_flatMap] at mem
  rcases mem with rfl | ⟨m, mem, within⟩
  · exact sound
  · exact inside m (List.mem_reverse.1 mem) kind' within

mutual

theorem kind_mem_kinds {t : Token} (m : Mark) (mem : t ∈ m.tokens) : t.kind ∈ kinds m := by
  match m with
  | .token u =>
    rw [tokens, List.mem_singleton] at mem
    rw [kinds, mem]
    exact List.mem_singleton_self _
  | .construct kind parts =>
    rw [tokens] at mem
    rw [kinds]
    exact List.mem_cons_of_mem _ (kind_mem_kindsAll parts mem)

theorem kind_mem_kindsAll {t : Token} (ms : List Mark) (mem : t ∈ tokensAll ms) :
    t.kind ∈ kindsAll ms := by
  match ms with
  | [] => simp [tokensAll] at mem
  | m :: ms =>
    rw [tokensAll, List.mem_append] at mem
    rw [kindsAll, List.mem_append]
    exact mem.imp (kind_mem_kinds m) (kind_mem_kindsAll ms)

end

/-- The tokens of sound marks fit the grammar. -/
theorem Sound.token {ms : List Mark} {t : Token} (sound : Sound ms) (mem : t ∈ tokensAll ms) :
    t.kind.isSound = true := by
  have within := kind_mem_kindsAll ms mem
  rw [kindsAll_eq_flatMap, List.mem_flatMap] at within
  obtain ⟨m, here, within⟩ := within
  exact sound m here _ within

end Mark

namespace Grammar

variable {ρ : Type}

/-! ### What is known of the next tokens -/

/-- The kinds that the next token and the one after it can have, where anything is known of them. -/
structure Sight where
  first : Option (List Kind)
  second : Option (List Kind)
deriving DecidableEq, Repr

namespace Sight

/-- Nothing is known. -/
def any : Sight := ⟨none, none⟩

/-- What is known when a test has been passed. -/
def seen (test : Lookahead) (k : Sight) : Sight := ⟨some test.first, test.second.or k.second⟩

/-- What is known when a token of one of some kinds has been taken over. The end of the text never
is. -/
def passed (kinds : List Kind) (k : Sight) : Sight :=
  if kinds.contains .eof then any else ⟨k.second, none⟩

/-- Kinds on one of two ways. -/
def eitherKinds : Option (List Kind) → Option (List Kind) → Option (List Kind)
  | some kinds, some kinds' => some (kinds ++ kinds')
  | _, _ => none

/-- What is known after one of two ways, each of which may be closed. -/
def either : Option Sight → Option Sight → Option Sight
  | none, k => k
  | k, none => k
  | some k, some k' => some ⟨eitherKinds k.first k'.first, eitherKinds k.second k'.second⟩

/-- Whether the next token is surely of one of some kinds, where a rule asks for that. -/
def meets (k : Sight) : Option (List Kind) → Bool
  | none => true
  | some wanted => k.first.any fun kinds => kinds.all wanted.contains

/-- What is known holds of a place. -/
structure Holds (k : Sight) (s : State) : Prop where
  first : ∀ kinds, k.first = some kinds → s.current.kind ∈ kinds
  second : ∀ kinds, k.second = some kinds → (s.ahead.head?.map (·.kind)).getD .eof ∈ kinds

variable {k k' : Sight} {s : State} {kinds : List Kind}

theorem holds_any (s : State) : any.Holds s := ⟨nofun, nofun⟩

theorem Holds.seen {test : Lookahead} (holds : k.Holds s) (sees : s.sees test = true) :
    (k.seen test).Holds s := by
  rw [State.sees, Bool.and_eq_true, List.contains_iff_mem] at sees
  refine ⟨fun kinds eq => Option.some.inj eq ▸ sees.1, fun kinds eq => ?_⟩
  obtain ⟨first, second⟩ := test
  cases second with
  | none => exact holds.second kinds eq
  | some wanted =>
    obtain rfl : wanted = kinds := Option.some.inj eq
    exact List.contains_iff_mem.1 sees.2

theorem Holds.passed (holds : k.Holds s) (ended : Ended s.left) (mem : s.current.kind ∈ kinds) :
    (k.passed kinds).Holds s.advance := by
  unfold Sight.passed
  split
  · exact holds_any _
  · rename_i unended
    rcases s.advance_cases with ⟨-, stuck⟩ | ⟨-, next, ahead, more, eq⟩
    · have last := stuck.elim ended.kind_eq_eof id
      exact absurd (List.contains_iff_mem.2 (last ▸ mem)) unended
    · refine ⟨fun kinds eq' => ?_, nofun⟩
      have second := holds.second kinds eq'
      rw [more] at second
      rw [eq]
      exact second

theorem mem_eitherKinds {kind : Kind} {left right : Option (List Kind)}
    (holds : (∀ kinds, left = some kinds → kind ∈ kinds) ∨ ∀ kinds, right = some kinds → kind ∈ kinds)
    (eq : eitherKinds left right = some kinds) : kind ∈ kinds := by
  cases left with
  | none => cases eq
  | some left =>
    cases right with
    | none => cases eq
    | some right =>
      obtain rfl : left ++ right = kinds := Option.some.inj eq
      exact List.mem_append.2 (holds.imp (· left rfl) (· right rfl))

theorem Holds.either {left right : Option Sight}
    (holds : (∃ k, left = some k ∧ k.Holds s) ∨ ∃ k, right = some k ∧ k.Holds s) :
    ∃ k, Sight.either left right = some k ∧ k.Holds s := by
  cases left with
  | none => exact holds.resolve_left nofun
  | some left =>
    cases right with
    | none => exact holds.resolve_right nofun
    | some right =>
      have holds : left.Holds s ∨ right.Holds s := by simpa using holds
      exact ⟨_, rfl, fun _ => mem_eitherKinds (holds.imp (·.first) (·.first)),
        fun _ => mem_eitherKinds (holds.imp (·.second) (·.second))⟩

/-- What a rule asks for holds where it is surely met. -/
theorem Holds.meets {wanted : Option (List Kind)} (holds : k.Holds s) (met : k.meets wanted = true) :
    (⟨wanted, none⟩ : Sight).Holds s := by
  refine ⟨fun kinds eq => ?_, nofun⟩
  obtain rfl : wanted = some kinds := eq
  rw [Sight.meets, Option.any_eq_true] at met
  obtain ⟨possible, eq, all⟩ := met
  exact List.contains_iff_mem.1 (List.all_eq_true.1 all _ (holds.first possible eq))

end Sight

/-! ### Safe programs -/

/-- What is claimed of the rules of a grammar: the kinds of tokens that a rule is only called before,
where it relies on that, and the kinds of tokens that it takes over and nothing more. -/
structure Precaution (ρ : Type) where
  needs : ρ → Option (List Kind)
  single : ρ → Kind → Bool

namespace Program

variable (claims : Precaution ρ)

/-- What is known when a rule has been run. -/
def afterCall (rule : ρ) (k : Sight) : Sight :=
  match k.first with
  | some kinds => if kinds.all (claims.single rule) then k.passed kinds else .any
  | none => .any

/-- What is known when a program has ended without a fault; nothing if it never does. -/
def after : Program ρ → Sight → Option Sight
  | fail, _ | report _, _ => none
  | advance, k => some (k.passed (k.first.getD [.eof]))
  | expect kind _, k => some (k.passed [kind])
  | call rule, k | require rule, k => some (afterCall claims rule k)
  | mark _ body, k | wrap _ body, k => after body k
  | branch test yes no, k => Sight.either (after yes (k.seen test)) (after no k)
  | seq first second, k => (after first k).bind (after second)
  | _, k => some k

/-- Whether a program takes over no token that fits nowhere, marks nothing as an error and does not
fail, as long as there is no fault. -/
def safe : Program ρ → Sight → Bool
  | fail, _ => false
  | advance, k => k.first.any fun kinds => kinds.all Kind.isSound
  | expect kind _, _ | become kind, _ => kind.isSound
  | call rule, k | require rule, k => k.meets (claims.needs rule)
  | mark kind body, k | wrap kind body, k =>
    safe body k && (kind.isSound || (after claims body k).isNone)
  | branch test yes no, k => safe yes (k.seen test) && safe no k
  | seq first second, k => safe first k && (after claims first k).all (safe second)
  | _, _ => true

end Program

/-! ### Runs that report nothing -/

/-- What a run without faults does: it succeeds where something is known to hold after it, and every
mark that it adds is sound, as is the kind that it leaves the construct around it with. -/
structure Faultless (k : Option Sight) (s : State) (result : Bool × State) : Prop where
  success : result.1 = true
  sight : ∃ k', k = some k' ∧ k'.Holds result.2
  sound : Mark.Sound s.built → Mark.Sound result.2.built
  kind : result.2.kind = s.kind ∨ result.2.kind.isSound = true

/-- Results of rules are without surprise: where a rule is called as it may be and reports nothing,
it has been run without faults. -/
structure Cautious (claims : Precaution ρ) (run : ρ → State → Option (Bool × State)) : Prop where
  onward : ∀ {rule s result}, run rule s = some result → Onward s result.2
  single : ∀ {rule s result}, claims.single rule s.current.kind = true →
    run rule s = some result → result.2.left = s.advance.left
  faultless : ∀ {rule s result}, Ended s.left → (⟨claims.needs rule, none⟩ : Sight).Holds s →
    run rule s = some result → result.2.faults = [] → Faultless (some .any) s result

variable {claims : Precaution ρ} {run : ρ → State → Option (Bool × State)} {k : Sight} {s t : State}
  {result : Bool × State}

theorem Sight.Holds.congr (holds : k.Holds s) (same : t.left = s.left) : k.Holds t := by
  obtain ⟨current, ahead⟩ := List.cons.inj same
  exact ⟨current ▸ holds.first, ahead ▸ holds.second⟩

theorem Onward.faults_eq_nil (onward : Onward s t) (none : t.faults = []) : s.faults = [] := by
  obtain ⟨new, eq, -⟩ := onward.faults
  exact (List.append_eq_nil_iff.1 (eq.symm.trans none)).2

theorem sound_advance (token : s.current.kind.isSound = true) (sound : Mark.Sound s.built) :
    Mark.Sound s.advance.built := by
  rcases s.advance_cases with ⟨eq, -⟩ | ⟨-, next, ahead, -, eq⟩
  · rwa [eq]
  · rw [eq]
    refine sound.cons fun kind mem => ?_
    rw [Mark.kinds, List.mem_singleton] at mem
    rwa [mem]

/-- The token of a faultless run is taken over. -/
theorem faultless_advance {kinds : List Kind} (holds : k.Holds s) (ended : Ended s.left)
    (mem : s.current.kind ∈ kinds) (token : s.current.kind.isSound = true) :
    Faultless (some (k.passed kinds)) s (true, s.advance) :=
  ⟨rfl, ⟨_, rfl, holds.passed ended mem⟩, sound_advance token, .inl s.kind_advance⟩

/-- A construct around what a faultless run adds is sound. -/
theorem Faultless.leave {kind : Kind} {before inside : List Mark} {known : Option Sight}
    (inner : Faultless known (s.enter kind inside) result)
    (named : kind.isSound = true ∨ known = none) (first : Mark.Sound s.built → Mark.Sound inside)
    (rest : Mark.Sound s.built → Mark.Sound before) :
    Faultless known s (true, result.2.leave s before) := by
  obtain ⟨-, ⟨k', eq, holds⟩, sound, kind_eq⟩ := inner
  have named := named.resolve_right (by simp [eq])
  refine ⟨rfl, ⟨k', eq, holds.first, holds.second⟩, fun outer => ?_, .inl rfl⟩
  have own : result.2.kind.isSound = true := by
    rcases kind_eq with same | sound
    · rw [same]
      exact named
    · exact sound
  exact .construct own (sound (first outer)) (rest outer)

theorem faultless_call {rule : ρ} (cautious : Cautious claims run) (ended : Ended s.left)
    (holds : k.Holds s) (met : k.meets (claims.needs rule) = true) (ok : run rule s = some result)
    (none : result.2.faults = []) :
    Faultless (some (Program.afterCall claims rule k)) s result := by
  obtain ⟨success, -, sound, kind⟩ := cautious.faultless ended (holds.meets met) ok none
  refine ⟨success, ⟨_, rfl, ?_⟩, sound, kind⟩
  unfold Program.afterCall
  split
  · rename_i kinds eq
    split
    · rename_i alone
      have mem := holds.first kinds eq
      have taken := cautious.single (List.all_eq_true.1 alone _ mem) ok
      exact (holds.passed ended mem).congr taken
    · exact Sight.holds_any _
  · exact Sight.holds_any _

/-- A run of a safe program that reports nothing is faultless. -/
theorem exec_faultless (cautious : Cautious claims run) (p : Program ρ) (ended : Ended s.left)
    (holds : k.Holds s) (safe : p.safe claims k = true) (ok : exec run p s = some result)
    (none : result.2.faults = []) : Faultless (p.after claims k) s result := by
  induction p generalizing k s result with
  | done =>
    obtain rfl := Option.some.inj ok
    exact ⟨rfl, ⟨k, rfl, holds⟩, id, .inl rfl⟩
  | fail => cases safe
  | advance =>
    obtain rfl := Option.some.inj ok
    obtain ⟨kinds, first, sound⟩ := (Option.any_eq_true _ _).1 safe
    have mem := holds.first kinds first
    rw [Program.after, first, Option.getD_some]
    exact faultless_advance holds ended mem (List.all_eq_true.1 sound _ mem)
  | expect kind what =>
    obtain rfl := Option.some.inj ok
    dsimp only at none ⊢
    split at none
    case isTrue eq =>
      rw [if_pos eq]
      exact faultless_advance holds ended (List.mem_singleton.2 eq) (eq ▸ safe)
    case isFalse => cases none
  | report fault =>
    obtain rfl := Option.some.inj ok
    cases none
  | call rule =>
    obtain ⟨inner, ran, rfl⟩ := Option.map_eq_some_iff.1 ok
    obtain ⟨-, sight, sound, kind⟩ := faultless_call cautious ended holds safe ran none
    exact ⟨rfl, sight, sound, kind⟩
  | require rule => exact faultless_call cautious ended holds safe ok none
  | mark kind body ih =>
    obtain ⟨inner, ran, rfl⟩ := Option.map_eq_some_iff.1 ok
    obtain ⟨inside, named⟩ := Bool.and_eq_true_iff.1 safe
    rw [Bool.or_eq_true, Option.isNone_iff_eq_none] at named
    have faultless := ih (s := s.enter kind []) ended ⟨holds.first, holds.second⟩ inside ran none
    exact faultless.leave named (fun _ => nofun) id
  | wrap kind body ih =>
    obtain ⟨inner, ran, rfl⟩ := Option.map_eq_some_iff.1 ok
    obtain ⟨inside, named⟩ := Bool.and_eq_true_iff.1 safe
    rw [Bool.or_eq_true, Option.isNone_iff_eq_none] at named
    have faultless := ih (s := s.enter kind (s.built.take 1)) ended ⟨holds.first, holds.second⟩
      inside ran none
    exact faultless.leave named (fun sound m mem => sound m (List.mem_of_mem_take mem))
      fun sound m mem => sound m (List.mem_of_mem_drop mem)
  | become kind =>
    obtain rfl := Option.some.inj ok
    exact ⟨rfl, ⟨k, rfl, holds.first, holds.second⟩, id, .inr safe⟩
  | branch test yes no yes_ih no_ih =>
    rw [Program.safe, Bool.and_eq_true] at safe
    rw [Program.after]
    rcases exec_branch_eq_some_iff.1 ok with ⟨sees, ok⟩ | ⟨-, ok⟩
    · obtain ⟨success, sight, sound, kind⟩ := yes_ih ended (holds.seen sees) safe.1 ok none
      exact ⟨success, Sight.Holds.either (.inl sight), sound, kind⟩
    · obtain ⟨success, sight, sound, kind⟩ := no_ih ended holds safe.2 ok none
      exact ⟨success, Sight.Holds.either (.inr sight), sound, kind⟩
  | seq first second first_ih second_ih =>
    rw [Program.safe, Bool.and_eq_true] at safe
    rw [Program.after]
    rcases exec_seq_eq_some_iff.1 ok with ⟨middle, ran, ok⟩ | ⟨failed, ok⟩
    · have onward := stable_onward.exec cautious.onward first ran
      have further := stable_onward.exec cautious.onward second ok
      obtain ⟨-, ⟨k', eq, holds'⟩, sound, kind⟩ :=
        first_ih ended holds safe.1 ran (further.faults_eq_nil none)
      have safe' := safe.2
      rw [eq] at safe'
      obtain ⟨success, sight, sound', kind'⟩ :=
        second_ih (ended.left onward.suffix) holds' safe' ok none
      rw [eq]
      refine ⟨success, sight, sound' ∘ sound, ?_⟩
      rcases kind' with same | named
      · rw [same]
        exact kind
      · exact .inr named
    · have success := (first_ih ended holds safe.1 ok none).success
      exact absurd (success.symm.trans failed) nofun

/-- The claims about the rules hold of their programs. A rule that is called before no token at all
is only called when there is a fault. -/
def Precaution.checks (claims : Precaution ρ) (program : ρ → Program ρ) (rule : ρ) : Bool :=
  claims.needs rule == some [] || (program rule).safe claims ⟨claims.needs rule, none⟩

/-- Where the programs of all rules are safe, runs are cautious. -/
theorem cautious_runRule {program : ρ → Program ρ}
    (checked : ∀ rule, claims.checks program rule = true)
    (single : ∀ {bound rule s result}, claims.single rule s.current.kind = true →
      runRule program bound rule s = some result → result.2.left = s.advance.left) (bound : Nat) :
    Cautious claims (runRule program bound) := by
  refine ⟨stable_onward.runRule bound, single, ?_⟩
  induction bound with
  | zero => intro _ _ _ _ _ ok _; cases ok
  | succ bound ih =>
    intro rule s result ended holds ok none
    have cautious : Cautious claims (runRule program bound) :=
      ⟨stable_onward.runRule bound, single, ih⟩
    rcases Bool.or_eq_true_iff.1 (checked rule) with never | safe
    · exact absurd (holds.first [] (beq_iff_eq.1 never)) List.not_mem_nil
    · obtain ⟨success, -, sound, kind⟩ :=
        exec_faultless cautious (program rule) ended holds safe ok none
      exact ⟨success, ⟨_, rfl, Sight.holds_any _⟩, sound, kind⟩

/-! ### The rules of the language -/

namespace Rule

/-- The rules that begin with a token of their own take it over unseen. The rest of a line is only
passed over when there is a fault, and a name is an atom by itself. -/
def precaution : Precaution Rule where
  needs
    | ifStatement => some [.ifKw, .elifKw]
    | forStatement => some [.forKw]
    | whileStatement => some [.whileKw]
    | functionDef => some [.defKw]
    | importFrom => some [.fromKw]
    | lambda => some [.lambdaKw]
    | yieldExpr => some [.yieldKw]
    | callArguments | parenthesized => some [.leftParen]
    | listDisplay => some [.leftBracket]
    | braceDisplay => some [.leftBrace]
    | sliceRest => some [.colon]
    | restOfLine => some []
    | _ => none
  single rule kind := rule == atom && kind == .name

theorem precaution_checks (rule : Rule) : precaution.checks program rule = true := by
  cases rule with
  | elements close => cases close <;> decide +kernel
  | parameterList inDef | parameterTail inDef => cases inDef <;> decide +kernel
  | aliases dotted => cases dotted <;> decide +kernel
  | binary level | binaryTail level => cases level <;> decide +kernel
  | _ => decide +kernel

theorem runRule_atom_name (bound : Nat) (name : s.current.kind = .name) :
    runRule program (bound + 1) atom s
      = some (true, (s.enter .ident []).advance.leave s s.built) := by
  have sees : s.sees ⟨[.name], none⟩ = true := by simp [State.sees, name]
  change (if s.sees ⟨[.name], none⟩ then _ else _) = _
  rw [if_pos sees]
  rfl

theorem left_advance_enter (s : State) (kind : Kind) (built : List Mark) :
    (s.enter kind built).advance.left = s.advance.left := by
  obtain ⟨current, ahead, _, _, _⟩ := s
  cases ahead with
  | nil => rfl
  | cons next ahead =>
    by_cases last : current.kind = .eof <;> simp [State.advance, State.enter, State.left, last]

theorem cautious_program (bound : Nat) : Cautious precaution (runRule program bound) := by
  refine cautious_runRule precaution_checks (fun {bound rule s result} single ok => ?_) bound
  obtain ⟨atom_eq, name⟩ := Bool.and_eq_true_iff.1 single
  obtain rfl := beq_iff_eq.1 atom_eq
  cases bound with
  | zero => cases ok
  | succ bound =>
    rw [runRule_atom_name bound (beq_iff_eq.1 name)] at ok
    obtain rfl := Option.some.inj ok
    exact left_advance_enter s _ _

end Rule

/-- Where reading reports nothing, all marks fit the grammar. -/
theorem sound_read {tokens : List Token} (ended : Ended tokens)
    (none : (State.read tokens).faults = []) : Mark.Sound (State.read tokens).built := by
  obtain ⟨success, s, ok, rfl, -⟩ := Rule.exists_read ended
  have left := ended.left_ofTokens
  have asked : (⟨Rule.precaution.needs .moduleBody, Option.none⟩ : Sight).Holds (.ofTokens tokens) :=
    Sight.holds_any _
  have faultless := (Rule.cautious_program _).faultless (left.symm ▸ ended) asked ok none
  exact faultless.sound nofun

end Grammar

/-- A text that is read without a fault has no token that fits nowhere. -/
theorem isSound_of_faultless {text : String} {t : Token}
    (none : (Grammar.State.read (tokenize text)).faults = []) (mem : t ∈ tokenize text) :
    t.kind.isSound = true := by
  have sound := Grammar.sound_read (ended_tokenize text) none
  obtain ⟨-, _, -, rfl, kind, ahead⟩ := Grammar.Rule.exists_read (ended_tokenize text)
  rw [← tokensAll_read ahead, List.mem_append, List.mem_singleton] at mem
  rcases mem with mem | rfl
  · exact Mark.Sound.token (fun m mem => sound m (List.mem_reverse.1 mem)) mem
  · rw [kind]
    rfl

end SureCode
