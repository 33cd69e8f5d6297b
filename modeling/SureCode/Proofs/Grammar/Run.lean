import Mathlib
import SureCode.Parse

/-!
# Runs of grammar programs

What holds of every step of the interpreter and passes from the inside of a construct to its outside
holds of every run (`Stable.exec`, `Stable.runRule`). A run keeps all tokens in their order, goes
forward in them, and reports its faults at tokens that it has come to (`Onward`).
-/

namespace SureCode

/-! ### Tokens and constructs of marks -/

namespace Mark

theorem tokensAll_append (ms ns : List Mark) :
    tokensAll (ms ++ ns) = tokensAll ms ++ tokensAll ns := by
  induction ms with
  | nil => simp [tokensAll]
  | cons m ms ih => simp [tokensAll, ih]

theorem tokensAll_token (t : Token) : tokensAll [.token t] = [t] := by
  simp [tokensAll, tokens]

theorem tokensAll_construct (kind : Kind) (parts : List Mark) :
    tokensAll [.construct kind parts] = tokensAll parts := by
  simp [tokensAll, tokens]

mutual

/-- The kinds of the constructs of a mark. -/
def constructs : Mark → List Kind
  | token _ => []
  | construct kind parts => kind :: constructsAll parts

/-- The kinds of the constructs of some marks. -/
def constructsAll : List Mark → List Kind
  | [] => []
  | m :: ms => constructs m ++ constructsAll ms

end

theorem constructsAll_eq_flatMap (ms : List Mark) : constructsAll ms = ms.flatMap constructs := by
  induction ms with
  | nil => rw [constructsAll, List.flatMap_nil]
  | cons m ms ih => rw [constructsAll, ih, List.flatMap_cons]

theorem constructsAll_append (ms ns : List Mark) :
    constructsAll (ms ++ ns) = constructsAll ms ++ constructsAll ns := by
  simp [constructsAll_eq_flatMap]

theorem constructsAll_construct (kind : Kind) (parts : List Mark) :
    constructsAll [.construct kind parts] = kind :: constructsAll parts := by
  simp [constructsAll, constructs]

/-- All constructs of some marks are of certain kinds. -/
def Named (kinds : Kind → Prop) (ms : List Mark) : Prop := ∀ kind ∈ constructsAll ms, kinds kind

variable {kinds : Kind → Prop} {kind : Kind} {parts ms ns : List Mark}

theorem named_iff : Named kinds ms ↔ ∀ m ∈ ms, ∀ kind ∈ constructs m, kinds kind := by
  rw [Named, constructsAll_eq_flatMap]
  simp only [List.mem_flatMap, forall_exists_index, and_imp]
  exact ⟨fun all m mem kind within => all kind m mem within,
    fun all kind m mem within => all m mem kind within⟩

theorem named_append : Named kinds (ms ++ ns) ↔ Named kinds ms ∧ Named kinds ns := by
  rw [Named, constructsAll_append]
  exact List.forall_mem_append

theorem named_construct : Named kinds [.construct kind parts] ↔ kinds kind ∧ Named kinds parts := by
  rw [Named, constructsAll_construct]
  exact List.forall_mem_cons

theorem Named.subset (named : Named kinds ms) (subset : ns ⊆ ms) : Named kinds ns :=
  named_iff.2 fun m mem => named_iff.1 named m (subset mem)

theorem Named.token (named : Named kinds ms) (t : Token) : Named kinds (.token t :: ms) := named

theorem Named.construct (own : kinds kind) (inside : Named kinds parts) (rest : Named kinds ms) :
    Named kinds (.construct kind parts.reverse :: ms) := by
  refine List.forall_mem_append.2 ⟨List.forall_mem_cons.2 ⟨own, ?_⟩, rest⟩
  exact inside.subset (List.reverse_subset.2 (List.Subset.refl parts))

end Mark

namespace Grammar

variable {ρ : Type} {run : ρ → State → Option (Bool × State)} {program : ρ → Program ρ}
  {R : State → State → Prop} {s t u : State}

/-! ### Results of programs -/

section Results

variable {test : Lookahead} {first second yes no : Program ρ} {result : Bool × State}

/-- A branch comes to what the program comes to that its test leads to. -/
theorem exec_branch_eq_some_iff :
    exec run (.branch test yes no) s = some result ↔
      s.sees test = true ∧ exec run yes s = some result ∨
        ¬ s.sees test = true ∧ exec run no s = some result := by
  rw [exec]
  by_cases sees : s.sees test = true
  · simp [sees]
  · simp [sees]

/-- One program after another comes to what the second comes to where the first has succeeded. A
failure is that of the first one if the second is not run. -/
theorem exec_seq_eq_some_iff :
    exec run (.seq first second) s = some result ↔
      (∃ middle, exec run first s = some (true, middle) ∧
        exec run second middle = some result) ∨
        result.1 = false ∧ exec run first s = some result := by
  rw [exec]
  rcases ran : exec run first s with _ | ⟨_ | _, middle⟩
  · simp
  · suffices some (false, middle) = some result ↔ result.1 = false ∧ (false, middle) = result by
      simpa
    rw [Option.some.injEq]
    exact ⟨fun eq => ⟨eq ▸ rfl, eq⟩, And.right⟩
  · suffices exec run second middle = some result ↔
        exec run second middle = some result ∨ result.1 = false ∧ (true, middle) = result by
      simpa
    exact ⟨.inl, fun either => either.resolve_right fun ⟨failed, eq⟩ => by simp [← eq] at failed⟩

end Results

/-! ### What every run does -/

/-- A relation between the place before a run and the place after it that the interpreter
respects. -/
structure Stable (R : State → State → Prop) : Prop where
  refl : ∀ s, R s s
  trans : ∀ {s t u}, R s t → R t u → R s u
  advance : ∀ s, R s s.advance
  report : ∀ fault s, R s (s.report fault)
  become : ∀ kind s, R s { s with kind }
  mark : ∀ {kind s t}, R (s.enter kind []) t → R s (t.leave s s.built)
  wrap : ∀ {kind s t}, R (s.enter kind (s.built.take 1)) t → R s (t.leave s (s.built.drop 1))

theorem Stable.exec (stable : Stable R)
    (runs : ∀ {rule s result}, run rule s = some result → R s result.2) (p : Program ρ) {s : State}
    {result : Bool × State} (ok : exec run p s = some result) : R s result.2 := by
  induction p generalizing s result with
  | done | fail =>
    obtain rfl := Option.some.inj ok
    exact stable.refl s
  | advance =>
    obtain rfl := Option.some.inj ok
    exact stable.advance s
  | expect kind what =>
    obtain rfl := Option.some.inj ok
    dsimp only
    split
    · exact stable.advance s
    · exact stable.report _ s
  | report fault =>
    obtain rfl := Option.some.inj ok
    exact stable.report fault s
  | call rule =>
    obtain ⟨inner, ran, rfl⟩ := Option.map_eq_some_iff.1 ok
    have inside := runs ran
    exact inside
  | require rule => exact runs ok
  | mark kind body ih =>
    obtain ⟨inner, ran, rfl⟩ := Option.map_eq_some_iff.1 ok
    exact stable.mark (ih ran)
  | wrap kind body ih =>
    obtain ⟨inner, ran, rfl⟩ := Option.map_eq_some_iff.1 ok
    exact stable.wrap (ih ran)
  | become kind =>
    obtain rfl := Option.some.inj ok
    exact stable.become kind s
  | branch test yes no yes_ih no_ih =>
    rcases exec_branch_eq_some_iff.1 ok with ⟨-, ok⟩ | ⟨-, ok⟩
    · exact yes_ih ok
    · exact no_ih ok
  | seq first second first_ih second_ih =>
    rcases exec_seq_eq_some_iff.1 ok with ⟨middle, ran, ok⟩ | ⟨-, ok⟩
    · exact stable.trans (first_ih ran) (second_ih ok)
    · exact first_ih ok

theorem Stable.runRule (stable : Stable R) (bound : Nat) {rule : ρ} {result : Bool × State}
    (ok : runRule program bound rule s = some result) : R s result.2 := by
  induction bound generalizing rule s result with
  | zero => cases ok
  | succ bound ih => exact stable.exec (fun ran => ih ran) (program rule) ok

/-! ### Tokens and faults -/

namespace State

/-- The tokens that have not been taken over. -/
def left (s : State) : List Token := s.current :: s.ahead

/-- Taking over a token, or staying at the end. -/
theorem advance_cases (s : State) :
    s.advance = s ∧ (s.ahead = [] ∨ s.current.kind = .eof) ∨
      s.current.kind ≠ .eof ∧ ∃ next ahead, s.ahead = next :: ahead ∧
        s.advance = { s with current := next, ahead, built := .token s.current :: s.built } := by
  unfold advance
  split
  · rename_i none
    exact .inl ⟨rfl, .inl none⟩
  · rename_i next ahead more
    split
    · rename_i ended
      exact .inl ⟨rfl, .inr ended⟩
    · rename_i going
      exact .inr ⟨going, next, ahead, more, rfl⟩

end State

/-- A run keeps all tokens, goes forward in them and reports faults at those it has come to. -/
structure Onward (s t : State) : Prop where
  tokens : Mark.tokensAll t.built.reverse ++ t.left = Mark.tokensAll s.built.reverse ++ s.left
  suffix : t.left <:+ s.left
  faults : ∃ new, t.faults = new ++ s.faults ∧ ∀ d ∈ new, ∃ token ∈ s.left, d.span = token.span

theorem Onward.refl (s : State) : Onward s s :=
  ⟨rfl, List.suffix_refl _, [], rfl, nofun⟩

theorem Onward.trans (first : Onward s t) (second : Onward t u) : Onward s u := by
  obtain ⟨new, faults, places⟩ := first.faults
  obtain ⟨more, faults', places'⟩ := second.faults
  refine ⟨second.tokens.trans first.tokens, second.suffix.trans first.suffix, more ++ new,
    by rw [faults', faults, List.append_assoc], fun d mem => ?_⟩
  rcases List.mem_append.1 mem with mem | mem
  · obtain ⟨token, here, eq⟩ := places' d mem
    exact ⟨token, first.suffix.subset here, eq⟩
  · exact places d mem

theorem stable_onward : Stable Onward where
  refl := .refl
  trans := .trans
  advance s := by
    rcases s.advance_cases with ⟨eq, -⟩ | ⟨-, next, ahead, more, eq⟩
    · rw [eq]
      exact .refl s
    · rw [eq]
      refine ⟨?_, ?_, [], rfl, nofun⟩
      · simp [State.left, more, Mark.tokensAll_append, Mark.tokensAll_token]
      · simp [State.left, more]
  report fault s :=
    ⟨rfl, List.suffix_refl _, [⟨fault, s.current.span⟩], rfl, fun d mem =>
      ⟨s.current, List.mem_cons_self, by rw [List.mem_singleton.1 mem]⟩⟩
  become _ s := ⟨rfl, List.suffix_refl _, [], rfl, nofun⟩
  mark {kind s t} inner := by
    refine ⟨?_, inner.suffix, inner.faults⟩
    have tokens := inner.tokens
    simp only [State.enter, List.reverse_nil, Mark.tokensAll, List.nil_append] at tokens
    rw [State.leave, List.reverse_cons, Mark.tokensAll_append, Mark.tokensAll_construct,
      List.append_assoc]
    exact congrArg _ tokens
  wrap {kind s t} inner := by
    refine ⟨?_, inner.suffix, inner.faults⟩
    have tokens := inner.tokens
    simp only [State.enter] at tokens
    have split : s.built.reverse = (s.built.drop 1).reverse ++ (s.built.take 1).reverse := by
      rw [← List.reverse_append, List.take_append_drop]
    rw [State.leave, List.reverse_cons, Mark.tokensAll_append, Mark.tokensAll_construct,
      List.append_assoc, split, Mark.tokensAll_append, List.append_assoc]
    exact congrArg _ tokens

/-- What reading a text does. -/
theorem onward_read (tokens : List Token) : Onward (.ofTokens tokens) (.read tokens) := by
  unfold State.read
  split
  · rename_i ok
    exact stable_onward.runRule _ ok
  · exact .refl _

end Grammar

end SureCode
