import Mathlib
import SureCode.Proofs.Grammar.Run

/-!
# Reading looks at kinds only

A run asks a token for nothing but its kind. Where all spans are struck out of the tokens, a run does
the same, with the spans struck out of the marks and faults that it leaves (`runRule_erased`). So
texts whose tokens have the same kinds are read alike (`erased_read`).
-/

namespace SureCode

/-- A token without its span. -/
def Token.erased (t : Token) : Token := .empty t.kind 0

@[simp] theorem Token.kind_erased (t : Token) : t.erased.kind = t.kind := rfl

/-- A fault without its place. -/
def Diagnostic.erased (d : Diagnostic) : Diagnostic := ⟨d.fault, .empty 0⟩

namespace Mark

mutual

/-- A mark with other tokens. -/
def map (f : Token → Token) : Mark → Mark
  | token t => .token (f t)
  | construct kind parts => .construct kind (mapAll f parts)

/-- Marks with other tokens. -/
def mapAll (f : Token → Token) : List Mark → List Mark
  | [] => []
  | m :: ms => map f m :: mapAll f ms

end

theorem mapAll_eq_map (f : Token → Token) (ms : List Mark) : mapAll f ms = ms.map (map f) := by
  induction ms with
  | nil => rfl
  | cons m ms ih => rw [mapAll, List.map_cons, ih]

@[simp] theorem map_token (f : Token → Token) (t : Token) : map f (.token t) = .token (f t) := by
  rw [map]

@[simp] theorem map_construct (f : Token → Token) (kind : Kind) (parts : List Mark) :
    map f (.construct kind parts) = .construct kind (parts.map (map f)) := by
  rw [map, mapAll_eq_map]

mutual

theorem tokens_map (f : Token → Token) (m : Mark) : tokens (map f m) = (tokens m).map f := by
  match m with
  | .token t => rw [map_token, tokens, tokens, List.map_singleton]
  | .construct kind parts => rw [map_construct, tokens, tokens, tokensAll_map f parts]

theorem tokensAll_map (f : Token → Token) (ms : List Mark) :
    tokensAll (ms.map (map f)) = (tokensAll ms).map f := by
  match ms with
  | [] => rfl
  | m :: ms =>
    rw [List.map_cons, tokensAll, tokensAll, tokens_map f m, tokensAll_map f ms, List.map_append]

end

/-- A mark with the spans of its tokens struck out. -/
def erased : Mark → Mark := map Token.erased

@[simp] theorem erased_token (t : Token) : erased (.token t) = .token t.erased := map_token _ t

@[simp] theorem erased_construct (kind : Kind) (parts : List Mark) :
    erased (.construct kind parts) = .construct kind (parts.map erased) := map_construct _ kind parts

end Mark

namespace Grammar

variable {ρ : Type} {run : ρ → State → Option (Bool × State)} {program : ρ → Program ρ}

namespace State

/-- A place with the spans of all tokens and faults struck out. -/
def erased (s : State) : State where
  current := s.current.erased
  ahead := s.ahead.map Token.erased
  kind := s.kind
  built := s.built.map Mark.erased
  faults := s.faults.map Diagnostic.erased

theorem sees_erased (s : State) (test : Lookahead) : s.erased.sees test = s.sees test := by
  have second : (s.ahead.map Token.erased).head?.map (·.kind) = s.ahead.head?.map (·.kind) := by
    cases s.ahead <;> rfl
  unfold sees
  rw [erased, second]
  rfl

theorem advance_erased (s : State) : s.erased.advance = s.advance.erased := by
  obtain ⟨current, ahead, kind, built, faults⟩ := s
  cases ahead with
  | nil => rfl
  | cons next ahead =>
    by_cases ended : current.kind = .eof <;> simp [advance, erased, ended]

theorem report_erased (fault : Fault) (s : State) :
    s.erased.report fault = (s.report fault).erased := rfl

theorem leave_erased (s outer : State) (before : List Mark) :
    s.erased.leave outer.erased (before.map Mark.erased) = (s.leave outer before).erased := by
  simp [leave, erased]

end State

/-- A result with the spans struck out of its state. -/
def erasedResult (result : Bool × State) : Bool × State := (result.1, result.2.erased)

theorem exec_erased
    (runs : ∀ rule s, run rule s.erased = (run rule s).map erasedResult)
    (p : Program ρ) (s : State) : exec run p s.erased = (exec run p s).map erasedResult := by
  induction p generalizing s with
  | done | fail | report fault | become kind => rfl
  | advance => simp [exec, erasedResult, State.advance_erased]
  | expect kind what =>
    have same : s.erased.current.kind = s.current.kind := rfl
    rw [exec, exec, Option.map_some, erasedResult, same]
    split
    · rw [State.advance_erased]
    · rw [State.report_erased]
  | call rule =>
    rw [exec, exec, runs, Option.map_map, Option.map_map]
    rfl
  | require rule => exact runs rule s
  | mark kind body ih =>
    have inside := ih (s.enter kind [])
    change exec run body (s.erased.enter kind []) = _ at inside
    rw [exec, exec, inside, Option.map_map, Option.map_map]
    exact congrArg (Option.map · _) (funext fun result =>
      congrArg (Prod.mk true) (State.leave_erased result.2 s s.built))
  | wrap kind body ih =>
    have inside := ih (s.enter kind (s.built.take 1))
    have begun : (s.enter kind (s.built.take 1)).erased
        = s.erased.enter kind (s.erased.built.take 1) := by
      simp [State.enter, State.erased, List.map_take]
    rw [begun] at inside
    rw [exec, exec, inside, Option.map_map, Option.map_map]
    refine congrArg (Option.map · _) (funext fun result => congrArg (Prod.mk true) ?_)
    refine Eq.trans ?_ (State.leave_erased result.2 s (s.built.drop 1))
    simp [erasedResult, State.erased]
  | branch test yes no yes_ih no_ih =>
    rw [exec, exec, State.sees_erased]
    split
    · exact yes_ih s
    · exact no_ih s
  | seq first second first_ih second_ih =>
    rw [exec, exec, first_ih]
    cases ran : exec run first s with
    | none => rfl
    | some result =>
      obtain ⟨success, t⟩ := result
      cases success with
      | true => exact second_ih t
      | false => rfl

/-- A run on tokens without spans is the run without spans. -/
theorem runRule_erased (bound : Nat) (rule : ρ) (s : State) :
    runRule program bound rule s.erased = (runRule program bound rule s).map erasedResult := by
  induction bound generalizing rule s with
  | zero => rfl
  | succ bound ih => exact exec_erased ih (program rule) s

theorem erased_ofTokens (tokens : List Token) :
    (State.ofTokens tokens).erased = .ofTokens (tokens.map Token.erased) := by
  cases tokens <;> rfl

/-- Reading a text without spans. -/
theorem erased_read (tokens : List Token) :
    (State.read tokens).erased = .read (tokens.map Token.erased) := by
  have same : callBound (tokens.map Token.erased) = callBound tokens := by simp [callBound]
  unfold State.read
  rw [same, ← erased_ofTokens, runRule_erased]
  cases ran : runRule Rule.program (callBound tokens) .moduleBody (.ofTokens tokens) <;> rfl

end Grammar

end SureCode
