import Mathlib
import SureCode.Proofs.Conservation
import SureCode.Proofs.Grammar.Erasure

/-!
# Reading kinds of tokens

What the grammar makes of a list of kinds, one rule for each kind of program (`Does`) and no bound
on the depth of calls. A place is written by the kinds that it faces (`State.facing`): reading looks
at nothing else of a token. What is read this way is what the bounded run reads (`read_of_runs`).
-/

namespace SureCode

/-- A token of a kind as a mark, without a place in a text. -/
def Mark.of (kind : Kind) : Mark := .token (.empty kind 0)

namespace Grammar

open Program Rule

/-! ### Runs without a bound -/

section Bounds

variable {ρ : Type} {run run' : ρ → State → Option (Bool × State)} {program : ρ → Program ρ}
  {rule : ρ} {s : State} {result : Bool × State}

/-- More results of rules give more results of programs. -/
theorem exec_mono (more : ∀ rule s result, run rule s = some result → run' rule s = some result)
    (p : Program ρ) (ok : exec run p s = some result) : exec run' p s = some result := by
  induction p generalizing s result with
  | done | fail | advance | expect kind what | report fault | become kind => exact ok
  | call rule =>
    obtain ⟨inner, ran, rfl⟩ := Option.map_eq_some_iff.1 ok
    exact Option.map_eq_some_iff.2 ⟨inner, more rule s inner ran, rfl⟩
  | require rule => exact more rule s result ok
  | mark kind body ih | wrap kind body ih =>
    obtain ⟨inner, ran, rfl⟩ := Option.map_eq_some_iff.1 ok
    exact Option.map_eq_some_iff.2 ⟨inner, ih ran, rfl⟩
  | branch test yes no yes_ih no_ih =>
    refine exec_branch_eq_some_iff.2 ?_
    rcases exec_branch_eq_some_iff.1 ok with ⟨sees, ok⟩ | ⟨unseen, ok⟩
    · exact .inl ⟨sees, yes_ih ok⟩
    · exact .inr ⟨unseen, no_ih ok⟩
  | seq first second first_ih second_ih =>
    refine exec_seq_eq_some_iff.2 ?_
    rcases exec_seq_eq_some_iff.1 ok with ⟨middle, ran, ok⟩ | ⟨failed, ok⟩
    · exact .inl ⟨middle, first_ih ran, second_ih ok⟩
    · exact .inr ⟨failed, first_ih ok⟩

theorem runRule_mono {bound bound' : Nat} (le : bound ≤ bound')
    (ok : runRule program bound rule s = some result) :
    runRule program bound' rule s = some result := by
  induction bound generalizing bound' rule s result with
  | zero => cases ok
  | succ bound ih =>
    obtain ⟨bound', rfl⟩ := Nat.exists_eq_add_of_lt le
    exact exec_mono (fun _ _ _ => ih (by omega)) (program rule) ok

end Bounds

variable {p q : Program Rule} {rule : Rule} {s t u : State} {kinds ks : List Kind}
  {kind kind' kind'' k k' : Kind} {built inner : List Mark} {m : Mark}

/-- With some bound on the depth of calls, a rule succeeds. -/
def Runs (rule : Rule) (s t : State) : Prop :=
  ∃ bound, runRule Rule.program bound rule s = some (true, t)

/-- With some bound on the depth of calls, a program succeeds. -/
def Does (p : Program Rule) (s t : State) : Prop :=
  ∃ bound, exec (runRule Rule.program bound) p s = some (true, t)

theorem Runs.intro (does : Does rule.program s t) : Runs rule s t := by
  obtain ⟨bound, ok⟩ := does
  exact ⟨bound + 1, ok⟩

namespace Does

theorem done (s : State) : Does .done s s := ⟨0, rfl⟩

theorem call (runs : Runs rule s t) : Does (.call rule) s t := by
  obtain ⟨bound, ok⟩ := runs
  exact ⟨bound, by rw [exec, ok]; rfl⟩

theorem require (runs : Runs rule s t) : Does (.require rule) s t := runs

theorem seq (first : Does p s t) (second : Does q t u) : Does (p ++ q) s u := by
  obtain ⟨bound, first⟩ := first
  obtain ⟨bound', second⟩ := second
  refine ⟨max bound bound', ?_⟩
  change exec _ (.seq p q) s = _
  rw [exec, exec_mono (fun _ _ _ => runRule_mono (Nat.le_max_left bound bound')) p first]
  exact exec_mono (fun _ _ _ => runRule_mono (Nat.le_max_right bound bound')) q second

end Does

/-! ### Places by kinds -/

/-- A place before tokens of some kinds. -/
def State.facing (kinds : List Kind) (kind : Kind) (built : List Mark) : State :=
  { State.ofTokens (kinds.map (Token.empty · 0)) with kind, built }

theorem State.sees_facing (test : Lookahead) :
    (facing (k :: ks) kind built).sees test
      = (test.first.contains k && match test.second with
        | none => true
        | some kinds => kinds.contains (ks.headD .eof)) := by
  cases ks <;> rfl

namespace Does

open State

/-- A token is taken over. -/
theorem take (unended : k ≠ .eof) (more : ks ≠ []) :
    Does .advance (facing (k :: ks) kind built) (facing ks kind (.of k :: built)) := by
  obtain ⟨k', ks, rfl⟩ := List.exists_cons_of_ne_nil more
  refine ⟨0, ?_⟩
  rw [exec, State.advance]
  exact congrArg (some ∘ Prod.mk true) (if_neg unended)

theorem expect (unended : k ≠ .eof) (more : ks ≠ []) (what : Expected) :
    Does (.expect k what) (facing (k :: ks) kind built) (facing ks kind (.of k :: built)) := by
  obtain ⟨bound, ok⟩ : Does .advance (facing (k :: ks) kind built) _ := take unended more
  refine ⟨bound, Eq.trans ?_ ok⟩
  rw [exec, exec]
  exact congrArg (some ∘ Prod.mk true) (if_pos rfl)

theorem become (kind' : Kind) :
    Does (.become kind') (facing ks kind built) (facing ks kind' built) := ⟨0, rfl⟩

/-- What a program takes over becomes a construct. -/
theorem mark (inside : Does p (facing ks kind' []) (facing kinds kind'' inner)) :
    Does (.mark kind' p) (facing ks kind built)
      (facing kinds kind (.construct kind'' inner.reverse :: built)) := by
  obtain ⟨bound, ok⟩ := inside
  refine ⟨bound, ?_⟩
  change (exec _ p (facing ks kind' [])).map _ = _
  rw [ok]
  rfl

/-- The last mark and what a program takes over become a construct. -/
theorem wrap (inside : Does p (facing ks kind' [m]) (facing kinds kind'' inner)) :
    Does (.wrap kind' p) (facing ks kind (m :: built))
      (facing kinds kind (.construct kind'' inner.reverse :: built)) := by
  obtain ⟨bound, ok⟩ := inside
  refine ⟨bound, ?_⟩
  change (exec _ p (facing ks kind' [m])).map _ = _
  rw [ok]
  rfl

theorem yes (mem : kinds.contains k = true) (does : Does p (facing (k :: ks) kind built) t) :
    Does (.branch ⟨kinds, none⟩ p q) (facing (k :: ks) kind built) t := by
  obtain ⟨bound, ok⟩ := does
  refine ⟨bound, ?_⟩
  rw [exec, if_pos, ok]
  rw [sees_facing, mem]
  rfl

theorem no (notMem : kinds.contains k = false) (does : Does q (facing (k :: ks) kind built) t) :
    Does (.branch ⟨kinds, none⟩ p q) (facing (k :: ks) kind built) t := by
  obtain ⟨bound, ok⟩ := does
  refine ⟨bound, ?_⟩
  rw [exec, if_neg, ok]
  rw [sees_facing, notMem]
  exact Bool.false_ne_true

/-- The first of several programs whose kinds the next token is among. -/
theorem choose {cases_ : List (List Kind × Program Rule)}
    (does : Does ((cases_.find? (·.1.contains k)).elim p (·.2)) (facing (k :: ks) kind built) t) :
    Does (Rule.choose cases_ p) (facing (k :: ks) kind built) t := by
  induction cases_ with
  | nil => exact does
  | cons entry cases_ ih =>
    rw [List.find?_cons] at does
    cases mem : entry.1.contains k with
    | true =>
      rw [mem] at does
      exact yes mem does
    | false =>
      rw [mem] at does
      exact no mem (ih does)

/-- A test of the next two tokens. -/
theorem branch {test : Lookahead} {b : Bool}
    (sees : (facing ks kind built).sees test = b)
    (does : Does (if b then p else q) (facing ks kind built) t) :
    Does (.branch test p q) (facing ks kind built) t := by
  obtain ⟨bound, ok⟩ := does
  refine ⟨bound, ?_⟩
  rw [exec, sees]
  cases b <;> exact ok

/-- Nothing is taken over where nothing of the kind follows. -/
theorem skip (notMem : kinds.contains k = false) :
    Does (Rule.when kinds p) (facing (k :: ks) kind built) (facing (k :: ks) kind built) :=
  no notMem (done _)

end Does

/-! ### Whole texts -/

/-- What some bound is enough for is what the bound on a text gives. -/
theorem read_of_runs {tokens : List Token} (ended : Ended tokens)
    (runs : Runs .moduleBody (.ofTokens tokens) t) : State.read tokens = t := by
  obtain ⟨success, s, ok, rfl, -⟩ := Rule.exists_read ended
  obtain ⟨bound, ran⟩ := runs
  have whole := runRule_mono (Nat.le_max_left (callBound tokens) bound) ok
  have found := runRule_mono (Nat.le_max_right (callBound tokens) bound) ran
  exact congrArg Prod.snd (Option.some.inj (whole.symm.trans found))

end Grammar

end SureCode
