import Mathlib

/-!
# Computations that may fail

How a computation of several steps came to its result: it has a value when all its steps have one,
and its failure is the failure of its first step that fails. Where a step may find several faults,
they are listed in the order of the checks, and the first one of all is the failure (`FailsFirst`).
-/

namespace SureCode

variable {ε ε' α β : Type}

theorem bind_eq_ok_iff {x : Except ε α} {f : α → Except ε β} {b : β} :
    x >>= f = .ok b ↔ ∃ a, x = .ok a ∧ f a = .ok b := by
  cases x with
  | error e => simp [bind, Except.bind]
  | ok a => simp [bind, Except.bind]

theorem bind_eq_error_iff {x : Except ε α} {f : α → Except ε β} {e : ε} :
    x >>= f = .error e ↔ x = .error e ∨ ∃ a, x = .ok a ∧ f a = .error e := by
  cases x with
  | error e' => simp [bind, Except.bind]
  | ok a => simp [bind, Except.bind]

theorem mapError_eq_ok_iff {f : ε → ε'} {x : Except ε α} {a : α} :
    x.mapError f = .ok a ↔ x = .ok a := by
  cases x <;> simp [Except.mapError]

theorem mapError_eq_error_iff {f : ε → ε'} {x : Except ε α} {e : ε'} :
    x.mapError f = .error e ↔ ∃ e', x = .error e' ∧ f e' = e := by
  cases x <;> simp [Except.mapError]

theorem map_eq_ok_iff {f : α → β} {x : Except ε α} {b : β} :
    x.map f = .ok b ↔ ∃ a, x = .ok a ∧ f a = b := by
  cases x <;> simp [Except.map]

/-- A walk that fails has failed at one of its steps. -/
theorem mapM_eq_error {f : α → Except ε β} {e : ε} {as : List α} (failed : as.mapM f = .error e) :
    ∃ a ∈ as, f a = .error e := by
  induction as with
  | nil => simp [pure, Except.pure] at failed
  | cons a as ih =>
    rw [List.mapM_cons, bind_eq_error_iff] at failed
    obtain here | ⟨b, -, later⟩ := failed
    · exact ⟨a, List.mem_cons_self, here⟩
    · obtain later | ⟨bs, -, later⟩ := bind_eq_error_iff.1 later
      · obtain ⟨a', mem, eq⟩ := ih later
        exact ⟨a', List.mem_cons_of_mem _ mem, eq⟩
      · cases later

/-- A walk of which no step fails. -/
theorem mapM_eq_ok_map {f : α → Except ε β} {g : α → β} {as : List α}
    (step : ∀ a ∈ as, f a = .ok (g a)) : as.mapM f = .ok (as.map g) := by
  induction as with
  | nil => rfl
  | cons a as ih =>
    obtain ⟨here, later⟩ := List.forall_mem_cons.1 step
    rw [List.mapM_cons, here, ih later]
    rfl

/-- A walk whose steps all come to something comes to all of it. -/
theorem exists_mapM_eq_ok {f : α → Except ε β} {r : α → β → Prop} {as : List α}
    (step : ∀ a ∈ as, ∃ b, f a = .ok b ∧ r a b) :
    ∃ bs, as.mapM f = .ok bs ∧ List.Forall₂ r as bs := by
  induction as with
  | nil => exact ⟨[], rfl, .nil⟩
  | cons a as ih =>
    obtain ⟨⟨b, here, holds⟩, later⟩ := List.forall_mem_cons.1 step
    obtain ⟨bs, rest, all⟩ := ih later
    refine ⟨b :: bs, ?_, .cons holds all⟩
    rw [List.mapM_cons, here, rest]
    rfl

/-- A walk comes to just what its steps come to. -/
theorem forall₂_of_mapM_eq_ok {f : α → Except ε β} {as : List α} {bs : List β}
    (ok : as.mapM f = .ok bs) : List.Forall₂ (fun a b => f a = .ok b) as bs := by
  induction as generalizing bs with
  | nil =>
    obtain rfl : [] = bs := Except.ok.inj ok
    exact .nil
  | cons a as ih =>
    rw [List.mapM_cons] at ok
    obtain ⟨b, here, later⟩ := bind_eq_ok_iff.1 ok
    obtain ⟨bs, rest, eq⟩ := bind_eq_ok_iff.1 later
    obtain rfl : b :: bs = _ := Except.ok.inj eq
    exact .cons here (ih rest)

/-! ### First faults -/

/-- The computation fails with the first of some faults, and comes to something if there are none. -/
def FailsFirst (x : Except ε α) (faults : List ε) : Prop :=
  ∀ e, x = .error e ↔ faults.head? = some e

namespace FailsFirst

variable {x : Except ε α} {faults : List ε}

theorem ok (a : α) : FailsFirst (.ok a : Except ε α) [] := by
  intro e
  simp

theorem error (e : ε) (faults : List ε) : FailsFirst (.error e : Except ε α) (e :: faults) := by
  intro e'
  simp

theorem exists_error_iff (first : FailsFirst x faults) : (∃ e, x = .error e) ↔ faults ≠ [] := by
  simp only [first _]
  cases faults <;> simp

/-- The faults of a first step come before those of the steps behind it. -/
theorem bind {f : α → Except ε β} {later : List ε} (first : FailsFirst x faults)
    (rest : ∀ a, x = .ok a → FailsFirst (f a) later) :
    FailsFirst (x >>= f) (faults ++ later) := by
  cases x with
  | error e =>
    obtain ⟨faults, rfl⟩ := List.head?_eq_some_iff.1 ((first e).1 rfl)
    exact error e (faults ++ later)
  | ok a =>
    obtain rfl : faults = [] := by
      by_contra faulty
      obtain ⟨e, failed⟩ := first.exists_error_iff.2 faulty
      cases failed
    exact rest a rfl

/-- Whatever is made of the result at last does not fail. -/
theorem map (f : α → β) (first : FailsFirst x faults) :
    FailsFirst (x >>= fun a => .ok (f a)) faults := by
  have := first.bind (f := fun a => .ok (f a)) fun a _ => ok (f a)
  rwa [List.append_nil] at this

/-- A walk has the faults of its steps, one step after the other. -/
theorem mapM {f : α → Except ε β} {faults : α → List ε} {as : List α}
    (step : ∀ a ∈ as, FailsFirst (f a) (faults a)) : FailsFirst (as.mapM f) (as.flatMap faults) := by
  induction as with
  | nil => exact ok []
  | cons a as ih =>
    obtain ⟨here, later⟩ := List.forall_mem_cons.1 step
    rw [List.mapM_cons, List.flatMap_cons]
    exact here.bind fun b _ => (ih later).map (b :: ·)

end FailsFirst

end SureCode
