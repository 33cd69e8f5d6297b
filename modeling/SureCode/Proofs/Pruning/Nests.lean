import Mathlib
import SureCode.Proofs.Pruning.Expansion

/-!
# Nested solutions

The levels that the search finds are those of solutions of all budgets, each within the next looser
one (`Nest`): solutions without a conflict are nested (`Solutions.nest`), and growing from the
tightest budget nests them by deciding what the tighter one keeps (`nest_of_growFrom?`). So the best
levels seen so far are always those of nested solutions (`sound_visit`), and a run that ends answers
with such levels (`grounded_of_run`). This holds wherever costs are lawful; what the solutions cost
plays no part in it.
-/

namespace SureCode

open SureCode.Tree

/-! ### Solutions of one budget -/

namespace Knapsack

variable {κ : Type} [Scalar κ] {k : Knapsack κ} {budget : κ} {selection : Selection}

/-- A selection solves a budget after decisions that keep an item only with its parent. -/
def IsSolution (k : Knapsack κ) (budget : κ) (selection : Selection) : Prop :=
  ∃ status : Nat → Status, ClosedOn (fun i => status i == .kept) k.numbered ∧
    k.solve? status budget = some selection

theorem IsSolution.lt (solution : k.IsSolution budget selection) {i : Nat}
    (keep : selection.keeps i = true) : i < k.size := by
  obtain ⟨status, -, eq⟩ := solution
  exact lt_of_solve? eq keep

theorem IsSolution.permits [LawfulCosts κ] (itemized : Itemized 0 k.forest)
    (solution : k.IsSolution budget selection) : k.Permits selection.keeps := by
  obtain ⟨status, -, eq⟩ := solution
  exact solve?_permits itemized eq

end Knapsack

namespace Search

variable {κ : Type} [Scalar κ] {k : Knapsack κ} {budgets : List κ} {s : Search κ}
  {fixed : List Decisions} {selections : List Selection} {p p' : Progress}

/-! ### Nests -/

/-- Solutions of all budgets, each within the next looser one. -/
structure Nest (k : Knapsack κ) (budgets : List κ) (selections : List Selection) : Prop where
  length_eq : selections.length = budgets.length
  solution : ∀ {place : Nat} {budget selection}, budgets[place]? = some budget →
    selections[place]? = some selection → k.IsSolution budget selection
  nested : ∀ {place : Nat} {looser tighter}, selections[place]? = some looser →
    selections[place + 1]? = some tighter → ∀ i, tighter.keeps i = true → looser.keeps i = true

theorem lt_length_takeWhile {α : Type} {p : α → Bool} {l : List α} {place : Nat} :
    place < (l.takeWhile p).length ↔ ∀ j ≤ place, ∃ a, l[j]? = some a ∧ p a = true := by
  induction l generalizing place with
  | nil => simpa using ⟨0, Nat.zero_le place⟩
  | cons a l ih =>
    cases keep : p a with
    | false =>
      simp only [List.takeWhile_cons, keep, Bool.false_eq_true, if_false, List.length_nil,
        Nat.not_lt_zero, false_iff, not_forall]
      exact ⟨0, Nat.zero_le place, by simp [keep]⟩
    | true =>
      simp only [List.takeWhile_cons, keep, if_true, List.length_cons]
      cases place with
      | zero => simp [keep]
      | succ place =>
        rw [Nat.add_lt_add_iff_right, ih]
        constructor
        · intro all j le
          cases j with
          | zero => exact ⟨a, rfl, keep⟩
          | succ j => exact all j (by omega)
        · exact fun all j le => all (j + 1) (by omega)

namespace Nest

theorem nil : Nest k [] [] := ⟨rfl, by simp, by simp⟩

theorem exists_selection {place : Nat} (nest : Nest k budgets selections)
    (lt : place < budgets.length) : ∃ selection, selections[place]? = some selection :=
  ⟨_, List.getElem?_eq_getElem (nest.length_eq.symm ▸ lt)⟩

/-- A selection keeps what any tighter one keeps. -/
theorem keeps_looser {place distance i : Nat} {looser tighter : Selection}
    (nest : Nest k budgets selections) (at_looser : selections[place]? = some looser)
    (at_tighter : selections[place + distance]? = some tighter) (keep : tighter.keeps i = true) :
    looser.keeps i = true := by
  induction distance generalizing tighter with
  | zero =>
    obtain rfl := Option.some.inj (at_looser.symm.trans at_tighter)
    exact keep
  | succ distance ih =>
    have lt : place + distance < selections.length := by
      have := (List.getElem?_eq_some_iff.1 at_tighter).1
      omega
    have between := List.getElem?_eq_getElem lt
    exact ih between (nest.nested between at_tighter i keep)

/-- The levels of nested selections keep under each budget what its selection keeps. -/
theorem keeps_ofSelections {place : Nat} {selection : Selection} (nest : Nest k budgets selections)
    (at_place : selections[place]? = some selection) :
    (Levels.ofSelections k.size selections).keeps place = selection.keeps := by
  have place_lt : place < budgets.length := by
    have := (List.getElem?_eq_some_iff.1 at_place).1
    rwa [nest.length_eq] at this
  have solution := nest.solution (List.getElem?_eq_getElem place_lt) at_place
  funext i
  rw [Bool.eq_iff_iff, Levels.keeps, Levels.ofSelections, SideTable.get?_ofFn, decide_eq_true_iff]
  by_cases inside : i < k.size
  · rw [if_pos inside, Option.getD_some, lt_length_takeWhile]
    constructor
    · intro all
      obtain ⟨a, at_place', keep⟩ := all place le_rfl
      obtain rfl := Option.some.inj (at_place.symm.trans at_place')
      exact keep
    · intro keep j le
      obtain ⟨a, at_j⟩ := nest.exists_selection (lt_of_le_of_lt le place_lt)
      obtain ⟨distance, rfl⟩ := Nat.exists_eq_add_of_le le
      exact ⟨a, at_j, nest.keeps_looser at_j at_place keep⟩
  · rw [if_neg inside, Option.getD_none]
    exact ⟨fun absurd => by omega, fun keep => absurd (solution.lt keep) inside⟩

end Nest

/-- Solutions without a conflict are nested. -/
theorem Solutions.nest (indexed : s.Indexed) (coherent : s.Coherent fixed)
    (solutions : s.Solutions fixed selections)
    (clear : firstConflict? s.items selections = none) :
    Nest s.knapsack s.budgets selections := by
  have solution {place : Nat} {budget : κ} {selection : Selection}
      (at_budget : s.budgets[place]? = some budget)
      (at_place : selections[place]? = some selection) : s.knapsack.IsSolution budget selection := by
    obtain ⟨_, at_place', eq⟩ := solutions.solved at_budget
    obtain rfl := Option.some.inj (at_place.symm.trans at_place')
    exact ⟨_, coherent.closed indexed place, eq⟩
  refine ⟨solutions.length_eq, solution,
    fun {place looser tighter} at_looser at_tighter i keep => ?_⟩
  have lt : place + 1 < s.budgets.length :=
    solutions.length_eq ▸ (List.getElem?_eq_some_iff.1 at_tighter).1
  have inside := (solution (List.getElem?_eq_getElem lt) at_tighter).lt keep
  exact nested_of_firstConflict? clear at_looser at_tighter inside keep

/-! ### Growing -/

section Growing

theorem closedOn_or {α : Type} {kept kept' : Nat → Bool} {rows : List (Entry α × Nat)}
    (closed : ClosedOn kept rows) (closed' : ClosedOn kept' rows) :
    ClosedOn (fun i => kept i || kept' i) rows := by
  intro p mem keep
  have first := closed p mem
  have second := closed' p mem
  unfold Entry.parentKept at first second ⊢
  cases parent : p.1.ancestors.head? with
  | none => rfl
  | some a =>
    simp only [parent, Option.all_some, Bool.or_eq_true] at first second keep ⊢
    exact keep.imp first second

/-- What the selection under the next tighter budget keeps. -/
def forcedBy (tighter : List Selection) (item : Nat) : Bool :=
  (tighter.head?.map (·.keeps item)).getD false

/-- What is forced is a solution of the tighter budget. -/
theorem closedOn_forcedBy [LawfulCosts κ] (itemized : Itemized 0 k.forest)
    (nest : Nest k budgets selections) : ClosedOn (forcedBy selections) k.numbered := by
  cases selections with
  | nil => exact fun p mem keep => by simp [forcedBy] at keep
  | cons tighter rest =>
    have lt : 0 < budgets.length := by
      rw [← nest.length_eq]
      simp
    exact ((nest.solution (List.getElem?_eq_getElem lt) rfl).permits itemized).closed

/-- A solution that keeps what is forced goes before nested ones. -/
theorem Nest.cons {budget : κ} {selection : Selection} (nest : Nest k budgets selections)
    (solution : k.IsSolution budget selection)
    (forced : ∀ i < k.size, forcedBy selections i = true → selection.keeps i = true) :
    Nest k (budget :: budgets) (selection :: selections) := by
  refine ⟨by simp [nest.length_eq], fun {place _ _} at_budget at_place => ?_,
    fun {place looser tighter} at_looser at_tighter i keep => ?_⟩
  · cases place with
    | zero =>
      obtain rfl := Option.some.inj at_budget
      obtain rfl := Option.some.inj at_place
      exact solution
    | succ place => exact nest.solution at_budget at_place
  · cases place with
    | zero =>
      obtain rfl := Option.some.inj at_looser
      have at_head : selections[0]? = some tighter := at_tighter
      have head : selections.head? = some tighter := by rwa [List.head?_eq_getElem?]
      have lt : 0 < budgets.length := by
        rw [← nest.length_eq]
        exact (List.getElem?_eq_some_iff.1 at_head).1
      have inside := (nest.solution (List.getElem?_eq_getElem lt) at_head).lt keep
      exact forced i inside (by simp [forcedBy, head, keep])
    | succ place => exact nest.nested at_looser at_tighter i keep

/-- Growing from the tightest budget gives nested solutions. -/
theorem nest_of_growFrom? [LawfulCosts κ] {pairs : List (Decisions × κ)}
    (itemized : Itemized 0 k.forest)
    (closed : ∀ p ∈ pairs, ClosedOn (fun i => p.1.status i == .kept) k.numbered)
    (eq : growFrom? k pairs = some selections) : Nest k (pairs.map (·.2)) selections := by
  induction pairs generalizing selections with
  | nil =>
    obtain rfl : [] = selections := by simpa [growFrom?] using eq
    exact .nil
  | cons pair pairs ih =>
    obtain ⟨decisions, budget⟩ := pair
    rw [List.forall_mem_cons] at closed
    simp only [growFrom?, Option.bind_eq_bind, Option.bind_eq_some_iff, Option.pure_def,
      Option.some.injEq] at eq
    obtain ⟨rest, grown, selection, solved, rfl⟩ := eq
    have nest := ih closed.2 grown
    have decided :
        ClosedOn (fun i => (if forcedBy rest i then Status.kept else decisions.status i) == .kept)
          k.numbered := by
      refine (congrArg (ClosedOn · k.numbered) (funext fun i => ?_)).mp
        (closedOn_or (closedOn_forcedBy itemized nest) closed.1)
      cases forcedBy rest i <;> simp
    have agrees : k.Agrees (fun i => if forcedBy rest i then .kept else decisions.status i)
        selection.keeps := Knapsack.solve?_agrees itemized solved decided
    exact nest.cons ⟨_, decided, solved⟩ fun i inside forced =>
      (agrees i inside).1 (by simp [forced])

end Growing

/-! ### The best so far -/

/-- The levels of nested solutions. -/
def Grounded (s : Search κ) (l : Levels) : Prop :=
  ∃ selections, Nest s.knapsack s.budgets selections ∧ l = .ofSelections s.items selections

/-- The best so far are the levels of nested solutions. -/
def Sound (s : Search κ) (p : Progress) : Prop := ∀ l, p.best = some l → s.Grounded l

theorem sound_offer {found : Levels} (sound : s.Sound p) (grounded : s.Grounded found) :
    s.Sound (p.offer found) := by
  unfold Progress.offer
  split
  · rintro l ⟨⟩
    exact grounded
  · exact sound

section Lawful

variable [LawfulCosts κ] (itemized : Itemized 0 s.knapsack.forest) (indexed : s.Indexed)

include itemized

/-- Under each budget the levels keep a closed set with no more holes than allowed. -/
theorem Grounded.permits {l : Levels} {place : Nat} (grounded : s.Grounded l)
    (lt : place < s.budgets.length) : s.knapsack.Permits (l.keeps place) := by
  obtain ⟨selections, nest, rfl⟩ := grounded
  obtain ⟨selection, at_place⟩ := nest.exists_selection lt
  rw [show s.items = s.knapsack.size from rfl, nest.keeps_ofSelections at_place]
  exact (nest.solution (List.getElem?_eq_getElem lt) at_place).permits itemized

include indexed

theorem sound_grown (coherent : s.Coherent fixed) (sound : s.Sound p) :
    s.Sound (s.grown fixed p) := by
  unfold grown
  cases found : s.grow? fixed with
  | none => exact sound
  | some levels =>
    obtain ⟨selections, grown, rfl⟩ := Option.map_eq_some_iff.1 found
    have nest := nest_of_growFrom? itemized (fun pair mem => ?_) grown
    · rw [List.map_snd_zip (coherent.length_eq.ge)] at nest
      exact sound_offer sound ⟨selections, nest, rfl⟩
    · obtain ⟨place, at_place⟩ := List.mem_iff_getElem?.1 (List.of_mem_zip mem).1
      have := coherent.closed indexed place
      rwa [statusAt_eq_status at_place] at this

theorem sound_expand (coherent : s.Coherent fixed) (sound : s.Sound p) :
    s.Sound (s.expand fixed p).1 := by
  unfold expand
  cases solved : s.selections? fixed with
  | none => exact sound
  | some selections =>
    dsimp only
    split
    · exact sound
    · cases clear : firstConflict? s.items selections with
      | none =>
        rintro _ ⟨⟩
        have solutions := solutions_of_selections? coherent solved
        exact ⟨selections, solutions.nest indexed coherent clear, rfl⟩
      | some c => exact sound_grown itemized indexed coherent sound

/-- A visit that ends leaves the levels of nested solutions. The induction is on the depth. -/
theorem sound_visit {depth : Nat} (coherent : s.Coherent fixed) (sound : s.Sound p)
    (visited : s.visit depth fixed p = .ok p') : s.Sound p' := by
  induction depth generalizing fixed p p' with
  | zero =>
    obtain rfl : p = p' := Except.ok.inj visited
    exact sound
  | succ depth ih =>
    rw [visit_succ] at visited
    split at visited
    case isTrue => cases visited
    case isFalse =>
      have sound₁ := sound_expand itemized indexed coherent sound
      rcases expanded : s.expand fixed p with ⟨p₁, _ | c⟩
      · rw [expanded] at sound₁ visited
        obtain rfl : p₁ = p' := Except.ok.inj visited
        exact sound₁
      · obtain ⟨kept, dropped, branches⟩ :=
          exists_branches_of_expand itemized indexed coherent expanded
        rw [expanded] at sound₁ visited
        dsimp only at visited
        rw [branches.visitBranches_eq] at visited
        obtain ⟨p₂, first, second⟩ := bind_eq_ok_iff.1 visited
        exact ih branches.dropped_coherent (ih branches.kept_coherent sound₁ first) second

/-- A run that ends answers with the levels of nested solutions. -/
theorem grounded_of_run {l : Levels} (run : s.run = .ok l) : s.Grounded l := by
  unfold Search.run at run
  split at run
  case isTrue empty =>
    obtain rfl := Except.ok.inj run
    refine ⟨[], List.isEmpty_iff.1 empty ▸ .nil, ?_⟩
    exact congrArg (Levels.mk 0) (SideTable.filled_eq_ofFn s.items 0)
  case isFalse =>
    obtain ⟨p, visited, answered⟩ := bind_eq_ok_iff.1 run
    have sound := sound_visit itemized indexed coherent_start (by simp [Sound]) visited
    cases best : p.best with
    | none => simp [best] at answered
    | some found =>
      rw [best] at answered
      obtain rfl := Except.ok.inj answered
      exact sound found best

end Lawful

end Search

end SureCode
