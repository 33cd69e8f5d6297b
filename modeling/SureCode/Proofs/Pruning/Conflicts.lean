import Mathlib
import SureCode.Proofs.Pruning.Decisions

/-!
# Conflicts of solutions

One solution for each budget, all under the same decisions, may have a conflict: an item that a
tighter one keeps and the looser one before it drops. Where costs are lawful nothing is decided yet
about the item under these two budgets (`Solutions.open`), since solutions honour what is decided.
So both branches at a conflict exist and decide more than was decided before, and a nested family that
respects the decisions respects those of one branch (`Branches`).
-/

namespace SureCode

open SureCode.Tree

namespace Search

variable {κ : Type} [Scalar κ] {s : Search κ} {fixed : List Decisions}
  {selections : List Selection} {c : Conflict}

/-! ### Solving all budgets -/

section MapM

variable {α β : Type} {f : α → Option β} {l : List α}

theorem getElem?_of_mapM {l' : List β} (eq : l.mapM f = some l') :
    l'.length = l.length ∧
      ∀ {place : Nat} {a}, l[place]? = some a → ∃ b, l'[place]? = some b ∧ f a = some b := by
  induction l generalizing l' with
  | nil =>
    obtain rfl : [] = l' := by simpa using eq
    simp
  | cons a l ih =>
    simp only [List.mapM_cons, Option.bind_eq_bind, Option.bind_eq_some_iff, Option.pure_def,
      Option.some.injEq] at eq
    obtain ⟨b, first, rest', rest, rfl⟩ := eq
    obtain ⟨length_eq, solved⟩ := ih rest
    refine ⟨by simp [length_eq], fun {place a'} at_place => ?_⟩
    cases place with
    | zero =>
      obtain rfl : a = a' := by simpa using at_place
      exact ⟨b, rfl, first⟩
    | succ place => simpa using solved (by simpa using at_place)

theorem exists_of_mapM_eq_none (eq : l.mapM f = none) : ∃ a ∈ l, f a = none := by
  induction l with
  | nil => simp at eq
  | cons a l ih =>
    cases first : f a with
    | none => exact ⟨a, List.mem_cons_self, first⟩
    | some b =>
      cases rest : l.mapM f with
      | none =>
        obtain ⟨a', mem, none⟩ := ih rest
        exact ⟨a', List.mem_cons_of_mem a mem, none⟩
      | some l' => simp [List.mapM_cons, first, rest] at eq

end MapM

/-- Selections that solve all budgets under some decisions. -/
structure Solutions (s : Search κ) (fixed : List Decisions) (selections : List Selection) :
    Prop where
  length_eq : selections.length = s.budgets.length
  solved : ∀ {place : Nat} {budget}, s.budgets[place]? = some budget →
    ∃ selection, selections[place]? = some selection ∧
      s.knapsack.solve? (statusAt fixed place) budget = some selection

theorem statusAt_eq_status {place : Nat} {d : Decisions} (at_place : fixed[place]? = some d) :
    statusAt fixed place = d.status :=
  funext (statusAt_of_getElem? at_place)

theorem solutions_of_selections? (coherent : s.Coherent fixed)
    (eq : s.selections? fixed = some selections) : s.Solutions fixed selections := by
  obtain ⟨length_eq, solved⟩ := getElem?_of_mapM eq
  refine ⟨?_, fun {place budget} at_place => ?_⟩
  · rw [length_eq, List.length_zip, coherent.length_eq, min_self]
  · have lt : place < fixed.length := coherent.length_eq ▸ (List.getElem?_eq_some_iff.1 at_place).1
    have at_fixed := List.getElem?_eq_getElem lt
    have at_zip : (fixed.zip s.budgets)[place]? = some (fixed[place], budget) :=
      List.getElem?_zip_eq_some.2 ⟨at_fixed, at_place⟩
    obtain ⟨selection, at_selection, eq⟩ := solved at_zip
    exact ⟨selection, at_selection, statusAt_eq_status at_fixed ▸ eq⟩

theorem exists_unsolved (eq : s.selections? fixed = none) :
    ∃ (place : Nat) (budget : κ), s.budgets[place]? = some budget ∧
      s.knapsack.solve? (statusAt fixed place) budget = none := by
  obtain ⟨⟨d, budget⟩, mem, unsolved⟩ := exists_of_mapM_eq_none eq
  obtain ⟨place, at_place⟩ := List.mem_iff_getElem?.1 mem
  obtain ⟨at_fixed, at_budgets⟩ := List.getElem?_zip_eq_some.1 at_place
  exact ⟨place, budget, at_budgets, statusAt_eq_status at_fixed ▸ unsolved⟩

omit [Scalar κ] in
theorem Coherent.closed (indexed : s.Indexed) (coherent : s.Coherent fixed) (place : Nat) :
    ClosedOn (fun i => statusAt fixed place i == .kept) (numbered [] 0 s.knapsack.forest) := by
  apply closedOn_iff_path.2
  intro i lt keep a above
  rw [← show s.index = .ofForest s.knapsack.forest from indexed] at above
  rw [beq_iff_eq] at keep ⊢
  exact coherent.kept_up place i lt keep a above

/-! ### Conflicts -/

theorem mem_zip_drop_zipIdx {α : Type} {l : List α} {a b : α} {place : Nat} :
    ((a, b), place) ∈ (l.zip (l.drop 1)).zipIdx ↔ l[place]? = some a ∧ l[place + 1]? = some b := by
  rw [List.mk_mem_zipIdx_iff_getElem?, List.getElem?_zip_eq_some, List.getElem?_drop, add_comm 1]

/-- Without a conflict the selections are nested. -/
theorem nested_of_firstConflict? {items place : Nat} {looser tighter : Selection}
    (eq : firstConflict? items selections = none) (at_looser : selections[place]? = some looser)
    (at_tighter : selections[place + 1]? = some tighter) {i : Nat} (lt : i < items)
    (keep : tighter.keeps i = true) : looser.keeps i = true := by
  have clear := List.findSome?_eq_none_iff.1 eq ((looser, tighter), place)
    (mem_zip_drop_zipIdx.2 ⟨at_looser, at_tighter⟩)
  rw [Option.map_eq_none_iff, List.find?_eq_none] at clear
  simpa [keep] using clear i (List.mem_range.2 lt)

/-- At a conflict the tighter selection keeps an item that the looser one drops. -/
theorem firstConflict?_eq_some {items : Nat}
    (eq : firstConflict? items selections = some c) :
    ∃ looser tighter, selections[c.looser]? = some looser ∧
      selections[c.looser + 1]? = some tighter ∧ c.item < items ∧ tighter.keeps c.item = true ∧
        looser.keeps c.item = false := by
  obtain ⟨⟨⟨looser, tighter⟩, place⟩, mem, found⟩ := List.exists_of_findSome?_eq_some eq
  obtain ⟨item, first, rfl⟩ := Option.map_eq_some_iff.1 found
  obtain ⟨at_looser, at_tighter⟩ := mem_zip_drop_zipIdx.1 mem
  have keeps := List.find?_some first
  rw [Bool.and_eq_true, Bool.not_eq_true'] at keeps
  exact ⟨looser, tighter, at_looser, at_tighter,
    List.mem_range.1 (List.mem_of_find?_eq_some first), keeps.1, keeps.2⟩

section Conflicts

variable [LawfulCosts κ] (itemized : Itemized 0 s.knapsack.forest) (indexed : s.Indexed)
  (coherent : s.Coherent fixed) (solutions : s.Solutions fixed selections)

include itemized indexed coherent solutions

theorem Solutions.agrees {place : Nat} {budget : κ} {selection : Selection}
    (at_budget : s.budgets[place]? = some budget) (at_place : selections[place]? = some selection) :
    ∀ i < s.items, (statusAt fixed place i = .kept → selection.keeps i = true) ∧
      (statusAt fixed place i = .dropped → selection.keeps i = false) := by
  obtain ⟨_, at_place', eq⟩ := solutions.solved at_budget
  obtain rfl := Option.some.inj (at_place.symm.trans at_place')
  exact Knapsack.solve?_agrees itemized eq (coherent.closed indexed place)

/-- Nothing is decided about the item of a conflict where it is one. -/
theorem Solutions.open (conflict : firstConflict? s.items selections = some c) :
    s.Open fixed c := by
  obtain ⟨looser, tighter, at_looser, at_tighter, item_lt, keep, drop⟩ :=
    firstConflict?_eq_some conflict
  have place_lt : c.looser + 1 < s.budgets.length :=
    solutions.length_eq ▸ (List.getElem?_eq_some_iff.1 at_tighter).1
  have looser_lt : c.looser < s.budgets.length := by omega
  have agrees_looser := solutions.agrees itemized indexed coherent
    (List.getElem?_eq_getElem looser_lt) at_looser c.item item_lt
  have agrees_tighter := solutions.agrees itemized indexed coherent
    (List.getElem?_eq_getElem place_lt) at_tighter c.item item_lt
  have not_kept : statusAt fixed c.looser c.item ≠ .kept := fun must => by
    simp [agrees_looser.1 must] at drop
  have not_dropped : statusAt fixed (c.looser + 1) c.item ≠ .dropped := fun must => by
    simp [agrees_tighter.2 must] at keep
  refine ⟨item_lt, place_lt, ?_, ?_⟩
  · cases status : statusAt fixed c.looser c.item with
    | free => rfl
    | kept => exact absurd status not_kept
    | dropped =>
      exact absurd (coherent.dropped_tighter _ _ _ (Nat.le_succ _) place_lt item_lt status)
        not_dropped
  · cases status : statusAt fixed (c.looser + 1) c.item with
    | free => rfl
    | kept => exact absurd (coherent.kept_looser _ _ _ (Nat.le_succ _) item_lt status) not_kept
    | dropped => exact absurd status not_dropped

end Conflicts

/-! ### Nested families -/

section Families

omit [Scalar κ]

/-- A family keeps one set of items under each budget, with each item all that are above it, and
under a tighter budget nothing that it drops under a looser one. -/
structure Nested (s : Search κ) (family : Nat → Nat → Bool) : Prop where
  closed : ∀ {place i a}, place < s.budgets.length → i < s.items → family place i = true →
    a ∈ s.index.path i → family place a = true
  nested : ∀ {looser tighter i}, looser ≤ tighter → tighter < s.budgets.length → i < s.items →
    family tighter i = true → family looser i = true

/-- A family keeps what is kept under each budget and drops what is dropped. -/
def Respects (s : Search κ) (fixed : List Decisions) (family : Nat → Nat → Bool) : Prop :=
  ∀ place < s.budgets.length, ∀ i < s.items,
    (statusAt fixed place i = .kept → family place i = true) ∧
      (statusAt fixed place i = .dropped → family place i = false)

/-- The nested families that respect some decisions respect one of the two branches at a conflict:
those that keep its item under the looser budget the one, the others the other. -/
theorem respects_branch {kept dropped : List Decisions} {family : Nat → Nat → Bool}
    (indexed : s.Indexed) (undecided : s.Open fixed c)
    (kept_status : ∀ place i, statusAt kept place i
      = if place ≤ c.looser ∧ i ∈ s.index.path c.item then .kept else statusAt fixed place i)
    (dropped_status : ∀ place i, statusAt dropped place i
      = if c.looser < place ∧ place < s.budgets.length ∧ i ∈ s.index.subtree c.item then .dropped
        else statusAt fixed place i)
    (nests : s.Nested family) (respects : s.Respects fixed family) :
    s.Respects kept family ∨ s.Respects dropped family := by
  have place_lt := undecided.place_lt
  have item_lt := undecided.item_lt
  cases keep : family c.looser c.item with
  | true =>
    left
    intro place lt i inside
    rw [kept_status]
    split
    case isTrue block =>
      have at_place := nests.nested block.1 (by omega) item_lt keep
      have := nests.closed lt item_lt at_place block.2
      simp [this]
    case isFalse => exact respects place lt i inside
  | false =>
    right
    intro place lt i inside
    rw [dropped_status]
    split
    case isTrue block =>
      have : family place i = false := by
        by_contra keep_below
        rw [Bool.not_eq_false] at keep_below
        have above : c.item ∈ s.index.path i := by
          have mem := block.2.2
          rw [show s.index = .ofForest s.knapsack.forest from indexed] at mem ⊢
          exact (TreeIndex.mem_path_iff inside).2 (TreeIndex.mem_subtree_iff.1 mem)
        have at_place := nests.closed lt inside keep_below above
        have := nests.nested block.1.le lt item_lt at_place
        simp [keep] at this
      simp [this]
    case isFalse => exact respects place lt i inside

end Families

/-! ### Both branches -/

/-- The two branches at a conflict. Each is coherent and has fewer undecided statuses, and together
they have all nested families that respect the decisions. -/
structure Branches (s : Search κ) (fixed : List Decisions) (c : Conflict)
    (kept dropped : List Decisions) : Prop where
  withKept_eq : s.withKept fixed c = some kept
  withDropped_eq : s.withDropped fixed c = some dropped
  kept_coherent : s.Coherent kept
  kept_lt : s.undecided kept < s.undecided fixed
  dropped_coherent : s.Coherent dropped
  dropped_lt : s.undecided dropped < s.undecided fixed
  splits : ∀ {family}, s.Nested family → s.Respects fixed family →
    s.Respects kept family ∨ s.Respects dropped family

/-- At a conflict of solutions both branches exist. -/
theorem Solutions.exists_branches [LawfulCosts κ] (itemized : Itemized 0 s.knapsack.forest)
    (indexed : s.Indexed) (coherent : s.Coherent fixed) (solutions : s.Solutions fixed selections)
    (conflict : firstConflict? s.items selections = some c) :
    ∃ kept dropped, s.Branches fixed c kept dropped := by
  have undecided := solutions.open itemized indexed coherent conflict
  obtain ⟨kept, kept_eq, kept_coherent, kept_lt, kept_status⟩ :=
    exists_withKept indexed coherent undecided
  obtain ⟨dropped, dropped_eq, dropped_coherent, dropped_lt, dropped_status⟩ :=
    exists_withDropped indexed coherent undecided
  refine ⟨kept, dropped, kept_eq, dropped_eq, kept_coherent, kept_lt, dropped_coherent, dropped_lt,
    fun nests respects => ?_⟩
  exact respects_branch indexed undecided kept_status dropped_status nests respects

end Search

end SureCode
