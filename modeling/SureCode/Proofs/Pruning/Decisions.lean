import Mathlib
import SureCode.Proofs.Pruning.Commitments
import SureCode.Pruning.Search

/-!
# Decisions of the search

The decisions under several budgets, read as one status for each place of a budget and each item
(`statusAt`), form a grid. A branch of the search decides a block of the grid: a path under all
looser budgets, or a subtree under all tighter ones (`statusAt_withKept`, `statusAt_withDropped`).
Decisions stay `Coherent` that way: kept upwards and to the looser side, dropped downwards and to
the tighter side, so what nested selections can honour is never decided both ways.
-/

namespace SureCode

open SureCode.Tree

/-! ### Decisions under one budget -/

namespace Decisions

variable {d : Decisions} {item : Nat} {s : Status}

theorem size_decide : (d.decide item s).size = d.size := SideTable.size_replace ..

theorem status_decide (lt : item < d.size) (i : Nat) :
    (d.decide item s).status i = if i = item then s else d.status i := by
  have : (d.decide item s).get? i = if i = item ∧ item < d.size then some s else d.get? i :=
    SideTable.get?_replace ..
  unfold status
  rw [this]
  split_ifs <;> simp_all

theorem status_filled (count i : Nat) : status (.filled count .free) i = .free := by
  unfold status
  rw [SideTable.get?_filled]
  split <;> rfl

/-- Keeping a path keeps all of it, unless something on it is dropped. What is above a kept item is
kept beforehand, so the walk may stop there. -/
theorem keepPath_spec {path : List Nat} (nodup : path.Nodup) (inside : ∀ i ∈ path, i < d.size)
    (up : path.Pairwise fun i a => d.status i = .kept → d.status a = .kept)
    (clear : ∀ i ∈ path, d.status i ≠ .dropped) :
    ∃ d' : Decisions, keepPath path d = some d' ∧ d'.size = d.size ∧
      ∀ i, d'.status i = if i ∈ path then .kept else d.status i := by
  induction path generalizing d with
  | nil => exact ⟨d, rfl, rfl, by simp⟩
  | cons item above ih =>
    rw [List.nodup_cons] at nodup
    rw [List.pairwise_cons] at up
    rw [List.forall_mem_cons] at inside clear
    rw [keepPath]
    cases decided : d.status item with
    | dropped => exact absurd decided clear.1
    | kept =>
      refine ⟨d, rfl, rfl, fun i => ?_⟩
      split
      case isTrue mem =>
        rcases List.mem_cons.1 mem with rfl | mem
        · exact decided
        · exact up.1 i mem decided
      case isFalse => rfl
    | free =>
      have same {i : Nat} (mem : i ∈ above) : (d.decide item .kept).status i = d.status i := by
        rw [status_decide inside.1, if_neg]
        rintro rfl
        exact nodup.1 mem
      have up' : above.Pairwise fun i a =>
          (d.decide item .kept).status i = .kept → (d.decide item .kept).status a = .kept := by
        apply up.2.imp_of_mem
        intro i a memi mema step
        rwa [same memi, same mema]
      obtain ⟨d', eq, size_eq, status_eq⟩ := ih nodup.2
        (fun i mem => size_decide (d := d) ▸ inside.2 i mem) up'
        (fun i mem => by rw [same mem]; exact clear.2 i mem)
      refine ⟨d', eq, size_eq.trans size_decide, fun i => ?_⟩
      rw [status_eq, status_decide inside.1]
      by_cases root : i = item <;> by_cases mem : i ∈ above <;> simp [root, mem]

/-- Dropping some items drops all of them, unless one of them is kept. -/
theorem dropAll_spec {items : List Nat} (inside : ∀ i ∈ items, i < d.size)
    (clear : ∀ i ∈ items, d.status i ≠ .kept) :
    ∃ d' : Decisions, dropAll items d = some d' ∧ d'.size = d.size ∧
      ∀ i, d'.status i = if i ∈ items then .dropped else d.status i := by
  induction items generalizing d with
  | nil => exact ⟨d, rfl, rfl, by simp⟩
  | cons item rest ih =>
    rw [List.forall_mem_cons] at inside clear
    have step : dropAll (item :: rest) d = dropAll rest (d.decide item .dropped) := by
      rw [dropAll]
      split
      · exact absurd ‹_› clear.1
      · rfl
    obtain ⟨d', eq, size_eq, status_eq⟩ := ih (d := d.decide item .dropped)
      (fun i mem => size_decide (d := d) ▸ inside.2 i mem) (fun i mem => by
        rw [status_decide inside.1]
        split
        · simp
        · exact clear.2 i mem)
    refine ⟨d', step.trans eq, size_eq.trans size_decide, fun i => ?_⟩
    rw [status_eq, status_decide inside.1]
    by_cases first : i = item <;> by_cases mem : i ∈ rest <;> simp [first, mem]

end Decisions

/-! ### The grid of decisions -/

/-- What is decided about an item under the budget at a place. -/
def statusAt (fixed : List Decisions) (place item : Nat) : Status :=
  (fixed[place]?.map fun d => d.status item).getD .free

theorem statusAt_of_getElem? {fixed : List Decisions} {place : Nat} {d : Decisions}
    (eq : fixed[place]? = some d) (item : Nat) : statusAt fixed place item = d.status item := by
  simp [statusAt, eq]

theorem statusAt_of_length_le {fixed : List Decisions} {place item : Nat}
    (le : fixed.length ≤ place) : statusAt fixed place item = .free := by
  simp [statusAt, le]

theorem statusAt_append_left {first second : List Decisions} {place item : Nat}
    (lt : place < first.length) :
    statusAt (first ++ second) place item = statusAt first place item := by
  simp [statusAt, List.getElem?_append_left lt]

theorem statusAt_append_right {first second : List Decisions} {place item : Nat}
    (le : first.length ≤ place) :
    statusAt (first ++ second) place item = statusAt second (place - first.length) item := by
  simp [statusAt, List.getElem?_append_right le]

theorem statusAt_take {fixed : List Decisions} {count place item : Nat} (lt : place < count) :
    statusAt (fixed.take count) place item = statusAt fixed place item := by
  simp [statusAt, List.getElem?_take_of_lt lt]

theorem statusAt_drop {fixed : List Decisions} {count place item : Nat} :
    statusAt (fixed.drop count) place item = statusAt fixed (count + place) item := by
  simp [statusAt, List.getElem?_drop]

/-- Changing the decisions under every budget in the same way. -/
theorem mapM_statusAt {fixed : List Decisions} {size : Nat} (change : Decisions → Option Decisions)
    (block : Nat → Prop) [DecidablePred block] (s : Status) (sizes : ∀ d ∈ fixed, d.size = size)
    (spec : ∀ d ∈ fixed, ∃ d' : Decisions, change d = some d' ∧ d'.size = d.size ∧
      ∀ i, d'.status i = if block i then s else d.status i) :
    ∃ fixed', fixed.mapM change = some fixed' ∧ fixed'.length = fixed.length ∧
      (∀ d ∈ fixed', d.size = size) ∧
        ∀ place < fixed.length, ∀ i,
          statusAt fixed' place i = if block i then s else statusAt fixed place i := by
  induction fixed with
  | nil => exact ⟨[], rfl, rfl, by simp, by simp⟩
  | cons d fixed ih =>
    rw [List.forall_mem_cons] at sizes spec
    obtain ⟨d', eq, size_eq, status_eq⟩ := spec.1
    obtain ⟨fixed', eqs, length_eq, sizes', status_eqs⟩ := ih sizes.2 spec.2
    refine ⟨d' :: fixed', by simp [List.mapM_cons, eq, eqs], by simp [length_eq], ?_, ?_⟩
    · rw [List.forall_mem_cons]
      exact ⟨size_eq.trans sizes.1, sizes'⟩
    · intro place lt i
      cases place with
      | zero => simpa [statusAt] using status_eq i
      | succ place => simpa [statusAt] using status_eqs place (by simpa using lt) i

namespace Search

variable {κ : Type} {s : Search κ} {fixed : List Decisions} {c : Conflict}

/-- The search walks its items by the index of their forest. -/
def Indexed (s : Search κ) : Prop := s.index = .ofForest s.knapsack.forest

/-- Decisions that nested selections can honour. -/
structure Coherent (s : Search κ) (fixed : List Decisions) : Prop where
  length_eq : fixed.length = s.budgets.length
  sizes : ∀ d ∈ fixed, d.size = s.items
  kept_up : ∀ place, ∀ i < s.items, statusAt fixed place i = .kept →
    ∀ a ∈ s.index.path i, statusAt fixed place a = .kept
  dropped_down : ∀ place, ∀ i < s.items, ∀ a ∈ s.index.path i, statusAt fixed place a = .dropped →
    statusAt fixed place i = .dropped
  kept_looser : ∀ looser tighter i, looser ≤ tighter → i < s.items →
    statusAt fixed tighter i = .kept → statusAt fixed looser i = .kept
  dropped_tighter : ∀ looser tighter i, looser ≤ tighter → tighter < s.budgets.length →
    i < s.items → statusAt fixed looser i = .dropped → statusAt fixed tighter i = .dropped

/-- How many statuses are still free. -/
def undecided (s : Search κ) (fixed : List Decisions) : Nat :=
  ((Finset.range s.budgets.length ×ˢ Finset.range s.items).filter
    fun p => statusAt fixed p.1 p.2 = .free).card

theorem statusAt_start (place i : Nat) :
    statusAt (s.budgets.map fun _ => .filled s.items .free) place i = .free := by
  simp only [statusAt, List.getElem?_map]
  cases s.budgets[place]? <;> simp [Decisions.status_filled]

theorem coherent_start : s.Coherent (s.budgets.map fun _ => .filled s.items .free) := by
  refine ⟨by simp, by simp, ?_, ?_, ?_, ?_⟩
  · simp only [statusAt_start, reduceCtorEq, false_implies, implies_true]
  · simp only [statusAt_start, reduceCtorEq, false_implies, implies_true]
  · simp only [statusAt_start, reduceCtorEq, false_implies, implies_true]
  · simp only [statusAt_start, reduceCtorEq, false_implies, implies_true]

theorem undecided_le : s.undecided fixed ≤ s.items * s.budgets.length := by
  refine (Finset.card_filter_le _ _).trans ?_
  rw [Finset.card_product, Finset.card_range, Finset.card_range, mul_comm]

/-- Deciding a free status leaves fewer undecided. -/
theorem undecided_lt {fixed' : List Decisions} {place item : Nat}
    (place_lt : place < s.budgets.length) (item_lt : item < s.items)
    (free : statusAt fixed place item = .free) (now : statusAt fixed' place item ≠ .free)
    (decided : ∀ place i, statusAt fixed' place i = .free → statusAt fixed place i = .free) :
    s.undecided fixed' < s.undecided fixed := by
  refine Finset.card_lt_card (Finset.ssubset_iff_of_subset ?_ |>.2 ⟨(place, item), ?_, ?_⟩)
  · exact Finset.monotone_filter_right _ fun p _ => decided p.1 p.2
  · simp [place_lt, item_lt, free]
  · simp [now]

/-! ### Branches -/

/-- A conflict is at an item about which nothing is decided under the looser or the tighter budget.
-/
structure Open (s : Search κ) (fixed : List Decisions) (c : Conflict) : Prop where
  item_lt : c.item < s.items
  place_lt : c.looser + 1 < s.budgets.length
  looser_free : statusAt fixed c.looser c.item = .free
  tighter_free : statusAt fixed (c.looser + 1) c.item = .free

section Branches

variable (indexed : s.Indexed) (coherent : s.Coherent fixed) (undecided : s.Open fixed c)

include indexed coherent undecided

/-- Nothing stands against keeping the path of the item under a looser budget. -/
theorem keepPath_of_mem_take {d : Decisions} (mem : d ∈ fixed.take (c.looser + 1)) :
    ∃ d' : Decisions, Decisions.keepPath (s.index.path c.item) d = some d' ∧ d'.size = d.size ∧
      ∀ i, d'.status i = if i ∈ s.index.path c.item then .kept else d.status i := by
  have item_lt := undecided.item_lt
  have place_lt : c.looser + 1 < fixed.length := coherent.length_eq ▸ undecided.place_lt
  have index_eq : s.index = .ofForest s.knapsack.forest := indexed
  have nodup : (s.index.path c.item).Nodup := by
    rw [index_eq]
    exact (TreeIndex.pairwise_path item_lt).imp fun less => (ne_of_lt less).symm
  have inside : ∀ i ∈ s.index.path c.item, i < s.items := fun i mem =>
    TreeIndex.lt_of_mem_path item_lt (index_eq ▸ mem)
  have size_eq := coherent.sizes d (List.mem_of_mem_take mem)
  obtain ⟨place, lt, eq⟩ := List.getElem_of_mem mem
  rw [List.length_take] at lt
  have at_place : fixed[place]? = some d := by
    rw [← eq, List.getElem_take]
    exact List.getElem?_eq_getElem (by omega)
  have status (i : Nat) := statusAt_of_getElem? at_place i
  apply Decisions.keepPath_spec nodup (fun i mem => size_eq ▸ inside i mem)
  · rw [index_eq]
    apply (TreeIndex.pairwise_path item_lt).imp_of_mem
    intro i a memi mema less must
    have above := (TreeIndex.mem_path_iff item_lt).1 mema
    have below := (TreeIndex.mem_path_iff item_lt).1 memi
    have i_lt : i < s.items := inside i (index_eq ▸ memi)
    rw [← status] at must ⊢
    apply coherent.kept_up place i i_lt must a
    rw [index_eq]
    exact (TreeIndex.mem_path_iff i_lt).2 ⟨less.le, by omega⟩
  · -- what is dropped here is dropped under the tighter budgets, and the item with it
    intro a mem must
    rw [← status] at must
    have := coherent.dropped_tighter place (c.looser + 1) a (by omega) undecided.place_lt
      (inside a mem) must
    have := coherent.dropped_down _ c.item item_lt a mem this
    simp [undecided.tighter_free] at this

/-- The branch that keeps decides the path of the item under the looser budgets. -/
theorem statusAt_withKept :
    ∃ fixed', s.withKept fixed c = some fixed' ∧ fixed'.length = fixed.length ∧
      (∀ d ∈ fixed', d.size = s.items) ∧
        ∀ place i, statusAt fixed' place i
          = if place ≤ c.looser ∧ i ∈ s.index.path c.item then .kept
            else statusAt fixed place i := by
  have place_lt : c.looser + 1 < fixed.length := coherent.length_eq ▸ undecided.place_lt
  obtain ⟨looser, eq, length_eq, sizes, status_eq⟩ :=
    mapM_statusAt (Decisions.keepPath (s.index.path c.item)) (· ∈ s.index.path c.item) .kept
      (fun d (mem : d ∈ fixed.take (c.looser + 1)) => coherent.sizes d (List.mem_of_mem_take mem))
      fun _ mem => keepPath_of_mem_take indexed coherent undecided mem
  rw [List.length_take] at length_eq
  refine ⟨looser ++ fixed.drop (c.looser + 1), by simp [withKept, eq], ?_, fun d mem => ?_,
    fun place i => ?_⟩
  · rw [List.length_append, length_eq, List.length_drop]
    omega
  · rcases List.mem_append.1 mem with mem | mem
    · exact sizes d mem
    · exact coherent.sizes d (List.mem_of_mem_drop mem)
  · by_cases left : place ≤ c.looser
    · rw [statusAt_append_left (by omega), status_eq place (by rw [List.length_take]; omega) i,
        statusAt_take (by omega)]
      simp [left]
    · rw [statusAt_append_right (by omega), statusAt_drop, if_neg (by tauto), length_eq]
      congr 1
      omega

/-- Nothing stands against dropping the subtree of the item under a tighter budget. -/
theorem dropAll_of_mem_drop {d : Decisions} (mem : d ∈ fixed.drop (c.looser + 1)) :
    ∃ d' : Decisions, Decisions.dropAll (s.index.subtree c.item) d = some d' ∧
      d'.size = d.size ∧
        ∀ i, d'.status i = if i ∈ s.index.subtree c.item then .dropped else d.status i := by
  have index_eq : s.index = .ofForest s.knapsack.forest := indexed
  have inside : ∀ i ∈ s.index.subtree c.item, i < s.items := fun i mem =>
    TreeIndex.lt_of_mem_subtree undecided.item_lt (index_eq ▸ mem)
  have size_eq := coherent.sizes d (List.mem_of_mem_drop mem)
  obtain ⟨place, lt, eq⟩ := List.getElem_of_mem mem
  rw [List.length_drop] at lt
  have at_place : fixed[c.looser + 1 + place]? = some d := by
    rw [← eq, List.getElem_drop]
    exact List.getElem?_eq_getElem (by omega)
  have status (i : Nat) := statusAt_of_getElem? at_place i
  apply Decisions.dropAll_spec (fun i mem => size_eq ▸ inside i mem)
  -- what is kept here is kept under the looser budgets, and the item with it
  intro i mem must
  rw [← status] at must
  have i_lt := inside i mem
  have := coherent.kept_looser c.looser _ i (by omega) i_lt must
  have := coherent.kept_up c.looser i i_lt this c.item (by
    rw [index_eq] at mem ⊢
    exact (TreeIndex.mem_path_iff i_lt).2 (TreeIndex.mem_subtree_iff.1 mem))
  simp [undecided.looser_free] at this

/-- The branch that drops decides the subtree of the item under the tighter budgets. -/
theorem statusAt_withDropped :
    ∃ fixed', s.withDropped fixed c = some fixed' ∧ fixed'.length = fixed.length ∧
      (∀ d ∈ fixed', d.size = s.items) ∧
        ∀ place i, statusAt fixed' place i
          = if c.looser < place ∧ place < s.budgets.length ∧ i ∈ s.index.subtree c.item
            then .dropped else statusAt fixed place i := by
  have place_lt : c.looser + 1 < fixed.length := coherent.length_eq ▸ undecided.place_lt
  obtain ⟨tighter, eq, length_eq, sizes, status_eq⟩ :=
    mapM_statusAt (Decisions.dropAll (s.index.subtree c.item)) (· ∈ s.index.subtree c.item) .dropped
      (fun d (mem : d ∈ fixed.drop (c.looser + 1)) => coherent.sizes d (List.mem_of_mem_drop mem))
      fun _ mem => dropAll_of_mem_drop indexed coherent undecided mem
  rw [List.length_drop] at length_eq
  have take_length : (fixed.take (c.looser + 1)).length = c.looser + 1 := by
    rw [List.length_take]
    omega
  refine ⟨fixed.take (c.looser + 1) ++ tighter, by simp [withDropped, eq], ?_, fun d mem => ?_,
    fun place i => ?_⟩
  · rw [List.length_append, length_eq, take_length]
    omega
  · rcases List.mem_append.1 mem with mem | mem
    · exact coherent.sizes d (List.mem_of_mem_take mem)
    · exact sizes d mem
  · by_cases left : place ≤ c.looser
    · rw [statusAt_append_left (by omega), statusAt_take (by omega), if_neg (by omega)]
    · have := coherent.length_eq
      have place_eq : c.looser + 1 + (place - (c.looser + 1)) = place := by omega
      rw [statusAt_append_right (by omega), take_length]
      by_cases lt : place < s.budgets.length
      · rw [status_eq _ (by rw [List.length_drop]; omega) i, statusAt_drop, place_eq]
        simp [not_le.1 left, lt]
      · rw [if_neg (by tauto), statusAt_of_length_le (by omega), statusAt_of_length_le (by omega)]

/-- The branch that keeps is coherent and decides more. -/
theorem exists_withKept :
    ∃ fixed', s.withKept fixed c = some fixed' ∧ s.Coherent fixed' ∧
      s.undecided fixed' < s.undecided fixed ∧
        ∀ place i, statusAt fixed' place i
          = if place ≤ c.looser ∧ i ∈ s.index.path c.item then .kept
            else statusAt fixed place i := by
  obtain ⟨fixed', eq, length_eq, sizes, status⟩ := statusAt_withKept indexed coherent undecided
  have index_eq : s.index = .ofForest s.knapsack.forest := indexed
  have trans {i a : Nat} (ia : i ∈ s.index.path c.item) (ai : a ∈ s.index.path i) :
      a ∈ s.index.path c.item := by
    rw [index_eq] at ia ai ⊢
    exact TreeIndex.mem_path_trans undecided.item_lt ai ia
  have place_lt := undecided.place_lt
  refine ⟨fixed', eq, ⟨length_eq.trans coherent.length_eq, sizes, ?_, ?_, ?_, ?_⟩, ?_, status⟩
  · intro place i lt must a above
    rw [status] at must ⊢
    have := coherent.kept_up place i lt
    grind
  · intro place i lt a above must
    rw [status] at must ⊢
    have := coherent.dropped_down place i lt a above
    grind
  · intro looser tighter i le lt must
    rw [status] at must ⊢
    have := coherent.kept_looser looser tighter i le lt
    grind
  · intro looser tighter i le tighter_lt lt must
    rw [status] at must ⊢
    have := coherent.dropped_tighter looser tighter i le tighter_lt lt
    grind
  · have self : c.item ∈ s.index.path c.item := by simp [TreeIndex.path]
    refine undecided_lt (by omega) undecided.item_lt undecided.looser_free ?_ fun place i free => ?_
    · simp [status, self]
    · rw [status] at free
      grind

/-- The branch that drops is coherent and decides more. -/
theorem exists_withDropped :
    ∃ fixed', s.withDropped fixed c = some fixed' ∧ s.Coherent fixed' ∧
      s.undecided fixed' < s.undecided fixed ∧
        ∀ place i, statusAt fixed' place i
          = if c.looser < place ∧ place < s.budgets.length ∧ i ∈ s.index.subtree c.item
            then .dropped else statusAt fixed place i := by
  obtain ⟨fixed', eq, length_eq, sizes, status⟩ := statusAt_withDropped indexed coherent undecided
  have index_eq : s.index = .ofForest s.knapsack.forest := indexed
  have below {i a : Nat} (lt : i < s.items) (ac : a ∈ s.index.subtree c.item)
      (ai : a ∈ s.index.path i) : i ∈ s.index.subtree c.item := by
    rw [index_eq] at ac ai ⊢
    have a_lt : a < sizeAll s.knapsack.forest := TreeIndex.lt_of_mem_path lt ai
    have ca := (TreeIndex.mem_path_iff a_lt).2 (TreeIndex.mem_subtree_iff.1 ac)
    exact TreeIndex.mem_subtree_iff.2
      ((TreeIndex.mem_path_iff lt).1 (TreeIndex.mem_path_trans lt ca ai))
  have place_lt := undecided.place_lt
  refine ⟨fixed', eq, ⟨length_eq.trans coherent.length_eq, sizes, ?_, ?_, ?_, ?_⟩, ?_, status⟩
  · intro place i lt must a above
    rw [status] at must ⊢
    have := coherent.kept_up place i lt
    grind
  · intro place i lt a above must
    rw [status] at must ⊢
    have := coherent.dropped_down place i lt a above
    grind
  · intro looser tighter i le lt must
    have tighter_lt : tighter < s.budgets.length := by
      by_contra outside
      have := coherent.length_eq
      rw [statusAt_of_length_le (by omega)] at must
      simp at must
    rw [status] at must ⊢
    have := coherent.kept_looser looser tighter i le lt
    grind
  · intro looser tighter i le tighter_lt lt must
    rw [status] at must ⊢
    have := coherent.dropped_tighter looser tighter i le tighter_lt lt
    grind
  · have self : c.item ∈ s.index.subtree c.item := by
      obtain ⟨e, entry⟩ := TreeIndex.exists_entry
        (show c.item < sizeAll s.knapsack.forest from undecided.item_lt)
      have : c.item < e.stop := (stop_bounds _ entry).1
      rw [index_eq, TreeIndex.mem_subtree_iff, TreeIndex.stop_of_mem entry]
      omega
    refine undecided_lt place_lt undecided.item_lt undecided.tighter_free ?_ fun place i free => ?_
    · simp [status, self, place_lt]
    · rw [status] at free
      grind

end Branches

end Search

end SureCode
