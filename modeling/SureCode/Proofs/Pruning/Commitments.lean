import Mathlib
import SureCode.Proofs.Costs
import SureCode.Proofs.Pruning.CostTable
import SureCode.Proofs.Pruning.Picks
import SureCode.Proofs.Tree.SideTable

/-!
# What is decided is honoured

How the tables of a knapsack come about and how a selection is read back from them, over any
scalars. Where costs are lawful every entry of a table equals itself, so whatever has an entry can
be read back to a selection (`reads_traceAll`). A solution therefore keeps each item only with its
parent and opens no more holes than allowed (`solve?_permits`), and it keeps all items that are to be
kept and drops all that are to be dropped (`solve?_agrees`). Nothing is said here about the cost of a
solution.
-/

namespace SureCode

open SureCode.Tree

/-! ### Forests of items -/

/-- The items are numbered in preorder from `start` on, and their costs are at least zero. -/
structure Itemized {κ : Type} [Scalar κ] (start : Nat) (ts : List (Tree (Item κ))) : Prop where
  order : InPreorder start ts
  costs : ∀ item ∈ preorderAll ts, Scalar.zero ≤ item.cost

namespace Itemized

variable {κ : Type} [Scalar κ] {start : Nat} {item : Item κ} {us ts : List (Tree (Item κ))}

theorem split (itemized : Itemized start (node item us :: ts)) :
    item.number = start ∧ Itemized (start + 1) us ∧ Itemized (start + 1 + sizeAll us) ts := by
  obtain ⟨order, costs⟩ := itemized
  obtain ⟨number, below, rest⟩ := order.split
  obtain ⟨-, costs_below, costs_rest⟩ := forall_mem_preorderAll_cons.1 costs
  exact ⟨number, ⟨below, costs_below⟩, ⟨rest, costs_rest⟩⟩

theorem cost (itemized : Itemized start (node item us :: ts)) : Scalar.zero ≤ item.cost :=
  itemized.costs item (by simp [preorderAll])

end Itemized

/-! ### Tables -/

namespace CostTable

variable {κ : Type} [Scalar κ]

/-- Every entry of a table is in one of its rows and at least zero. -/
def Sound (rows : Nat) (table : CostTable κ) : Prop :=
  ∀ holes count x, table.cost? holes count = some x → holes < rows ∧ Scalar.zero ≤ x

theorem sound_tabulate {rows columns : Nat} {cost : Nat → Nat → Option κ}
    (nonneg : ∀ holes count x, cost holes count = some x → Scalar.zero ≤ x) :
    (tabulate rows columns cost).Sound rows := by
  intro holes count x entry
  rw [cost?_tabulate] at entry
  split_ifs at entry with inside
  exact ⟨inside.1, nonneg holes count x entry⟩

theorem sound_nothing [LawfulCosts κ] (rows : Nat) : (nothing rows : CostTable κ).Sound rows := by
  refine sound_tabulate fun holes count x entry => ?_
  split_ifs at entry
  exact Option.some.inj entry ▸ LawfulCosts.zero_le_zero

theorem sound_single {cost : κ} (nonneg : Scalar.zero ≤ cost) (rows : Nat) :
    (single rows cost).Sound rows := by
  refine sound_tabulate fun holes count x entry => ?_
  split_ifs at entry
  exact Option.some.inj entry ▸ nonneg

theorem cost?_nothing {rows holes count : Nat} {x : κ}
    (eq : (nothing rows).cost? holes count = some x) :
    holes = 0 ∧ count = 0 ∧ x = Scalar.zero := by
  rw [nothing, cost?_tabulate] at eq
  split_ifs at eq with inside zero
  exact ⟨zero, by omega, (Option.some.inj eq).symm⟩

theorem cost?_single {rows holes count : Nat} {cost x : κ}
    (eq : (single rows cost).cost? holes count = some x) : holes = 0 ∧ count = 1 ∧ x = cost := by
  rw [single, cost?_tabulate] at eq
  split_ifs at eq with inside one
  exact ⟨one.1, one.2, (Option.some.inj eq).symm⟩

end CostTable

namespace Knapsack

variable {κ : Type} [Scalar κ] {k : Knapsack κ} {status : Nat → Status}

/-! ### Taking in one item -/

section Extend

variable {left : CostTable κ} {holes count : Nat} {decided : Status}

/-- The cost of dropping an item, unless it is to be kept. -/
def dropped? (k : Knapsack κ) (decided : Status) (left : CostTable κ) (holes count : Nat) :
    Option κ :=
  if decided = .kept then none else k.dropCost? left holes count

omit [Scalar κ] in
theorem dropped?_eq_some {x : κ} (eq : k.dropped? decided left holes count = some x) :
    decided ≠ .kept ∧ k.dropCost? left holes count = some x := by
  unfold dropped? at eq
  split at eq
  · simp at eq
  · exact ⟨‹_›, eq⟩

theorem cost?_extend_none :
    (k.extend left decided none).cost? holes count =
      if holes < k.rows ∧ count < left.columns then k.dropped? decided left holes count
      else none :=
  CostTable.cost?_tabulate ..

theorem cost?_extend_some {own : CostTable κ} :
    (k.extend left decided (some own)).cost? holes count =
      if holes < k.rows ∧ count < left.columns + own.columns - 1 then
        (k.splits left own holes count).foldl (fun least s => cheaper least (splitCost? left own s))
          (k.dropped? decided left holes count)
      else none :=
  CostTable.cost?_tabulate ..

/-- An entry after one item is an entry before it with the item dropped, or divides between an entry
before it and one of its own table. -/
theorem cost?_extend {own : Option (CostTable κ)} {x : κ}
    (eq : (k.extend left decided own).cost? holes count = some x) :
    (decided ≠ .kept ∧ k.dropCost? left holes count = some x) ∨
      ∃ o s, own = some o ∧ s ∈ k.splits left o holes count ∧ splitCost? left o s = some x := by
  cases own with
  | none =>
    rw [cost?_extend_none] at eq
    split_ifs at eq
    exact .inl (dropped?_eq_some eq)
  | some own =>
    rw [cost?_extend_some] at eq
    split_ifs at eq
    rcases foldl_cheaper_eq_some eq with eq | ⟨s, mem, eq⟩
    · exact .inl (dropped?_eq_some eq)
    · exact .inr ⟨own, s, rfl, mem, eq⟩

theorem row_lt_of_cost?_extend {own : Option (CostTable κ)} {x : κ}
    (eq : (k.extend left decided own).cost? holes count = some x) : holes < k.rows := by
  cases own with
  | none =>
    rw [cost?_extend_none] at eq
    split_ifs at eq with inside
    exact inside.1
  | some own =>
    rw [cost?_extend_some] at eq
    split_ifs at eq with inside
    exact inside.1

theorem sound_extend [LawfulCosts κ] {own : Option (CostTable κ)} (left_sound : left.Sound k.rows)
    (own_sound : ∀ o, own = some o → o.Sound k.rows) :
    (k.extend left decided own).Sound k.rows := by
  intro holes count x entry
  refine ⟨row_lt_of_cost?_extend entry, ?_⟩
  obtain ⟨-, drop⟩ | ⟨o, s, own_eq, -, cost⟩ := cost?_extend entry
  · obtain ⟨row, -, before⟩ := Option.bind_eq_some_iff.1 drop
    exact (left_sound row count x before).2
  · obtain ⟨y, z, left_entry, own_entry, rfl⟩ := addCosts_eq_some cost
    exact LawfulCosts.add_nonneg y z (left_sound _ _ y left_entry).2
      (own_sound o own_eq _ _ z own_entry).2

omit [Scalar κ] in
theorem mem_splits {own : CostTable κ} (lt : holes < k.rows) {s : Split} :
    s ∈ k.splits left own holes count ↔
      (s.holesLeft < k.rows ∧ s.holesOwn < k.rows ∧
        holes = k.maxHoles.add s.holesLeft s.holesOwn) ∧
      s.countLeft < left.columns ∧ s.countOwn < own.columns ∧
        count = s.countLeft + s.countOwn := by
  obtain ⟨holesLeft, countLeft, holesOwn, countOwn⟩ := s
  have pair : (holesLeft, holesOwn) ∈ k.maxHoles.splits holes ↔
      holesLeft < k.rows ∧ holesOwn < k.rows ∧ holes = k.maxHoles.add holesLeft holesOwn :=
    HoleBudget.mem_splits lt
  simp only [splits, List.mem_flatMap, List.mem_map, List.mem_range'_1, Split.mk.injEq, Prod.exists]
  rw [← pair]
  constructor
  · rintro ⟨_, _, mem, c, range, rfl, rfl, rfl, rfl⟩
    refine ⟨mem, ?_⟩
    omega
  · rintro ⟨mem, left_lt, own_lt, rfl⟩
    exact ⟨holesLeft, holesOwn, mem, countLeft, by omega, rfl, rfl, rfl, by omega⟩

end Extend

/-! ### Taking in a forest -/

section Steps

variable {before : CostTable κ} {start : Nat} {item : Item κ} {us ts : List (Tree (Item κ))}

/-- The table of an item with what is below it. -/
def ownTable (k : Knapsack κ) (status : Nat → Status) (item : Item κ) (us : List (Tree (Item κ))) :
    CostTable κ :=
  (k.steps status (.single k.rows item.cost) us).2

/-- The table after one item. -/
def after (k : Knapsack κ) (status : Nat → Status) (before : CostTable κ) (item : Item κ)
    (us : List (Tree (Item κ))) : CostTable κ :=
  (k.step status before (node item us)).label.after

theorem step_of_dropped (dropped : status item.number = .dropped) :
    k.step status before (node item us)
      = node ⟨item.number, .dropped, before, none, k.extend before .dropped none⟩ [] := by
  simp [step, dropped]

theorem step_of_not_dropped (may : status item.number ≠ .dropped) :
    k.step status before (node item us)
      = node ⟨item.number, status item.number, before, some (k.ownTable status item us),
          k.extend before (status item.number) (some (k.ownTable status item us))⟩
        (k.steps status (.single k.rows item.cost) us).1 := by
  rw [step]
  split
  · exact absurd ‹_› may
  · rfl

theorem steps_nil : k.steps status before [] = ([], before) := by
  rw [steps]

theorem steps_cons : k.steps status before (node item us :: ts)
    = (k.step status before (node item us) :: (k.steps status (k.after status before item us) ts).1,
        (k.steps status (k.after status before item us) ts).2) := by
  rw [steps]
  rfl

theorem after_of_dropped (dropped : status item.number = .dropped) :
    k.after status before item us = k.extend before .dropped none := by
  rw [after, step_of_dropped dropped, label_node]

theorem after_of_not_dropped (may : status item.number ≠ .dropped) :
    k.after status before item us
      = k.extend before (status item.number) (some (k.ownTable status item us)) := by
  rw [after, step_of_not_dropped may, label_node]

theorem sound_after [LawfulCosts κ] (table : before.Sound k.rows)
    (own : (k.ownTable status item us).Sound k.rows) :
    (k.after status before item us).Sound k.rows := by
  by_cases dropped : status item.number = .dropped
  · rw [after_of_dropped dropped]
    exact sound_extend table nofun
  · rw [after_of_not_dropped dropped]
    exact sound_extend table fun o eq => Option.some.inj eq ▸ own

theorem sound_steps [LawfulCosts κ] (itemized : Itemized start ts) (table : before.Sound k.rows) :
    (k.steps status before ts).2.Sound k.rows := by
  induction ts using forest_induction generalizing start before with
  | nil => rwa [steps_nil]
  | cons item us ts below rest =>
    obtain ⟨-, itemized_below, itemized_rest⟩ := itemized.split
    rw [steps_cons]
    exact rest itemized_rest
      (sound_after table (below itemized_below (CostTable.sound_single itemized.cost k.rows)))

end Steps

/-! ### Reading back -/

section Trace

variable {before : CostTable κ} {start holes count : Nat} {item : Item κ}
  {us ts : List (Tree (Item κ))} {s : Step κ} {below : List (Tree (Step κ))} {x : κ} {row : Nat}
  {split : Split} {above : List Nat}

/-- Every entry after an item can be read back one step, if it equals itself. -/
theorem exists_way (s : Step κ) (self : (x == x) = true)
    (way : (s.status ≠ .kept ∧ k.dropCost? s.before holes count = some x) ∨
      ∃ own split, s.own = some own ∧ split ∈ k.splits s.before own holes count ∧
        splitCost? s.before own split = some x) :
    (∃ row, k.droppedFrom? s holes count x = some row) ∨
      k.droppedFrom? s holes count x = none ∧
        ∃ split, k.keptBy? s holes count x = some split := by
  cases dropped : k.droppedFrom? s holes count x with
  | some row => exact .inl ⟨row, rfl⟩
  | none =>
    refine .inr ⟨rfl, ?_⟩
    rcases way with ⟨may, drop⟩ | ⟨own, split, own_eq, mem, cost⟩
    · obtain ⟨row, fresh, cost⟩ := Option.bind_eq_some_iff.1 drop
      simp [droppedFrom?, may, fresh, cost, self] at dropped
    · refine Option.isSome_iff_exists.1 ?_
      simp only [keptBy?, own_eq, Option.bind_some, List.find?_isSome]
      exact ⟨split, mem, by simp [cost, self]⟩

theorem trace_of_dropped (entry : s.after.cost? holes count = some x)
    (way : k.droppedFrom? s holes count x = some row) :
    k.trace holes count (node s below) = ([], row, count) := by
  simp only [trace, entry, way]

theorem trace_of_kept (entry : s.after.cost? holes count = some x)
    (way : k.droppedFrom? s holes count x = none)
    (way' : k.keptBy? s holes count x = some split) :
    k.trace holes count (node s below)
      = (s.item :: (k.traceAll split.holesOwn split.countOwn below).1, split.holesLeft,
          split.countLeft) := by
  simp only [trace, entry, way, way']

/-- What equals a cost is one. -/
theorem exists_of_beq_some {o : Option κ} (same : (o == some x) = true) : ∃ y, o = some y := by
  cases o with
  | none => cases same
  | some y => exact ⟨y, rfl⟩

theorem droppedFrom?_eq_some {s : Step κ} (eq : k.droppedFrom? s holes count x = some row) :
    s.status ≠ .kept ∧ k.maxHoles.beforeFresh? holes = some row ∧
      (s.before.cost? row count == some x) = true := by
  unfold droppedFrom? at eq
  split at eq
  · cases eq
  · exact ⟨‹_›, Option.filter_eq_some_iff.1 eq⟩

theorem keptBy?_eq_some {s : Step κ} (eq : k.keptBy? s holes count x = some split) :
    ∃ own, s.own = some own ∧ split ∈ k.splits s.before own holes count ∧
      (splitCost? s.before own split == some x) = true := by
  obtain ⟨own, own_eq, found⟩ := Option.bind_eq_some_iff.1 eq
  have same := List.find?_some found
  exact ⟨own, own_eq, List.mem_of_find?_eq_some found, same⟩

/-- How an entry after an item is read back. The item was dropped and the entry comes from one before
the item, or it was kept and the entry is divided between one before the item and one of its own
table, with which reading goes on below it. -/
theorem trace_step_cases (self : (x == x) = true)
    (entry : (k.after status before item us).cost? holes count = some x) :
    (∃ row, status item.number ≠ .kept ∧ k.maxHoles.beforeFresh? holes = some row ∧
        (before.cost? row count == some x) = true ∧
        k.trace holes count (k.step status before (node item us)) = ([], row, count)) ∨
      ∃ split, status item.number ≠ .dropped ∧
        split ∈ k.splits before (k.ownTable status item us) holes count ∧
        (splitCost? before (k.ownTable status item us) split == some x) = true ∧
        k.trace holes count (k.step status before (node item us))
          = (item.number :: (k.traceAll split.holesOwn split.countOwn
              (k.steps status (.single k.rows item.cost) us).1).1, split.holesLeft,
              split.countLeft) := by
  by_cases dropped : status item.number = .dropped
  · rw [after_of_dropped dropped] at entry
    rw [step_of_dropped dropped]
    rcases exists_way ⟨item.number, .dropped, before, none, k.extend before .dropped none⟩ self
      (cost?_extend entry) with ⟨row, way⟩ | ⟨-, split, way⟩
    · obtain ⟨-, fresh, same⟩ := droppedFrom?_eq_some way
      exact .inl ⟨row, by simp [dropped], fresh, same, trace_of_dropped entry way⟩
    · cases way
  · rw [after_of_not_dropped dropped] at entry
    rw [step_of_not_dropped dropped]
    rcases exists_way ⟨item.number, status item.number, before, some (k.ownTable status item us),
        k.extend before (status item.number) (some (k.ownTable status item us))⟩ self
      (cost?_extend entry) with ⟨row, way⟩ | ⟨way, split, way'⟩
    · obtain ⟨may, fresh, same⟩ := droppedFrom?_eq_some way
      exact .inl ⟨row, may, fresh, same, trace_of_dropped entry way⟩
    · obtain ⟨_, own_eq, mem, same⟩ := keptBy?_eq_some way'
      obtain rfl := Option.some.inj own_eq
      exact .inr ⟨split, dropped, mem, same, trace_of_kept entry way way'⟩

/-- What reading back gives: a selection, whatever its prices, and the place of an entry before it. -/
structure Reads (k : Knapsack κ) (status : Nat → Status) (before : CostTable κ)
    (ts : List (Tree (Item κ))) (holes : Nat) (read : List Nat × Nat × Nat) : Prop where
  entry : ∃ x, before.cost? read.2.1 read.2.2 = some x
  picks : ∀ price : Item κ → ℚ, ∃ opened cost, Picks price status ts read.1 opened cost ∧
    holes = k.maxHoles.add read.2.1 opened

omit [Scalar κ] in
/-- An item that was dropped when the entry was made. -/
theorem Reads.drop (may : status item.number ≠ .kept) (rows : holes = k.maxHoles.add row 1)
    (entry : before.cost? row count = some x) :
    Reads k status before [node item us] holes ([], row, count) :=
  ⟨⟨x, entry⟩, fun _ => ⟨1, 0, .drop may .nil, rows⟩⟩

/-- An item that was kept when the entry was made. -/
theorem Reads.keep {read : List Nat × Nat × Nat} (may : status item.number ≠ .dropped)
    (rows : holes = k.maxHoles.add split.holesLeft split.holesOwn)
    (entry : before.cost? split.holesLeft split.countLeft = some x)
    (below : Reads k status (.single k.rows item.cost) us split.holesOwn read) :
    Reads k status before [node item us] holes
      (item.number :: read.1, split.holesLeft, split.countLeft) := by
  obtain ⟨⟨y, entry_below⟩, picks_below⟩ := below
  obtain ⟨row_zero, -, -⟩ := CostTable.cost?_single entry_below
  refine ⟨⟨x, entry⟩, fun price => ?_⟩
  obtain ⟨opened, cost, picks, rows_below⟩ := picks_below price
  refine ⟨opened, price item + cost, ?_, ?_⟩
  · simpa using Picks.keep may picks .nil
  · rw [rows, rows_below, row_zero, HoleBudget.add_add_zero]

/-- Reading back one step, when the steps below it can be read back. -/
theorem reads_trace [LawfulCosts κ] (itemized : Itemized start (node item us :: ts))
    (table : before.Sound k.rows)
    (below : ∀ {holes count x}, (k.ownTable status item us).cost? holes count = some x →
      Reads k status (.single k.rows item.cost) us holes
        (k.traceAll holes count (k.steps status (.single k.rows item.cost) us).1))
    (entry : (k.after status before item us).cost? holes count = some x) :
    Reads k status before [node item us] holes
      (k.trace holes count (k.step status before (node item us))) := by
  obtain ⟨-, itemized_below, -⟩ := itemized.split
  have own : (k.ownTable status item us).Sound k.rows :=
    sound_steps itemized_below (CostTable.sound_single itemized.cost k.rows)
  obtain ⟨lt, nonneg⟩ := sound_after table own _ _ x entry
  rcases trace_step_cases (LawfulCosts.beq_self x nonneg) entry with
    ⟨row, may, fresh, same, read⟩ | ⟨split, may, mem, same, read⟩
  · obtain ⟨y, before_entry⟩ := exists_of_beq_some same
    rw [read]
    exact .drop may ((HoleBudget.beforeFresh?_eq_some lt).1 fresh).2 before_entry
  · obtain ⟨⟨-, -, rows⟩, -⟩ := (mem_splits lt).1 mem
    obtain ⟨w, sum⟩ := exists_of_beq_some same
    obtain ⟨y, z, before_entry, own_entry, -⟩ := addCosts_eq_some sum
    rw [read]
    exact .keep may rows before_entry (below own_entry)

/-- Every entry can be read back to a selection. -/
theorem reads_traceAll [LawfulCosts κ] (itemized : Itemized start ts) (table : before.Sound k.rows)
    (entry : (k.steps status before ts).2.cost? holes count = some x) :
    Reads k status before ts holes (k.traceAll holes count (k.steps status before ts).1) := by
  induction ts using forest_induction generalizing start before holes count x with
  | nil =>
    rw [steps_nil] at entry ⊢
    exact ⟨⟨x, entry⟩, fun _ =>
      ⟨0, 0, .nil, (HoleBudget.add_zero_of_lt (table holes count x entry).1).symm⟩⟩
  | cons item us ts below rest =>
    obtain ⟨-, itemized_below, itemized_rest⟩ := itemized.split
    have own_table := CostTable.sound_single itemized.cost k.rows
    have own : (k.ownTable status item us).Sound k.rows := sound_steps itemized_below own_table
    rw [steps_cons] at entry ⊢
    obtain ⟨⟨y, entry_first⟩, picks_rest⟩ := rest itemized_rest (sound_after table own) entry
    obtain ⟨first, picks_first⟩ := reads_trace itemized table
      (fun own_entry => below itemized_below own_table own_entry) entry_first
    rw [traceAll]
    refine ⟨first, fun price => ?_⟩
    obtain ⟨opened₂, cost₂, picks₂, rows₂⟩ := picks_rest price
    obtain ⟨opened₁, cost₁, picks₁, rows₁⟩ := picks_first price
    exact ⟨_, _, picks₁.cons picks₂, rows₂.trans
      ((congrArg (k.maxHoles.add · opened₂) rows₁).trans HoleBudget.add_add)⟩

end Trace

/-! ### Sets of kept items -/

section Sets

variable {κ : Type}

/-- The items with their numbers and what is above them. -/
def numbered (k : Knapsack κ) : List (Entry (Item κ) × Nat) := Tree.numbered [] 0 k.forest

/-- A set of kept items is closed and opens no more holes than allowed. -/
structure Permits (k : Knapsack κ) (kept : Nat → Bool) : Prop where
  closed : ClosedOn kept k.numbered
  allows : k.maxHoles.Allows (holesOn kept k.numbered)

/-- A set of kept items agrees with what is decided. -/
def Agrees (k : Knapsack κ) (status : Nat → Status) (kept : Nat → Bool) : Prop :=
  ∀ i < k.size, (status i = .kept → kept i = true) ∧ (status i = .dropped → kept i = false)

end Sets

/-! ### Solutions -/

section Rows

variable {table : CostTable κ} {budget : κ} {count row : Nat}

/-- The better of the best row so far and another row. -/
def better (table : CostTable κ) (budget : κ) (count : Nat) (best : Option (Nat × κ))
    (holes : Nat) : Option (Nat × κ) :=
  match table.cost? holes count with
  | none => best
  | some cost =>
    if !fits budget cost then best
    else match best with
      | none => some (holes, cost)
      | some (_, least) => if Scalar.totalLt cost least then some (holes, cost) else best

theorem cheapestRow?_eq (k : Knapsack κ) :
    k.cheapestRow? table budget count
      = ((List.range k.rows).foldl (better table budget count) none).map (·.1) := rfl

/-- The better of two rows is one of them. -/
theorem better_eq_some {best : Option (Nat × κ)} {holes : Nat} {x : κ}
    (eq : better table budget count best holes = some (row, x)) :
    best = some (row, x) ∨ row = holes ∧ table.cost? holes count = some x := by
  unfold better at eq
  split at eq
  case h_1 => exact .inl eq
  case h_2 cost entry =>
    have here (taken : some (holes, cost) = some (row, x)) :
        row = holes ∧ table.cost? holes count = some x := by
      obtain ⟨rfl, rfl⟩ := Prod.mk.inj (Option.some.inj taken)
      exact ⟨rfl, entry⟩
    split at eq
    · exact .inl eq
    · split at eq
      · exact .inr (here eq)
      · split at eq
        · exact .inr (here eq)
        · exact .inl eq

theorem exists_of_cheapestRow? (eq : k.cheapestRow? table budget count = some row) :
    ∃ x, table.cost? row count = some x := by
  have entry (rows : List Nat) (x : κ)
      (best : rows.foldl (better table budget count) none = some (row, x)) :
      table.cost? row count = some x := by
    induction rows using List.reverseRecOn with
    | nil => cases best
    | append_singleton rows holes ih =>
      rw [List.foldl_append, List.foldl_cons, List.foldl_nil] at best
      obtain best | ⟨rfl, here⟩ := better_eq_some best
      · exact ih best
      · exact here
  rw [cheapestRow?_eq, Option.map_eq_some_iff] at eq
  obtain ⟨⟨_, x⟩, best, rfl⟩ := eq
  exact ⟨x, entry _ x best⟩

end Rows

section Solve

variable {budget : κ} {selection : Selection}

theorem keeps_selectionOf {size count item : Nat} {items : List Nat} :
    (selectionOf size count items).keeps item = true ↔ item ∈ items ∧ item < size := by
  have kept : (selectionOf size count items).kept
      = items.foldl (fun table i => table.replace i true) (.filled size false) := rfl
  rw [Selection.keeps, kept, SideTable.get?_foldl_replace, SideTable.size_filled,
    SideTable.get?_filled]
  by_cases mem : item ∈ items <;> by_cases lt : item < size <;> simp [mem, lt]

/-- The table after all items. -/
def table (k : Knapsack κ) (status : Nat → Status) : CostTable κ :=
  (k.steps status (.nothing k.rows) k.forest).2

theorem solve?_eq : k.solve? status budget
    = (List.range (k.table status).columns).reverse.findSome? fun count =>
        (k.cheapestRow? (k.table status) budget count).map fun holes =>
          selectionOf k.size count
            (k.traceAll holes count (k.steps status (.nothing k.rows) k.forest).1).1 := rfl

/-- A solution is one of an entry that can be read back. -/
theorem exists_of_solve? (eq : k.solve? status budget = some selection) :
    ∃ row count x, (k.table status).cost? row count = some x ∧ selection = selectionOf k.size count
      (k.traceAll row count (k.steps status (.nothing k.rows) k.forest).1).1 := by
  rw [solve?_eq] at eq
  obtain ⟨count, -, found⟩ := List.exists_of_findSome?_eq_some eq
  obtain ⟨row, cheapest, rfl⟩ := Option.map_eq_some_iff.1 found
  obtain ⟨x, entry⟩ := exists_of_cheapestRow? cheapest
  exact ⟨row, count, x, entry, rfl⟩

/-- A solution keeps items only. -/
theorem lt_of_solve? (eq : k.solve? status budget = some selection) {i : Nat}
    (keep : selection.keeps i = true) : i < k.size := by
  obtain ⟨row, count, x, -, rfl⟩ := exists_of_solve? eq
  exact (keeps_selectionOf.1 keep).2

section Lawful

variable [LawfulCosts κ] (itemized : Itemized 0 k.forest)
  (eq : k.solve? status budget = some selection)

include itemized eq

/-- A solution is a selection, whatever its prices. -/
theorem exists_picks_of_solve? (price : Item κ → ℚ) :
    ∃ items opened cost, Picks price status k.forest items opened cost ∧
      k.maxHoles.Allows opened ∧ ∀ i, selection.keeps i = true ↔ i ∈ items := by
  obtain ⟨row, count, x, entry, rfl⟩ := exists_of_solve? eq
  have lt : row < k.rows := (sound_steps itemized (CostTable.sound_nothing k.rows) row count x entry).1
  obtain ⟨⟨y, first⟩, reads⟩ := reads_traceAll itemized (CostTable.sound_nothing k.rows) entry
  obtain ⟨opened, cost, picks, rows⟩ := reads price
  obtain ⟨row_zero, -, -⟩ := CostTable.cost?_nothing first
  rw [row_zero] at rows
  refine ⟨_, opened, cost, picks, HoleBudget.allows_of_add_lt (rows ▸ lt), fun i => ?_⟩
  rw [keeps_selectionOf]
  refine and_iff_left_of_imp fun mem => ?_
  have := picks.bounds itemized.order i mem
  rw [size]
  omega

/-- A solution is closed and opens no more holes than allowed. -/
theorem solve?_permits : k.Permits selection.keeps := by
  obtain ⟨items, opened, cost, picks, allows, same⟩ := exists_picks_of_solve? itemized eq fun _ => 0
  obtain ⟨closed, -, holes_eq, -⟩ :=
    picks.accounts [] itemized.order (fun i _ _ => same i) rfl
  exact ⟨closed, by rwa [numbered, holes_eq]⟩

/-- A solution keeps what is to be kept and drops what is to be dropped. -/
theorem solve?_agrees (closed : ClosedOn (fun i => status i == .kept) k.numbered) :
    k.Agrees status selection.keeps := by
  obtain ⟨items, opened, cost, picks, -, same⟩ := exists_picks_of_solve? itemized eq fun _ => 0
  refine fun i lt => ⟨fun must => ?_, fun must => ?_⟩
  · rw [same]
    exact picks.mem_of_kept itemized.order closed i (Nat.zero_le i) (by rw [← size]; omega) must
  · rw [Bool.eq_false_iff, ne_eq, same]
    exact fun mem => picks.not_dropped mem must

end Lawful

end Solve

end Knapsack

end SureCode
