import Mathlib
import SureCode.Proofs.Exact
import SureCode.Proofs.Tree.Index
import SureCode.Pruning.Knapsack

/-!
# Selections of a forest of items

There are two views of what may be kept of a forest. `Picks` builds a selection item by item in the
order of the numbers and adds up its holes and its cost at some prices; tables and their traces are
compared with it. `ClosedOn` says of a set of kept items that each is kept with its parent, and
`holesOn` and `costOn` read holes and cost off the set. `Picks.of_closed` and `Picks.accounts` say
that the two views agree on every forest that is numbered like an outline, whatever the prices.
-/

namespace SureCode

open SureCode.Tree Exact

/-- A forest of items. -/
abbrev Forest := List (Tree (Item Exact))

/-! ### Forests of an outline -/

/-- The items of a forest are numbered in preorder from `start` on. -/
def InPreorder {κ : Type} (start : Nat) (ts : List (Tree (Item κ))) : Prop :=
  (preorderAll ts).map (·.number) = List.range' start (sizeAll ts)

theorem InPreorder.split {κ : Type} {start : Nat} {item : Item κ} {us ts : List (Tree (Item κ))}
    (numbers : InPreorder start (node item us :: ts)) :
    item.number = start ∧ InPreorder (start + 1) us ∧ InPreorder (start + 1 + sizeAll us) ts := by
  have size : sizeAll (node item us :: ts) = sizeAll us + sizeAll ts + 1 := by
    simp only [sizeAll, size_node]
    omega
  simp only [InPreorder, size, preorderAll, preorder_node, List.cons_append, List.map_cons,
    List.map_append, List.range'_succ, ← List.range'_append_1, List.cons.injEq] at numbers
  have lengths : ((preorderAll us).map (·.number)).length
      = (List.range' (start + 1) (sizeAll us)).length := by
    simp [length_preorderAll]
  obtain ⟨below, rest⟩ := List.append_inj numbers.2 lengths
  exact ⟨numbers.1, below, rest⟩

/-- The cost of an item as a rational number. -/
def Item.price (item : Item Exact) : ℚ :=
  match item.cost with
  | Exact.number x => x
  | _ => 0

/-- The items are numbered in preorder from `start` on, and their costs are numbers. -/
structure Proper (start : Nat) (ts : Forest) : Prop where
  numbers : (preorderAll ts).map (·.number) = List.range' start (sizeAll ts)
  costs : ∀ item ∈ preorderAll ts, ∃ x : ℚ, 0 ≤ x ∧ item.cost = number x

namespace Proper

variable {start : Nat} {item : Item Exact} {us ts : Forest}

theorem split (proper : Proper start (node item us :: ts)) :
    item.number = start ∧ Proper (start + 1) us ∧ Proper (start + 1 + sizeAll us) ts := by
  obtain ⟨numbers, costs⟩ := proper
  obtain ⟨number, below, rest⟩ := InPreorder.split numbers
  obtain ⟨-, costs_below, costs_rest⟩ := forall_mem_preorderAll_cons.1 costs
  exact ⟨number, ⟨below, costs_below⟩, ⟨rest, costs_rest⟩⟩

theorem cost (proper : Proper start (node item us :: ts)) :
    0 ≤ item.price ∧ item.cost = number item.price := by
  obtain ⟨x, nonneg, eq⟩ := proper.costs item (by simp [preorderAll])
  have price : item.price = x := by simp [Item.price, eq]
  exact price.symm ▸ ⟨nonneg, eq⟩

end Proper

/-! ### Selections item by item -/

/-- A selection that agrees with what is decided, by the numbers of its items, the number of its
holes and its cost. -/
inductive Picks {κ : Type} (price : Item κ → ℚ) (status : Nat → Status) :
    List (Tree (Item κ)) → List Nat → Nat → ℚ → Prop
  | nil : Picks price status [] [] 0 0
  | drop {item us ts kept holes cost} (may : status item.number ≠ .kept)
      (rest : Picks price status ts kept holes cost) :
      Picks price status (node item us :: ts) kept (holes + 1) cost
  | keep {item us ts kept₁ holes₁ cost₁ kept₂ holes₂ cost₂} (may : status item.number ≠ .dropped)
      (below : Picks price status us kept₁ holes₁ cost₁)
      (rest : Picks price status ts kept₂ holes₂ cost₂) :
      Picks price status (node item us :: ts) (item.number :: (kept₁ ++ kept₂)) (holes₁ + holes₂)
        (price item + cost₁ + cost₂)

namespace Picks

variable {κ : Type} {price : Item κ → ℚ} {status : Nat → Status} {start holes : Nat}
  {ts : List (Tree (Item κ))} {kept : List Nat} {cost : ℚ}

theorem cons {t : Tree (Item κ)} {kept₁ kept₂ : List Nat} {holes₁ holes₂ : Nat}
    {cost₁ cost₂ : ℚ} (first : Picks price status [t] kept₁ holes₁ cost₁)
    (rest : Picks price status ts kept₂ holes₂ cost₂) :
    Picks price status (t :: ts) (kept₁ ++ kept₂) (holes₁ + holes₂) (cost₁ + cost₂) := by
  cases first with
  | drop may none =>
    cases none
    rw [List.nil_append, zero_add, add_comm 1, zero_add]
    exact .drop may rest
  | keep may below none =>
    cases none
    rw [List.append_nil, add_zero, add_zero]
    exact .keep may below rest

/-- Every item of a selection and every hole is an item of the forest. -/
theorem length_add_holes_le (picks : Picks price status ts kept holes cost) :
    kept.length + holes ≤ sizeAll ts := by
  induction picks with
  | nil => simp [sizeAll]
  | drop may rest ih =>
    simp only [sizeAll, size_node]
    omega
  | keep may below rest ih₁ ih₂ =>
    simp only [sizeAll, size_node, List.length_cons, List.length_append]
    omega

theorem bounds (picks : Picks price status ts kept holes cost) (order : InPreorder start ts) :
    ∀ i ∈ kept, start ≤ i ∧ i < start + sizeAll ts := by
  induction picks generalizing start with
  | nil => simp
  | drop may rest ih =>
    intro i mem
    obtain ⟨-, -, order⟩ := order.split
    have := ih order i mem
    simp only [sizeAll, size_node]
    omega
  | keep may below rest ih₁ ih₂ =>
    intro i mem
    obtain ⟨number, order₁, order₂⟩ := order.split
    simp only [sizeAll, size_node]
    rcases List.mem_cons.1 mem with rfl | mem
    · omega
    · rcases List.mem_append.1 mem with mem | mem
      · have := ih₁ order₁ i mem
        omega
      · have := ih₂ order₂ i mem
        omega

theorem cost_nonneg {ts : Forest} (picks : Picks Item.price status ts kept holes cost)
    (proper : Proper start ts) : 0 ≤ cost := by
  induction picks generalizing start with
  | nil => exact le_rfl
  | drop may rest ih =>
    obtain ⟨-, -, proper⟩ := proper.split
    exact ih proper
  | keep may below rest ih₁ ih₂ =>
    obtain ⟨nonneg, -⟩ := proper.cost
    obtain ⟨-, proper₁, proper₂⟩ := proper.split
    have := ih₁ proper₁
    have := ih₂ proper₂
    positivity

end Picks

/-! ### Selections as sets -/

section Sets

variable {α : Type}

/-- Whether the node above is kept, if there is one. -/
def Tree.Entry.parentKept (kept : Nat → Bool) (e : Entry α) : Bool := e.ancestors.head?.all kept

/-- Each kept node among some numbered ones has its parent kept. -/
def ClosedOn (kept : Nat → Bool) (rows : List (Entry α × Nat)) : Prop :=
  ∀ p ∈ rows, kept p.2 = true → p.1.parentKept kept = true

/-- The numbers of the kept nodes. -/
def keptOn (kept : Nat → Bool) (rows : List (Entry α × Nat)) : List Nat :=
  (rows.filter fun p => kept p.2).map (·.2)

/-- The number of dropped nodes whose parent is kept. -/
def holesOn (kept : Nat → Bool) (rows : List (Entry α × Nat)) : Nat :=
  rows.countP fun p => !kept p.2 && p.1.parentKept kept

/-- The summed cost of the kept nodes. -/
def costOn (cost : α → ℚ) (kept : Nat → Bool) (rows : List (Entry α × Nat)) : ℚ :=
  ((rows.filter fun p => kept p.2).map fun p => cost p.1.label).sum

variable {kept : Nat → Bool} {rows rows' : List (Entry α × Nat)} {cost : α → ℚ}

theorem closedOn_append :
    ClosedOn kept (rows ++ rows') ↔ ClosedOn kept rows ∧ ClosedOn kept rows' := by
  simp only [ClosedOn, List.mem_append, or_imp, forall_and]

theorem closedOn_cons {p : Entry α × Nat} :
    ClosedOn kept (p :: rows) ↔
      (kept p.2 = true → p.1.parentKept kept = true) ∧ ClosedOn kept rows := by
  simp only [ClosedOn, List.mem_cons, forall_eq_or_imp]

theorem keptOn_cons {p : Entry α × Nat} :
    keptOn kept (p :: rows) = if kept p.2 then p.2 :: keptOn kept rows else keptOn kept rows := by
  cases keep : kept p.2 <;> simp [keptOn, keep]

theorem holesOn_cons {p : Entry α × Nat} :
    holesOn kept (p :: rows)
      = holesOn kept rows + if !kept p.2 && p.1.parentKept kept then 1 else 0 := by
  simp [holesOn, List.countP_cons]

theorem costOn_cons {p : Entry α × Nat} :
    costOn cost kept (p :: rows)
      = (if kept p.2 then cost p.1.label else 0) + costOn cost kept rows := by
  cases keep : kept p.2 <;> simp [costOn, keep]

@[simp] theorem keptOn_append :
    keptOn kept (rows ++ rows') = keptOn kept rows ++ keptOn kept rows' := by
  simp [keptOn]

@[simp] theorem holesOn_append :
    holesOn kept (rows ++ rows') = holesOn kept rows + holesOn kept rows' := by
  simp [holesOn]

@[simp] theorem costOn_append :
    costOn cost kept (rows ++ rows') = costOn cost kept rows + costOn cost kept rows' := by
  simp [costOn]

/-- Below a dropped node nothing is kept. -/
theorem ClosedOn.not_kept {above : List Nat} {start a : Nat} {ts : List (Tree α)}
    (parent : above.head? = some a) (dropped : kept a = false)
    (closed : ClosedOn kept (numbered above start ts)) :
    ∀ p ∈ numbered above start ts, kept p.2 = false := by
  induction ts using forest_induction generalizing above start a with
  | nil => simp
  | cons b us ts below rest =>
    rw [numbered_cons, closedOn_cons, closedOn_append] at closed
    obtain ⟨root, closed_below, closed_rest⟩ := closed
    have root_dropped : kept start = false := by
      by_contra keep
      simp [rootEntry, Entry.parentKept, parent, dropped] at root
      exact keep root
    intro p mem
    rcases mem_numbered_cons.1 mem with rfl | mem | mem
    · exact root_dropped
    · exact below rfl root_dropped closed_below p mem
    · exact rest parent dropped closed_rest p mem

/-- A set of nodes is closed when it has, with each node, all that are above it. -/
theorem closedOn_iff_path {ts : List (Tree α)} :
    ClosedOn kept (numbered [] 0 ts) ↔
      ∀ i < sizeAll ts, kept i = true → ∀ a ∈ (TreeIndex.ofForest ts).path i, kept a = true := by
  constructor
  · intro closed i lt keep a mem
    induction i using Nat.strong_induction_on with
    | _ i ih =>
      obtain ⟨path, smaller⟩ := TreeIndex.path_eq_cons lt
      rw [path, List.mem_cons] at mem
      rcases mem with rfl | mem
      · exact keep
      · cases parent : (TreeIndex.ofForest ts).parent? i with
        | none => simp [parent] at mem
        | some p =>
          obtain ⟨e, entry⟩ := TreeIndex.exists_entry lt
          have parent_kept := closed (e, i) entry keep
          rw [TreeIndex.parent?_of_mem entry] at parent
          have less := smaller p (by rw [TreeIndex.parent?_of_mem entry, parent])
          refine ih p less (by omega) (by simpa [Entry.parentKept, parent] using parent_kept) ?_
          simpa [TreeIndex.parent?_of_mem entry, parent] using mem
  · rintro closed ⟨e, i⟩ entry keep
    have lt : i < sizeAll ts := by simpa using (numbered_bounds entry).2
    obtain ⟨path, -⟩ := TreeIndex.path_eq_cons lt
    rw [Entry.parentKept, ← TreeIndex.parent?_of_mem entry]
    cases parent : (TreeIndex.ofForest ts).parent? i with
    | none => rfl
    | some p =>
      refine closed i lt keep p ?_
      rw [path, parent]
      exact List.mem_cons_of_mem i (TreeIndex.mem_path_self p)

/-- A forest below a dropped node that keeps nothing has no part in any account. -/
theorem holesOn_eq_zero {above : List Nat} {start a : Nat} {ts : List (Tree α)}
    (parent : above.head? = some a) (dropped : kept a = false)
    (none : ∀ p ∈ numbered above start ts, kept p.2 = false) :
    holesOn kept (numbered above start ts) = 0 := by
  apply List.countP_eq_zero.2
  intro q mem
  have : q.1.parentKept kept = false := by
    rcases ancestors_eq q mem with top | ⟨p, memp, -, eq⟩
    · simp [Entry.parentKept, top, parent, dropped]
    · simp [Entry.parentKept, eq, none p memp]
  simp [this]

theorem keptOn_eq_nil (none : ∀ p ∈ rows, kept p.2 = false) : keptOn kept rows = [] := by
  simpa [keptOn, List.filter_eq_nil_iff] using none

theorem costOn_eq_zero (none : ∀ p ∈ rows, kept p.2 = false) : costOn cost kept rows = 0 := by
  have : rows.filter (fun p => kept p.2) = [] := by simpa [List.filter_eq_nil_iff] using none
  simp [costOn, this]

end Sets

namespace Picks

variable {κ : Type} {price : Item κ → ℚ} {status : Nat → Status} {start holes : Nat}
  {ts : List (Tree (Item κ))} {cost : ℚ}

/-- Every closed set that agrees with what is decided is a selection. -/
theorem of_closed {kept : Nat → Bool} {above : List Nat} (order : InPreorder start ts)
    (top : above.head?.all kept = true) (closed : ClosedOn kept (numbered above start ts))
    (agrees : ∀ i, start ≤ i → i < start + sizeAll ts →
      (status i = .kept → kept i = true) ∧ (status i = .dropped → kept i = false)) :
    Picks price status ts (keptOn kept (numbered above start ts))
      (holesOn kept (numbered above start ts)) (costOn price kept (numbered above start ts)) := by
  induction ts using forest_induction generalizing above start with
  | nil => exact .nil
  | cons item us ts below rest =>
    obtain ⟨rfl, order_below, order_rest⟩ := order.split
    simp only [sizeAll, size_node] at agrees
    have picks_rest := rest order_rest top
      (closedOn_append.1 (closedOn_cons.1 (numbered_cons .. ▸ closed)).2).2
      (fun i low high => agrees i (by omega) (by omega))
    have closed_below := (closedOn_append.1 (closedOn_cons.1 (numbered_cons .. ▸ closed)).2).1
    have agrees_root := agrees item.number le_rfl (by omega)
    rw [numbered_cons, keptOn_cons, holesOn_cons, costOn_cons, keptOn_append, holesOn_append,
      costOn_append]
    cases keep : kept item.number with
    | true =>
      have picks_below := below order_below (by simpa using keep) closed_below
        (fun i low high => agrees i (by omega) (by omega))
      have may : status item.number ≠ .dropped := fun must => by simp [agrees_root.2 must] at keep
      simpa [keep, rootEntry, add_assoc] using Picks.keep may picks_below picks_rest
    | false =>
      have none := closed_below.not_kept rfl keep
      have may : status item.number ≠ .kept := fun must => by simp [agrees_root.1 must] at keep
      have : Picks price status (node item us :: ts) _ _ _ := .drop may picks_rest
      rw [keptOn_eq_nil none, holesOn_eq_zero rfl keep none, costOn_eq_zero none]
      simpa [keep, rootEntry, Entry.parentKept, top] using this

theorem not_dropped {items : List Nat} {i : Nat} (picks : Picks price status ts items holes cost)
    (mem : i ∈ items) : status i ≠ .dropped := by
  induction picks with
  | nil => cases mem
  | drop may rest ih => exact ih mem
  | keep may below rest ih₁ ih₂ =>
    obtain rfl | mem := List.mem_cons.1 mem
    · exact may
    · exact (List.mem_append.1 mem).elim ih₁ ih₂

/-- A selection keeps what is to be kept, if only items whose parents are to be kept are. -/
theorem mem_of_kept {items : List Nat} {above : List Nat}
    (picks : Picks price status ts items holes cost) (order : InPreorder start ts)
    (closed : ClosedOn (fun i => status i == .kept) (numbered above start ts)) :
    ∀ i, start ≤ i → i < start + sizeAll ts → status i = .kept → i ∈ items := by
  induction picks generalizing start above with
  | nil => exact fun i low high => absurd high (not_lt.2 low)
  | @drop item us ts items holes cost may rest ih =>
    obtain ⟨rfl, -, order_rest⟩ := order.split
    rw [numbered_cons, closedOn_cons, closedOn_append] at closed
    obtain ⟨-, closed_below, closed_rest⟩ := closed
    have none := closed_below.not_kept rfl (by simpa using may)
    intro i low high must
    simp only [sizeAll, size_node] at high
    obtain rfl | after := Nat.eq_or_lt_of_le low
    · exact absurd must may
    · obtain inside | behind := Nat.lt_or_ge i (item.number + 1 + sizeAll us)
      · obtain ⟨e, mem⟩ := exists_numbered (item.number :: above) us after inside
        have := none _ mem
        simp [must] at this
      · exact ih order_rest closed_rest i behind (by omega) must
  | @keep item us ts items₁ holes₁ cost₁ items₂ holes₂ cost₂ may below rest ih₁ ih₂ =>
    obtain ⟨rfl, order_below, order_rest⟩ := order.split
    rw [numbered_cons, closedOn_cons, closedOn_append] at closed
    obtain ⟨-, closed_below, closed_rest⟩ := closed
    intro i low high must
    simp only [sizeAll, size_node] at high
    rw [List.mem_cons, List.mem_append]
    obtain rfl | after := Nat.eq_or_lt_of_le low
    · exact .inl rfl
    · obtain inside | behind := Nat.lt_or_ge i (item.number + 1 + sizeAll us)
      · exact .inr (.inl (ih₁ order_below closed_below i after inside must))
      · exact .inr (.inr (ih₂ order_rest closed_rest i behind (by omega) must))

/-- The set of the items of a selection is closed and has the same accounts. -/
theorem accounts {items : List Nat} {kept : Nat → Bool}
    (picks : Picks price status ts items holes cost) (above : List Nat)
    (order : InPreorder start ts)
    (same : ∀ i, start ≤ i → i < start + sizeAll ts → (kept i = true ↔ i ∈ items))
    (top : above.head?.all kept = true) :
    ClosedOn kept (numbered above start ts) ∧ keptOn kept (numbered above start ts) = items ∧
      holesOn kept (numbered above start ts) = holes ∧
        costOn price kept (numbered above start ts) = cost := by
  induction picks generalizing start above with
  | nil => simp [ClosedOn, keptOn, holesOn, costOn]
  | @drop item us ts items holes cost may rest ih =>
    obtain ⟨rfl, order_below, order_rest⟩ := order.split
    simp only [sizeAll, size_node] at same
    have outside (i : Nat) (low : item.number ≤ i) (high : i < item.number + 1 + sizeAll us) :
        kept i = false := by
      rw [Bool.eq_false_iff, ne_eq, same i low (by omega)]
      intro mem
      have := rest.bounds order_rest i mem
      omega
    have dropped : kept item.number = false := outside _ le_rfl (by omega)
    have none : ∀ p ∈ numbered (item.number :: above) (item.number + 1) us, kept p.2 = false := by
      intro p mem
      have := numbered_bounds mem
      exact outside p.2 (by omega) (by omega)
    obtain ⟨closed, kept_eq, holes_eq, cost_eq⟩ :=
      ih above order_rest (fun i low high => same i (by omega) (by omega)) top
    rw [numbered_cons, closedOn_cons, closedOn_append, keptOn_cons, holesOn_cons, costOn_cons,
      keptOn_append, holesOn_append, costOn_append, keptOn_eq_nil none,
      holesOn_eq_zero rfl dropped none, costOn_eq_zero none, kept_eq, holes_eq, cost_eq]
    refine ⟨⟨by simp [dropped], fun p mem keep => by simp [none p mem] at keep, closed⟩, ?_⟩
    simp [dropped, rootEntry, Entry.parentKept, top]
  | @keep item us ts items₁ holes₁ cost₁ items₂ holes₂ cost₂ may picks_below picks_rest ih₁ ih₂ =>
    obtain ⟨rfl, order_below, order_rest⟩ := order.split
    simp only [sizeAll, size_node] at same
    have keep : kept item.number = true := (same _ le_rfl (by omega)).2 List.mem_cons_self
    have same₁ (i : Nat) (low : item.number + 1 ≤ i) (high : i < item.number + 1 + sizeAll us) :
        kept i = true ↔ i ∈ items₁ := by
      rw [same i (by omega) (by omega), List.mem_cons, List.mem_append]
      refine ⟨?_, fun mem => .inr (.inl mem)⟩
      rintro (rfl | mem | mem)
      · omega
      · exact mem
      · have := picks_rest.bounds order_rest i mem
        omega
    have same₂ (i : Nat) (low : item.number + 1 + sizeAll us ≤ i)
        (high : i < item.number + 1 + sizeAll us + sizeAll ts) : kept i = true ↔ i ∈ items₂ := by
      rw [same i (by omega) (by omega), List.mem_cons, List.mem_append]
      refine ⟨?_, fun mem => .inr (.inr mem)⟩
      rintro (rfl | mem | mem)
      · omega
      · have := picks_below.bounds order_below i mem
        omega
      · exact mem
    have parent : (item.number :: above).head?.all kept = true := by simpa using keep
    obtain ⟨closed₁, kept₁, holes₁, cost₁⟩ := ih₁ _ order_below same₁ parent
    obtain ⟨closed₂, kept₂, holes₂, cost₂⟩ := ih₂ _ order_rest same₂ top
    rw [numbered_cons, closedOn_cons, closedOn_append, keptOn_cons, holesOn_cons, costOn_cons,
      keptOn_append, holesOn_append, costOn_append, kept₁, holes₁, cost₁, kept₂, holes₂, cost₂]
    refine ⟨⟨fun _ => top, closed₁, closed₂⟩, ?_⟩
    simp [keep, rootEntry, add_assoc]

end Picks

end SureCode
