import Mathlib
import SureCode.Proofs.Pruning.Outline
import SureCode.Proofs.Pruning.Solution

/-!
# Admissible selections

What may be retained of a tree, said of its nodes by their numbers in preorder and without any item:
the root, and a node only with its `guardian`, the nearest node with an indicator above it. A
selection of nodes and a set of items that keep the same nodes with an indicator have the same
accounts (`Linked`), so the knapsack selects the items of exactly the admissible selections
(`Linked.selects_iff`).
-/

namespace SureCode

open SureCode.Tree Exact

/-! ### Selections of nodes -/

namespace Node

section Definitions

variable {κ : Type} [Scalar κ] (t : Node κ)

/-- Whether a node has an indicator: a usable cost, below the root. -/
def hasIndicator (id : Nat) : Bool :=
  id != 0 && ((TreeIndex.ofTree t).label? id).any (·.cost?.isSome)

/-- The nearest node with an indicator above a node, or the root if there is none. -/
def guardian (id : Nat) : Nat :=
  (((TreeIndex.ofTree t).path id).tail.find? t.hasIndicator).getD 0

/-- The number of kept nodes with an indicator. -/
def keptIndicators (keep : Nat → Bool) : Nat :=
  (List.range t.size).countP fun id => t.hasIndicator id && keep id

/-- The number of dropped nodes with an indicator whose guardian is kept. -/
def openedHoles (keep : Nat → Bool) : Nat :=
  (List.range t.size).countP fun id => t.hasIndicator id && !keep id && keep (t.guardian id)

/-- What a node counts against a budget. -/
def chargeAt (id : Nat) : κ := (((TreeIndex.ofTree t).label? id).map (·.charge)).getD Scalar.zero

/-- The summed charge of the kept nodes, the root included. -/
def keptCharge (keep : Nat → Bool) : κ :=
  (((List.range t.size).filter keep).map t.chargeAt).foldl (· + ·) Scalar.zero

/-- A selection keeps the root, keeps a node only with its guardian and opens no more holes than
allowed. -/
structure Admissible (maxHoles : HoleBudget) (keep : Nat → Bool) : Prop where
  root : keep 0 = true
  closed : ∀ id < t.size, keep id = true → keep (t.guardian id) = true
  allows : maxHoles.Allows (t.openedHoles keep)

/-- The nodes without an indicator are kept exactly with their guardians. -/
def Follows (keep : Nat → Bool) : Prop :=
  ∀ id < t.size, t.hasIndicator id = false → keep id = keep (t.guardian id)

end Definitions

/-! ### Rows of a tree -/

section Rows

variable {κ : Type} {t : Node κ} {e : Entry (Construct κ)} {id : Nat}

/-- The rows of a tree below its root. -/
def below (t : Node κ) : List (Entry (Construct κ) × Nat) := numbered [0] 1 t.children

theorem rows_eq : numbered [] 0 [t] = (rootEntry [] 0 t.label t.children, 0) :: t.below := by
  cases t
  simp [numbered_cons, below]

theorem mem_rows_of_below (mem : (e, id) ∈ t.below) : (e, id) ∈ numbered [] 0 [t] := by
  rw [rows_eq]
  exact List.mem_cons_of_mem _ mem

theorem pos_of_mem_below (mem : (e, id) ∈ t.below) : 0 < id :=
  (numbered_bounds mem).1

theorem label?_of_mem (mem : (e, id) ∈ numbered [] 0 [t]) :
    (TreeIndex.ofTree t).label? id = some e.label := by
  rw [ofTree_eq_ofForest, TreeIndex.label?, TreeIndex.mem_numbered_iff.1 mem, Option.map_some]

theorem path_of_mem_below (mem : (e, id) ∈ t.below) :
    (TreeIndex.ofTree t).path id = id :: e.ancestors := by
  rw [ofTree_eq_ofForest, TreeIndex.path_of_mem (mem_rows_of_below mem)]

theorem ids_eq : List.range t.size = 0 :: t.below.map (·.2) := by
  cases t
  rw [below, map_snd_numbered, size_node, List.range_eq_range', List.range'_succ, children_node]

theorem exists_row (lt : id < t.size) : id = 0 ∨ ∃ e, (e, id) ∈ t.below := by
  have mem := List.mem_range.2 lt
  rw [ids_eq, List.mem_cons, List.mem_map] at mem
  exact mem.imp_right fun ⟨⟨e, _⟩, mem, eq⟩ => ⟨e, eq ▸ mem⟩

theorem lt_of_mem_below (mem : (e, id) ∈ t.below) : id < t.size := by
  rw [← List.mem_range, ids_eq]
  exact List.mem_cons_of_mem 0 (List.mem_map_of_mem mem)

theorem countP_ids {p : Nat → Bool} (zero : p 0 = false) :
    (List.range t.size).countP p = t.below.countP fun row => p row.2 := by
  rw [ids_eq, List.countP_cons_of_neg (by simp [zero]), List.countP_map]
  rfl

end Rows

section Indicators

variable {κ : Type} [Scalar κ] {t : Node κ} {e : Entry (Construct κ)} {id : Nat}

theorem hasIndicator_zero (t : Node κ) : t.hasIndicator 0 = false := rfl

theorem marksCosts (t : Node κ) : MarksCosts t.hasIndicator t.below := by
  rintro ⟨e, id⟩ mem
  have := (pos_of_mem_below mem).ne'
  simp [hasIndicator, label?_of_mem (mem_rows_of_below mem), this]

theorem guardian_zero (t : Node κ) : t.guardian 0 = 0 := by
  cases t
  simp [guardian, TreeIndex.path, TreeIndex.ofTree, entries]

theorem guardian_of_mem (mem : (e, id) ∈ t.below) :
    t.guardian id = (e.ancestors.find? t.hasIndicator).getD 0 := by
  rw [guardian, path_of_mem_below mem, List.tail_cons]

theorem chargeAt_of_mem (mem : (e, id) ∈ numbered [] 0 [t]) : t.chargeAt id = e.label.charge := by
  rw [chargeAt, label?_of_mem mem, Option.map_some, Option.getD_some]

/-- A number with an indicator is that of a row. -/
theorem lt_of_hasIndicator (marked : t.hasIndicator id = true) : id < t.size := by
  by_contra outside
  have : (TreeIndex.ofTree t).label? id = none := by
    rw [TreeIndex.label?, Option.map_eq_none_iff, Array.getElem?_eq_none_iff]
    exact (TreeIndex.size_ofTree t).trans_le (not_lt.1 outside)
  simp [hasIndicator, this] at marked

theorem exists_row_of_hasIndicator (marked : t.hasIndicator id = true) :
    ∃ e, (e, id) ∈ t.below := by
  refine (exists_row (lt_of_hasIndicator marked)).resolve_left ?_
  rintro rfl
  simp [hasIndicator_zero] at marked

theorem guardian_lt (lt : id < t.size) : t.guardian id < t.size := by
  rcases exists_row lt with rfl | ⟨e, mem⟩
  · rwa [guardian_zero]
  · rw [guardian_of_mem mem]
    cases found : e.ancestors.find? t.hasIndicator with
    | none => exact t.size_pos
    | some above => exact lt_of_hasIndicator (List.find?_some found)

end Indicators

end Node

/-! ### Accounts of items -/

section Views

variable {α : Type} {kept : Nat → Bool} {rows : List (Entry α × Nat)} {cost : α → ℚ}

theorem closedOn_iff_views :
    ClosedOn kept rows ↔
      ∀ v ∈ rows.map Node.itemView, kept v.2.2 = true → v.2.1.head?.all kept = true := by
  rw [List.forall_mem_map]
  rfl

theorem holesOn_eq_views :
    holesOn kept rows
      = (rows.map Node.itemView).countP fun v => !kept v.2.2 && v.2.1.head?.all kept := by
  rw [List.countP_map]
  rfl

theorem length_keptOn_eq_views :
    (keptOn kept rows).length = (rows.map Node.itemView).countP fun v => kept v.2.2 := by
  rw [List.countP_map, keptOn, List.length_map, List.countP_eq_length_filter]
  rfl

theorem costOn_eq_views :
    costOn cost kept rows
      = (((rows.map Node.itemView).filter fun v => kept v.2.2).map fun v => cost v.1).sum := by
  rw [List.filter_map, List.map_map]
  rfl

end Views

/-! ### Nodes and items -/

namespace Node

section Linked

variable {κ : Type} [Scalar κ] {t : Node κ} {e : Entry (Construct κ)} {id : Nat}
  {keep kept : Nat → Bool}

/-- A selection of nodes and a set of items keep the same nodes with an indicator. -/
structure Linked (t : Node κ) (keep kept : Nat → Bool) : Prop where
  root : keep 0 = true
  same : ∀ {id}, t.hasIndicator id = true → kept (rank t.hasIndicator id) = keep id

/-- The rows of the items of a tree. -/
def itemRows (t : Node κ) : List (Entry (Item κ) × Nat) := numbered [] 0 (itemsAllFrom 0 t.children)

/-- The items of a tree, row by row. -/
theorem views_itemRows (t : Node κ) :
    t.itemRows.map itemView
      = (t.below.filter fun p => t.hasIndicator p.2).map (nodeView t.hasIndicator) := by
  have := rows_itemsAllFrom t.marksCosts
  rwa [rank_succ, rank_zero, hasIndicator_zero,
    List.filter_cons_of_neg (by simp [hasIndicator_zero]), List.filter_nil, List.map_nil] at this

/-- Whether the item above is kept is whether the guardian is. -/
theorem Linked.parent (linked : Linked t keep kept) (mem : (e, id) ∈ t.below) :
    ((e.ancestors.find? t.hasIndicator).map (rank t.hasIndicator)).all kept
      = keep (t.guardian id) := by
  rw [guardian_of_mem mem]
  cases found : e.ancestors.find? t.hasIndicator with
  | none => simp [linked.root]
  | some above => simp [linked.same (List.find?_some found)]

theorem Linked.closed_iff (linked : Linked t keep kept) :
    ClosedOn kept t.itemRows ↔
      ∀ id, t.hasIndicator id = true → keep id = true → keep (t.guardian id) = true := by
  rw [closedOn_iff_views, views_itemRows, List.forall_mem_map]
  constructor
  · intro closed id marked keeps
    obtain ⟨e, mem⟩ := exists_row_of_hasIndicator marked
    have := closed (e, id) (List.mem_filter.2 ⟨mem, marked⟩)
      (by simpa [nodeView, linked.same marked])
    rwa [nodeView, List.head?_map, List.head?_filter, linked.parent mem] at this
  · rintro closed ⟨e, id⟩ mem keeps
    obtain ⟨mem, marked⟩ := List.mem_filter.1 mem
    rw [nodeView, List.head?_map, List.head?_filter, linked.parent mem]
    exact closed id marked (by simpa [nodeView, linked.same marked] using keeps)

theorem Linked.holes_eq (linked : Linked t keep kept) :
    holesOn kept t.itemRows = t.openedHoles keep := by
  rw [holesOn_eq_views, views_itemRows, openedHoles, countP_ids (by simp [hasIndicator_zero]),
    List.countP_map, List.countP_filter]
  apply List.countP_congr
  rintro ⟨e, id⟩ mem
  cases marked : t.hasIndicator id with
  | false => simp
  | true => simp [nodeView, linked.same marked, linked.parent mem]

theorem Linked.count_eq (linked : Linked t keep kept) :
    (keptOn kept t.itemRows).length = t.keptIndicators keep := by
  rw [length_keptOn_eq_views, views_itemRows, keptIndicators,
    countP_ids (by simp [hasIndicator_zero]), List.countP_map, List.countP_filter]
  apply List.countP_congr
  rintro ⟨e, id⟩ mem
  cases marked : t.hasIndicator id with
  | false => simp
  | true => simp [nodeView, linked.same marked]

end Linked

/-! ### Charges -/

section Charges

variable {a : Construct Exact} {t : Node Exact} {keep kept : Nat → Bool}

/-- The rational value of a charge. -/
def chargeValue (a : Construct Exact) : ℚ :=
  match a.charge with
  | number x => x
  | _ => 0

theorem charge_eq_number (a : Construct Exact) : a.charge = number (chargeValue a) := by
  unfold chargeValue Construct.charge
  cases usable : a.cost? with
  | none => simp
  | some cost =>
    obtain ⟨x, -, -, rfl⟩ := Construct.cost?_eq_number usable
    rfl

theorem chargeValue_of_none (unusable : a.cost? = none) : chargeValue a = 0 := by
  simp [chargeValue, Construct.charge, unusable]

theorem chargeValue_nonneg (a : Construct Exact) : 0 ≤ chargeValue a := by
  cases usable : a.cost? with
  | none => exact (chargeValue_of_none usable).ge
  | some cost =>
    obtain ⟨x, nonneg, -, rfl⟩ := Construct.cost?_eq_number usable
    have charge : a.charge = number x := by simp [Construct.charge, usable]
    rw [charge_eq_number, number.injEq] at charge
    rwa [charge]

/-- The kept charges are those of the root and of the kept rows below it. -/
theorem keptCharge_eq_number (root : keep 0 = true) :
    t.keptCharge keep
      = number (chargeValue t.label
          + ((t.below.filter fun p => keep p.2).map fun p => chargeValue p.1.label).sum) := by
  have root_charge : t.chargeAt 0 = number (chargeValue t.label) := by
    have mem : (rootEntry [] 0 t.label t.children, 0) ∈ numbered [] 0 [t] := by
      rw [rows_eq]
      exact List.mem_cons_self
    rw [chargeAt_of_mem mem, charge_eq_number, rootEntry]
  have charges : (((t.below.map (·.2)).filter keep).map t.chargeAt)
      = ((t.below.filter fun p => keep p.2).map fun p => chargeValue p.1.label).map number := by
    rw [List.filter_map, List.map_map, List.map_map]
    apply List.map_congr_left
    intro row mem
    have mem_rows : (row.1, row.2) ∈ numbered [] 0 [t] :=
      mem_rows_of_below (List.mem_filter.1 mem).1
    simp [chargeAt_of_mem mem_rows, charge_eq_number]
  rw [keptCharge, ids_eq, List.filter_cons_of_pos root, List.map_cons, root_charge, charges,
    List.foldl_cons, zero_eq_number, number_add_number, zero_add, foldl_add_number]

/-- The kept items cost what the kept nodes below the root do. -/
theorem Linked.cost_eq (linked : Linked t keep kept) :
    costOn Item.price kept t.itemRows
      = ((t.below.filter fun p => keep p.2).map fun p => chargeValue p.1.label).sum := by
  have marks := t.marksCosts
  rw [costOn_eq_views, views_itemRows]
  generalize t.below = rows at marks
  induction rows with
  | nil => rfl
  | cons p rows ih =>
    obtain ⟨e, id⟩ := p
    rw [MarksCosts, List.forall_mem_cons] at marks
    have rest := ih marks.2
    cases marked : t.hasIndicator id with
    | false =>
      have unusable : e.label.cost? = none := by simpa [marked] using marks.1.symm
      rw [List.filter_cons_of_neg (by simp [marked]), rest]
      cases keeps : keep id <;> simp [keeps, chargeValue_of_none unusable]
    | true =>
      have same : kept (nodeView t.hasIndicator (e, id)).2.2 = keep id := linked.same marked
      have price : Item.price (nodeView t.hasIndicator (e, id)).1 = chargeValue e.label := rfl
      rw [List.filter_cons_of_pos (by simpa using marked), List.map_cons]
      cases keeps : keep id <;> simp [same, price, keeps, rest]

end Charges

/-! ### Outlines -/

section Outlines

variable {κ : Type} [Scalar κ] {t : Node κ} {keep kept : Nat → Bool} {maxHoles : HoleBudget}

/-- The knapsack of a tree. -/
def knapsack (t : Node κ) (maxHoles : HoleBudget) : Knapsack κ :=
  ⟨(Outline.ofNode t).forest, maxHoles⟩

/-- The knapsack permits the items of what is kept with its guardians and within the hole budget. -/
theorem Linked.permits_iff (linked : Linked t keep kept) :
    (t.knapsack maxHoles).Permits kept ↔
      (∀ id, t.hasIndicator id = true → keep id = true → keep (t.guardian id) = true) ∧
        maxHoles.Allows (t.openedHoles keep) := by
  have rows : (t.knapsack maxHoles).numbered = t.itemRows := rfl
  constructor
  · rintro ⟨closed, allows⟩
    rw [rows] at closed allows
    exact ⟨linked.closed_iff.1 closed, linked.holes_eq ▸ allows⟩
  · rintro ⟨closed, allows⟩
    refine ⟨linked.closed_iff.2 closed, ?_⟩
    rw [rows, linked.holes_eq]
    exact allows

/-- The items that a selection of nodes keeps. -/
def itemsKept (t : Node κ) (keep : Nat → Bool) (item : Nat) : Bool :=
  (((List.range t.size).filter t.hasIndicator)[item]?).any keep

theorem linked_itemsKept (root : keep 0 = true) : Linked t keep (t.itemsKept keep) := by
  refine ⟨root, fun {id} marked => ?_⟩
  rw [itemsKept, getElem?_filter_rank (lt_of_hasIndicator marked) marked, Option.any_some]

end Outlines

section Exact

variable {t : Node Exact} {keep kept : Nat → Bool} {maxHoles : HoleBudget} {threshold : Exact}

theorem proper_knapsack (t : Node Exact) (maxHoles : HoleBudget) :
    Proper 0 (t.knapsack maxHoles).forest :=
  proper_itemsAllFrom 0 t.children

/-- The knapsack selects the items of what is kept within a threshold. -/
theorem Linked.selects_iff (linked : Linked t keep kept) :
    (t.knapsack maxHoles).Selects (threshold - (Outline.ofNode t).rootCharge) kept ↔
      (∀ id, t.hasIndicator id = true → keep id = true → keep (t.guardian id) = true) ∧
        maxHoles.Allows (t.openedHoles keep) ∧ fits threshold (t.keptCharge keep) = true := by
  have rows : (t.knapsack maxHoles).numbered = t.itemRows := rfl
  have root : (Outline.ofNode t).rootCharge = number (chargeValue t.label) := charge_eq_number _
  have fit : fits (threshold - (Outline.ofNode t).rootCharge)
      (number (costOn Item.price kept t.itemRows)) = fits threshold (t.keptCharge keep) := by
    rw [root, fits_sub, linked.cost_eq, keptCharge_eq_number linked.root]
  rw [Knapsack.selects_iff, linked.permits_iff, rows, fit, and_assoc]

theorem Linked.count (linked : Linked t keep kept) :
    (t.knapsack maxHoles).count kept = t.keptIndicators keep :=
  linked.count_eq

end Exact

/-! ### Owners -/

section Owners

variable {κ : Type} [Scalar κ] {t : Node κ} {e : Entry (Construct κ)} {id : Nat}
  {keep kept : Nat → Bool}

theorem owners_eq (t : Node κ) :
    (Outline.ofNode t).owners = ⟨(none :: t.below.map (ownerOf t.hasIndicator)).toArray⟩ := by
  have := ownersAllFrom_eq t.marksCosts
  rw [rank_succ, rank_zero, hasIndicator_zero, List.find?_cons_of_neg (by simp [hasIndicator_zero]),
    List.find?_nil, Option.map_none] at this
  rw [below, ← this]
  rfl

theorem keeps_zero : (Outline.ofNode t).keeps kept 0 = true := by
  simp [Outline.keeps, owners_eq, SideTable.get?]

theorem get?_owners_of_mem (mem : (e, id) ∈ t.below) :
    (Outline.ofNode t).owners.get? id = some (ownerOf t.hasIndicator (e, id)) := by
  have pos := pos_of_mem_below mem
  have at_row : t.below[id - 1]? = some (e, id) := by
    have zip : t.below = (entriesAll [0] 1 t.children).zipIdx 1 := rfl
    rw [zip] at mem ⊢
    obtain ⟨le, at_entry⟩ := List.mk_mem_zipIdx_iff_le_and_getElem?_sub.1 mem
    rw [List.getElem?_zipIdx, at_entry, Option.map_some, Nat.add_sub_cancel' le]
  obtain ⟨place, rfl⟩ := Nat.exists_eq_add_of_lt pos
  rw [Nat.zero_add, Nat.add_sub_cancel] at at_row
  simp [owners_eq, SideTable.get?, at_row]

/-- A node is kept when its owner is. -/
theorem keeps_of_mem (mem : (e, id) ∈ t.below) :
    (Outline.ofNode t).keeps kept id = (ownerOf t.hasIndicator (e, id)).all kept := by
  rw [Outline.keeps, get?_owners_of_mem mem]
  cases ownerOf t.hasIndicator (e, id) <;> rfl

theorem linked_keeps (t : Node κ) (kept : Nat → Bool) :
    Linked t ((Outline.ofNode t).keeps kept) kept := by
  refine ⟨keeps_zero, fun {id} marked => ?_⟩
  obtain ⟨e, mem⟩ := exists_row_of_hasIndicator marked
  rw [keeps_of_mem mem, ownerOf, if_pos marked, Option.all_some]

/-- Nodes without an indicator are kept with their owner, which is their guardian's. -/
theorem follows_keeps (t : Node κ) (kept : Nat → Bool) :
    t.Follows ((Outline.ofNode t).keeps kept) := by
  intro id lt unmarked
  rcases exists_row lt with rfl | ⟨e, mem⟩
  · rw [guardian_zero]
  · have linked := linked_keeps t kept
    rw [keeps_of_mem mem, ownerOf, if_neg (by simp [unmarked]), linked.parent mem]

/-- It is enough for a selection to be closed at the nodes with an indicator when the others
follow. -/
theorem Follows.closed (follows : t.Follows keep)
    (closed : ∀ id, t.hasIndicator id = true → keep id = true → keep (t.guardian id) = true) :
    ∀ id < t.size, keep id = true → keep (t.guardian id) = true := by
  intro id lt keeps
  cases marked : t.hasIndicator id with
  | true => exact closed id marked keeps
  | false => rwa [← follows id lt marked]

/-- When the others follow, a node's parent is kept exactly when its guardian is. -/
theorem Follows.parentKept (follows : t.Follows keep) (root : keep 0 = true)
    (mem : (e, id) ∈ t.below) : e.parentKept keep = keep (t.guardian id) := by
  rw [guardian_of_mem mem, Entry.parentKept]
  rcases ancestors_eq (e, id) mem with top | ⟨⟨f, above⟩, mem_above, -, eq⟩
  · simp only at top
    simp [top, root, hasIndicator_zero]
  · simp only at eq
    rw [eq, List.head?_cons, Option.all_some]
    cases marked : t.hasIndicator above with
    | true => rw [List.find?_cons_of_pos marked, Option.getD_some]
    | false =>
      rw [List.find?_cons_of_neg (by simp [marked]),
        follows above (lt_of_mem_below mem_above) marked, guardian_of_mem mem_above]

/-- A selection that others follow keeps each node only with its parent. -/
theorem Follows.closedOn (follows : t.Follows keep) (root : keep 0 = true)
    (closed : ∀ id < t.size, keep id = true → keep (t.guardian id) = true) :
    ClosedOn keep (numbered [] 0 [t]) := by
  rw [rows_eq, closedOn_cons]
  refine ⟨fun _ => rfl, fun ⟨e, id⟩ mem keeps => ?_⟩
  rw [follows.parentKept root mem]
  exact closed id (lt_of_mem_below mem) keeps

/-- The holes of a selection that others follow are those it opens at nodes with an indicator. -/
theorem Follows.holesOn (follows : t.Follows keep) (root : keep 0 = true) :
    holesOn keep t.below = t.openedHoles keep := by
  rw [openedHoles, countP_ids (by simp [hasIndicator_zero]), SureCode.holesOn]
  apply List.countP_congr
  intro row mem
  rw [follows.parentKept root mem]
  cases marked : t.hasIndicator row.2 with
  | true => simp
  | false => simp [follows row.2 (lt_of_mem_below mem) marked]

end Owners

end Node

end SureCode
