import Mathlib
import SureCode.Proofs.Exact
import SureCode.Proofs.Pruning.Commitments
import SureCode.Proofs.Tree.Index
import SureCode.Pruning.Outline

/-!
# Items and nodes

The items of a tree are its nodes with an indicator, a usable cost, below the root. An item's number
is the `rank` of its node: how many nodes with an indicator stand before it in preorder. Row by row,
the items are the nodes with an indicator, with the numbers above them brought to ranks
(`rows_itemsAllFrom`), and the owner of a node is the rank of the node itself or of the nearest node
with an indicator above it (`ownersAllFrom_eq`).
-/

namespace SureCode

open SureCode.Tree

variable {κ : Type} [Scalar κ] {indicator : Nat → Bool} {above : List Nat} {start next : Nat}
  {us : List (Node κ)}

/-! ### Ranks -/

/-- The number of nodes with an indicator that stand before a node. -/
def rank (indicator : Nat → Bool) (id : Nat) : Nat := (List.range id).countP indicator

theorem rank_zero : rank indicator 0 = 0 := rfl

theorem rank_succ (id : Nat) :
    rank indicator (id + 1) = rank indicator id + if indicator id then 1 else 0 := by
  simp [rank, List.range_succ]

/-- A node with an indicator is found at its rank among those with one. -/
theorem getElem?_filter_rank {size id : Nat} (lt : id < size) (marked : indicator id = true) :
    ((List.range size).filter indicator)[rank indicator id]? = some id := by
  obtain ⟨rest, rfl⟩ := Nat.exists_eq_add_of_lt lt
  have split : List.range (id + rest + 1) = List.range id ++ id :: List.range' (id + 1) rest := by
    rw [Nat.add_assoc, List.range_add, ← List.range'_eq_map_range, List.range'_succ]
  rw [split, List.filter_append, List.filter_cons_of_pos marked, rank,
    List.countP_eq_length_filter, List.getElem?_append_right le_rfl, Nat.sub_self,
    List.getElem?_cons_zero]

/-- The indicators of some numbered nodes are their usable costs. -/
def MarksCosts (indicator : Nat → Bool) (rows : List (Entry (Construct κ) × Nat)) : Prop :=
  ∀ p ∈ rows, indicator p.2 = p.1.label.cost?.isSome

theorem MarksCosts.split {a : Construct κ} {vs : List (Node κ)}
    (marks : MarksCosts indicator (numbered above start (node a vs :: us))) :
    indicator start = a.cost?.isSome ∧
      MarksCosts indicator (numbered (start :: above) (start + 1) vs) ∧
        MarksCosts indicator (numbered above (start + 1 + sizeAll vs) us) :=
  ⟨marks _ (mem_numbered_cons.2 (.inl rfl)),
    fun p mem => marks p (mem_numbered_cons.2 (.inr (.inl mem))),
    fun p mem => marks p (mem_numbered_cons.2 (.inr (.inr mem)))⟩

theorem rank_add_sizeAll (marks : MarksCosts indicator (numbered above start us)) :
    rank indicator (start + sizeAll us)
      = rank indicator start + (preorderAll us).countP (·.cost?.isSome) := by
  rw [rank, List.range_add, ← List.range'_eq_map_range, List.countP_append,
    ← map_snd_numbered above start us, ← map_label_numbered above start us, List.countP_map,
    List.countP_map]
  refine congrArg (rank indicator start + ·) (List.countP_congr fun p mem => ?_)
  simp [marks p mem]

/-! ### Items -/

namespace Node

variable {a : Construct κ} {vs : List (Node κ)} {cost : κ}

theorem itemsFrom_of_some (usable : a.cost? = some cost) :
    itemsFrom next (node a vs) = [node ⟨next, cost⟩ (itemsAllFrom (next + 1) vs)] := by
  simp [itemsFrom, usable]

theorem itemsFrom_of_none (unusable : a.cost? = none) :
    itemsFrom next (node a vs) = itemsAllFrom next vs := by
  simp [itemsFrom, unusable]

theorem sizeAll_itemsAllFrom (next : Nat) (us : List (Node κ)) :
    sizeAll (itemsAllFrom next us) = (preorderAll us).countP (·.cost?.isSome) := by
  induction us using forest_induction generalizing next with
  | nil => simp [itemsAllFrom, sizeAll, preorderAll]
  | cons a vs us below rest =>
    simp only [itemsAllFrom, sizeAll_append, rest, preorderAll, preorder_node, List.cons_append,
      List.countP_cons, List.countP_append]
    cases usable : a.cost? with
    | none => simp [itemsFrom_of_none usable, below]
    | some cost =>
      simp only [itemsFrom_of_some usable, sizeAll_singleton, size_node, below, Option.isSome_some,
        if_true]
      omega

theorem sizeAll_itemsFrom (next : Nat) (a : Construct κ) (vs : List (Node κ)) :
    sizeAll (itemsFrom next (node a vs))
      = (preorderAll vs).countP (·.cost?.isSome) + if a.cost?.isSome then 1 else 0 := by
  cases usable : a.cost? with
  | none => simp [itemsFrom_of_none usable, sizeAll_itemsAllFrom]
  | some cost =>
    simp [itemsFrom_of_some usable, sizeAll_singleton, sizeAll_itemsAllFrom]

/-- Behind a tree, the ranks go on with the numbers behind its items. -/
theorem rank_behind (marks : MarksCosts indicator (numbered above start (node a vs :: us))) :
    rank indicator (start + 1 + sizeAll vs)
      = rank indicator start + sizeAll (itemsFrom (rank indicator start) (node a vs)) := by
  obtain ⟨root, below, -⟩ := marks.split
  rw [rank_add_sizeAll below, rank_succ, root, sizeAll_itemsFrom]
  omega

/-- What is to be known of an item: its label, the numbers above it and its own. -/
def itemView {α : Type} (p : Entry α × Nat) : α × List Nat × Nat := (p.1.label, p.1.ancestors, p.2)

/-- The same as read off the node that the item stands for. -/
def nodeView (indicator : Nat → Bool) (p : Entry (Construct κ) × Nat) : Item κ × List Nat × Nat :=
  (⟨rank indicator p.2, p.1.label.charge⟩, (p.1.ancestors.filter indicator).map (rank indicator),
    rank indicator p.2)

/-- Row by row, the items are the nodes with an indicator. -/
theorem rows_itemsAllFrom (marks : MarksCosts indicator (numbered above start us)) :
    (numbered ((above.filter indicator).map (rank indicator)) (rank indicator start)
        (itemsAllFrom (rank indicator start) us)).map itemView
      = ((numbered above start us).filter fun p => indicator p.2).map (nodeView indicator) := by
  induction us using forest_induction generalizing above start with
  | nil => simp [itemsAllFrom]
  | cons a vs us below rest =>
    obtain ⟨root, marks_below, marks_rest⟩ := marks.split
    have rows_rest := rest marks_rest
    rw [rank_behind marks] at rows_rest
    rw [itemsAllFrom, numbered_append, List.map_append, rows_rest, numbered_cons]
    have rows_below := below marks_below
    cases usable : a.cost? with
    | none =>
      rw [usable, Option.isSome_none] at root
      rw [List.filter_cons_of_neg (by simp [root]), rank_succ, root] at rows_below
      rw [itemsFrom_of_none usable, List.filter_cons_of_neg (by simp [root]), List.filter_append,
        List.map_append, ← rows_below]
      simp
    | some cost =>
      rw [usable, Option.isSome_some] at root
      rw [List.filter_cons_of_pos root, rank_succ, root, List.map_cons, if_pos rfl] at rows_below
      rw [itemsFrom_of_some usable, List.filter_cons_of_pos (by simpa using root),
        List.filter_append, List.map_cons, List.map_append, ← rows_below, numbered_cons,
        numbered_nil, List.append_nil, List.map_cons, List.cons_append]
      simp [itemView, nodeView, rootEntry, Construct.charge, usable]

/-! ### Owners -/

/-- The owner of a node. -/
def ownerOf (indicator : Nat → Bool) (p : Entry (Construct κ) × Nat) : Option Nat :=
  if indicator p.2 then some (rank indicator p.2)
  else (p.1.ancestors.find? indicator).map (rank indicator)

/-- The owner of a node is the rank of the node itself, or of the nearest node with an indicator
above it. -/
theorem ownersAllFrom_eq (marks : MarksCosts indicator (numbered above start us)) :
    ownersAllFrom ((above.find? indicator).map (rank indicator)) (rank indicator start) us
      = (numbered above start us).map (ownerOf indicator) := by
  induction us using forest_induction generalizing above start with
  | nil => simp [ownersAllFrom]
  | cons a vs us below rest =>
    obtain ⟨root, marks_below, marks_rest⟩ := marks.split
    have owners_rest := rest marks_rest
    rw [rank_behind marks] at owners_rest
    rw [ownersAllFrom, owners_rest, numbered_cons, List.map_cons, List.map_append,
      ← below marks_below, rank_succ, root]
    cases usable : a.cost?.isSome with
    | false =>
      rw [usable] at root
      simp [ownersFrom, usable, root, ownerOf, rootEntry]
    | true =>
      rw [usable] at root
      simp [ownersFrom, usable, root, ownerOf]

/-! ### Outlines -/

theorem mem_preorderAll_itemsAllFrom {item : Item κ} :
    ∀ {next : Nat} {us : List (Node κ)}, item ∈ preorderAll (itemsAllFrom next us) →
      ∃ a : Construct κ, a.cost? = some item.cost := by
  intro next us
  induction us using forest_induction generalizing next with
  | nil => simp [itemsAllFrom, preorderAll]
  | cons a vs us below rest =>
    rw [itemsAllFrom, preorderAll_append, List.mem_append]
    rintro (mem | mem)
    · cases usable : a.cost? with
      | none =>
        rw [itemsFrom_of_none usable] at mem
        exact below mem
      | some cost =>
        rw [itemsFrom_of_some usable] at mem
        simp only [preorderAll, preorder_node, List.append_nil, List.mem_cons] at mem
        rcases mem with rfl | mem
        · exact ⟨a, usable⟩
        · exact below mem
    · exact rest mem

theorem numbers_itemsAllFrom (next : Nat) (us : List (Node κ)) :
    (preorderAll (itemsAllFrom next us)).map (·.number)
      = List.range' next (sizeAll (itemsAllFrom next us)) := by
  induction us using forest_induction generalizing next with
  | nil => simp [itemsAllFrom, preorderAll, sizeAll]
  | cons a vs us below rest =>
    rw [itemsAllFrom, preorderAll_append, List.map_append, sizeAll_append, ← List.range'_append_1,
      rest]
    congr 1
    cases usable : a.cost? with
    | none => rw [itemsFrom_of_none usable, below]
    | some cost =>
      simp [itemsFrom_of_some usable, preorderAll, below, sizeAll_singleton, List.range'_succ]

/-- The items of a tree are numbered in preorder, and their costs are at least zero. -/
theorem itemized_itemsAllFrom [LawfulCosts κ] (next : Nat) (us : List (Node κ)) :
    Itemized next (itemsAllFrom next us) := by
  refine ⟨numbers_itemsAllFrom next us, fun item mem => ?_⟩
  obtain ⟨a, usable⟩ := mem_preorderAll_itemsAllFrom mem
  exact LawfulCosts.cost?_nonneg a item.cost usable

/-- The items of a tree are numbered in preorder, and their costs are numbers. -/
theorem proper_itemsAllFrom (next : Nat) (us : List (Node Exact)) :
    Proper next (itemsAllFrom next us) := by
  refine ⟨numbers_itemsAllFrom next us, fun item mem => ?_⟩
  obtain ⟨a, usable⟩ := mem_preorderAll_itemsAllFrom mem
  obtain ⟨x, nonneg, -, eq⟩ := Construct.cost?_eq_number usable
  exact ⟨x, nonneg, eq⟩

end Node

end SureCode
