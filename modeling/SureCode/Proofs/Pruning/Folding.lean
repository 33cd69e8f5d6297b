import Mathlib
import SureCode.Proofs.Pruning.Admissible
import SureCode.Proofs.Tree.Walk
import SureCode.Pruning.Folding

/-!
# Items of a tree, found in one pass

The outline of a tree mirrors the tree (`Outline.ofNode_mirrors_tree`): the items are the nodes with
an indicator, in preorder, an item hangs below that of the nearest node with an indicator above its
node (`Node.inherits_itemOver`), and so does the owner of any other node. An outline is written down
by recursion on the tree. One pass over the nodes by number comes to the same items and owners: it
has, before each number, what the outline says of the nodes with smaller ones (`Folding.upTo`), and
taking in one node leads from there to the next number (`Folding.step?_upTo`).
-/

namespace SureCode

open SureCode.Tree

namespace Node

variable {κ : Type} [Scalar κ] {t : Node κ} {id above item : Nat}

/-! ### Nodes with an indicator -/

/-- The nodes with an indicator, in preorder. -/
def indicated (t : Node κ) : List Nat := (List.range t.size).filter t.hasIndicator

theorem getElem?_indicated_rank (marked : t.hasIndicator id = true) :
    t.indicated[rank t.hasIndicator id]? = some id :=
  getElem?_filter_rank (lt_of_hasIndicator marked) marked

theorem getElem?_indicated_iff :
    t.indicated[item]? = some id ↔ t.hasIndicator id = true ∧ rank t.hasIndicator id = item := by
  constructor
  · intro at_item
    have marked : t.hasIndicator id = true := (List.mem_filter.1 (List.mem_of_getElem? at_item)).2
    have nodup : t.indicated.Nodup := List.nodup_range.filter _
    refine ⟨marked, ?_⟩
    have at_rank := getElem?_indicated_rank marked
    have inside := (List.getElem?_eq_some_iff.1 at_rank).1
    exact (List.getElem?_inj inside nodup).1 (at_rank.trans at_item.symm)
  · rintro ⟨marked, rfl⟩
    exact getElem?_indicated_rank marked

theorem length_indicated (t : Node κ) : t.indicated.length = rank t.hasIndicator t.size :=
  List.countP_eq_length_filter.symm

/-- There are as many items as nodes with an indicator. -/
theorem rank_size (t : Node κ) : rank t.hasIndicator t.size = (Outline.ofNode t).size := by
  have behind := rank_add_sizeAll t.marksCosts
  rw [rank_succ, rank_zero, hasIndicator_zero, ← sizeAll_itemsAllFrom 0] at behind
  rw [size_eq_add_one, Nat.add_comm]
  exact behind.trans (Nat.zero_add _)

/-! ### Owners -/

/-- The item that a node is under: that of the nearest node with an indicator above it. -/
def itemOver (t : Node κ) (id : Nat) : Option Nat :=
  (((TreeIndex.ofTree t).path id).tail.find? t.hasIndicator).map (rank t.hasIndicator)

/-- The owner of a node: its own item, if it has one, or the item that it is under. -/
def ownerAt (t : Node κ) (id : Nat) : Option Nat :=
  if t.hasIndicator id then some (rank t.hasIndicator id) else t.itemOver id

theorem itemOver_of_parent (parent : (TreeIndex.ofTree t).parent? id = some above) :
    t.itemOver id = t.ownerAt above := by
  rw [itemOver, ownerAt, itemOver, TreeIndex.find?_tail_path parent]
  split <;> rfl

theorem ownerAt_zero (t : Node κ) : t.ownerAt 0 = none := by
  have path : ((TreeIndex.ofTree t).path 0).tail = [] := by
    cases t
    simp [TreeIndex.path, TreeIndex.ofTree, entries]
  rw [ownerAt, hasIndicator_zero, itemOver, path]
  rfl

theorem get?_owners (lt : id < t.size) :
    (Outline.ofNode t).owners.get? id = some (t.ownerAt id) := by
  rcases exists_row lt with rfl | ⟨e, mem⟩
  · rw [ownerAt_zero, owners_eq]
    rfl
  · rw [get?_owners_of_mem mem, ownerOf, ownerAt, itemOver, path_of_mem_below mem, List.tail_cons]

/-- A node inherits an item when it is that of the nearest node with an indicator above it, and
none when there is no such node. -/
def Inherits (t : Node κ) (id : Nat) : Option Nat → Prop
  | none => ∀ above, (TreeIndex.ofTree t).Above above id → t.hasIndicator above = false
  | some item => ∃ near, t.indicated[item]? = some near ∧
      (TreeIndex.ofTree t).Nearest t.hasIndicator near id

theorem inherits_itemOver (lt : id < t.size) : t.Inherits id (t.itemOver id) := by
  rw [← sizeAll_singleton] at lt
  rw [itemOver]
  cases found : ((TreeIndex.ofTree t).path id).tail.find? t.hasIndicator with
  | none =>
    rw [ofTree_eq_ofForest] at found
    rw [Option.map_none, Inherits, ofTree_eq_ofForest]
    exact TreeIndex.unmarked_of_find? lt found
  | some near =>
    rw [Option.map_some, Inherits]
    refine ⟨near, getElem?_indicated_rank (List.find?_some found), ?_⟩
    rw [ofTree_eq_ofForest] at found ⊢
    exact TreeIndex.nearest_of_find? lt found

/-! ### Items -/

/-- The item of a node, as the index of the outline has it. -/
theorem exists_item (marked : t.hasIndicator id = true) :
    (Outline.ofNode t).index.parent? (rank t.hasIndicator id) = t.itemOver id ∧
      ∃ a cost, (TreeIndex.ofTree t).label? id = some a ∧ a.cost? = some cost ∧
        (Outline.ofNode t).index.label? (rank t.hasIndicator id)
          = some ⟨rank t.hasIndicator id, cost⟩ := by
  obtain ⟨e, mem⟩ := exists_row_of_hasIndicator marked
  have label := label?_of_mem (mem_rows_of_below mem)
  obtain ⟨cost, usable⟩ : ∃ cost, e.label.cost? = some cost := by
    rw [← Option.isSome_iff_exists, ← marksCosts t (e, id) mem, marked]
  -- the row of the item has what the row of the node says
  have row : nodeView t.hasIndicator (e, id) ∈ t.itemRows.map itemView := by
    rw [views_itemRows]
    exact List.mem_map_of_mem (List.mem_filter.2 ⟨mem, marked⟩)
  obtain ⟨⟨f, i⟩, mem_items, eq⟩ := List.mem_map.1 row
  simp only [itemView, nodeView, Prod.mk.injEq] at eq
  obtain ⟨label_eq, ancestors_eq, rfl⟩ := eq
  have index : (Outline.ofNode t).index = .ofForest (itemsAllFrom 0 t.children) := rfl
  refine ⟨?_, e.label, cost, label, usable, ?_⟩
  · rw [index, TreeIndex.parent?_of_mem mem_items, ancestors_eq, List.head?_map, List.head?_filter,
      itemOver, path_of_mem_below mem, List.tail_cons]
  · rw [index, TreeIndex.label?, TreeIndex.mem_numbered_iff.1 mem_items, Option.map_some, label_eq,
      Construct.charge, usable, Option.getD_some]

end Node

/-! ### The first items of an outline -/

/-- Below a number, an ascending list ends with the number before it, if that is on the list. -/
theorem filter_lt_succ {ids : List Nat} (ascending : ids.Pairwise (· < ·)) (n : Nat) :
    ids.filter (· < n + 1) = ids.filter (· < n) ++ if n ∈ ids then [n] else [] := by
  induction ids with
  | nil => simp
  | cons i ids ih =>
    obtain ⟨above, ascending⟩ := List.pairwise_cons.1 ascending
    rcases Nat.lt_trichotomy i n with less | rfl | greater
    · have here : n ∈ i :: ids ↔ n ∈ ids := by simp [less.ne']
      rw [List.filter_cons_of_pos (by simp; omega), List.filter_cons_of_pos (by simp [less]),
        ih ascending, List.cons_append, if_congr here rfl rfl]
    · have behind (m : Nat) (le : m ≤ i + 1) : ids.filter (· < m) = [] :=
        List.filter_eq_nil_iff.2 fun j mem => by have := above j mem; simp; omega
      rw [List.filter_cons_of_pos (by simp), List.filter_cons_of_neg (by simp),
        behind (i + 1) le_rfl, behind i (Nat.le_succ i), if_pos List.mem_cons_self, List.nil_append]
    · have here : n ∈ i :: ids ↔ n ∈ ids := by simp [greater.ne]
      rw [List.filter_cons_of_neg (by simp; omega), List.filter_cons_of_neg (by simp; omega),
        ih ascending, if_congr here rfl rfl]

namespace Outline

variable {κ : Type} [Scalar κ]

/-- What an item costs. -/
def costAt (outline : Outline κ) (item : Nat) : κ :=
  ((outline.index.label? item).map (·.cost)).getD Scalar.zero

/-- An item when so many items are found. -/
def itemAmong (outline : Outline κ) (count item : Nat) : FoldedItem κ :=
  ⟨outline.costAt item, outline.index.parent? item,
    (outline.index.children item).filter (· < count)⟩

/-- The first items, each with those of its children that are among them. -/
def firstItems (outline : Outline κ) (count : Nat) : SideTable (FoldedItem κ) :=
  .ofFn count (outline.itemAmong count)

/-- The next item is a further child of its parent. -/
theorem itemAmong_succ (outline : Outline κ) (count item : Nat) :
    outline.itemAmong (count + 1) item
      = { outline.itemAmong count item with
          children := (outline.itemAmong count item).children
            ++ if outline.index.parent? count = some item then [count] else [] } := by
  have child : count ∈ outline.index.children item ↔ outline.index.parent? count = some item :=
    TreeIndex.mem_children_iff
  have ascending : (outline.index.children item).Pairwise (· < ·) :=
    TreeIndex.ascending_children item
  simp only [itemAmong, filter_lt_succ ascending, child]

/-- No child of an item comes before it. -/
theorem itemAmong_self (outline : Outline κ) (item : Nat) :
    outline.itemAmong (item + 1) item
      = ⟨outline.costAt item, outline.index.parent? item, []⟩ := by
  rw [itemAmong, List.filter_eq_nil_iff.2]
  intro c child
  have := (TreeIndex.bounds_of_parent? (TreeIndex.mem_children_iff.1 child)).1
  simp
  omega

theorem adopt?_firstItems (outline : Outline κ) (count : Nat) :
    Folding.adopt? (outline.firstItems count) (outline.index.parent? count)
      = some (.ofFn count (outline.itemAmong (count + 1))) := by
  cases above : outline.index.parent? count with
  | none =>
    refine congrArg some (SideTable.ofFn_congr fun item _ => ?_)
    simp [itemAmong_succ, above]
  | some parent =>
    have less := (TreeIndex.bounds_of_parent? above).1
    rw [Folding.adopt?, firstItems, SideTable.size_ofFn, SideTable.modify?_ofFn less]
    refine congrArg some (SideTable.ofFn_congr fun item _ => ?_)
    rw [Function.update_apply, itemAmong_succ, above]
    by_cases here : item = parent
    · simp [here]
    · simp [here, Ne.symm here]

/-- The next item is added to those before it. -/
theorem addItem?_firstItems (outline : Outline κ) (count : Nat) :
    Folding.addItem? (outline.firstItems count) (outline.costAt count)
        (outline.index.parent? count)
      = some (count, outline.firstItems (count + 1)) := by
  rw [Folding.addItem?, adopt?_firstItems, Option.map_some, ← itemAmong_self, SideTable.push_ofFn,
    firstItems]

end Outline

namespace Folding

variable {κ : Type} [Scalar κ] {t : Node κ} {id : Nat}

/-! ### The pass -/

/-- What the pass has found before a number: the items of nodes with smaller numbers, and the owners
of these nodes. -/
def upTo (t : Node κ) (id : Nat) : Folding κ :=
  ⟨(Outline.ofNode t).firstItems (rank t.hasIndicator id),
    .ofFn t.size fun i => if i < id then t.ownerAt i else none⟩

theorem start_eq_upTo (t : Node κ) : start t.size = upTo t 1 := by
  have owners : SideTable.filled t.size none
      = .ofFn t.size fun i => if i < 1 then t.ownerAt i else none := by
    rw [SideTable.filled_eq_ofFn]
    refine SideTable.ofFn_congr fun i _ => ?_
    split
    case isTrue first => rw [Nat.lt_one_iff.1 first, Node.ownerAt_zero]
    case isFalse => rfl
  rw [start, upTo, rank_succ, rank_zero, Node.hasIndicator_zero, owners]
  rfl

/-- The owner of a node is the last one to be noted. -/
theorem set?_owners_upTo (lt : id < t.size) :
    (upTo t id).owners.set? id (t.ownerAt id) = some (upTo t (id + 1)).owners := by
  dsimp only [upTo]
  rw [SideTable.set?_ofFn lt]
  refine congrArg some (SideTable.ofFn_congr fun i _ => ?_)
  rw [Function.update_apply]
  by_cases here : i = id
  · rw [if_pos here, here, if_pos (Nat.lt_succ_self id)]
  · rw [if_neg here]
    exact if_congr (by omega) rfl rfl

/-- Taking in a node leads to the next number. -/
theorem step?_upTo (inner : id ≠ 0) (lt : id < t.size) :
    step? (TreeIndex.ofTree t) (upTo t id) id = some (upTo t (id + 1)) := by
  obtain ⟨above, parent⟩ := TreeIndex.exists_parent? lt inner
  have less := (TreeIndex.parent?_lt parent).1
  have inherited : (upTo t id).inherited? (TreeIndex.ofTree t) id = some (t.itemOver id) := by
    rw [inherited?, parent, Node.itemOver_of_parent parent]
    dsimp only [upTo]
    rw [SideTable.get?_ofFn, if_pos (less.trans lt), if_pos less]
  have noted := set?_owners_upTo lt
  rw [step?, inherited]
  cases marked : t.hasIndicator id with
  | false =>
    obtain ⟨a, label⟩ : ∃ a, (TreeIndex.ofTree t).label? id = some a := by
      rw [TreeIndex.label?_ofTree]
      exact ⟨_, List.getElem?_eq_getElem (by rwa [length_preorder])⟩
    have unusable : a.cost? = none := by
      simpa [Node.hasIndicator, inner, label] using marked
    rw [Node.ownerAt, if_neg (by simp [marked])] at noted
    have same : rank t.hasIndicator (id + 1) = rank t.hasIndicator id := by
      simp [rank_succ, marked]
    simp only [label, unusable, noted, Option.bind_eq_bind, Option.bind_some]
    rw [upTo, upTo, same]
    rfl
  | true =>
    obtain ⟨item_parent, a, cost, label, usable, item_label⟩ := Node.exists_item marked
    have item_cost : (Outline.ofNode t).costAt (rank t.hasIndicator id) = cost := by
      rw [Outline.costAt, item_label, Option.map_some, Option.getD_some]
    have added : addItem? (upTo t id).items _ _ = _ :=
      (Outline.ofNode t).addItem?_firstItems (rank t.hasIndicator id)
    rw [item_cost, item_parent] at added
    rw [Node.ownerAt, if_pos marked] at noted
    have next : rank t.hasIndicator (id + 1) = rank t.hasIndicator id + 1 := by
      rw [rank_succ, if_pos marked]
    simp only [label, usable, added, noted, Option.bind_eq_bind, Option.bind_some]
    rw [← next]
    rfl

/-- Taking in further nodes leads to the number behind them. -/
theorem foldlM_step?_upTo (inner : id ≠ 0) (count : Nat) (le : id + count ≤ t.size) :
    (List.range' id count).foldlM (step? (TreeIndex.ofTree t)) (upTo t id)
      = some (upTo t (id + count)) := by
  induction count generalizing id with
  | zero => rfl
  | succ count ih =>
    rw [List.range'_succ, List.foldlM_cons, step?_upTo inner (by omega), Option.bind_eq_bind,
      Option.bind_some, ih (Nat.succ_ne_zero id) (by omega), Nat.succ_add]
    rfl

/-- One pass ends with what the outline says of all nodes. -/
theorem ofNode?_eq_upTo (t : Node κ) : ofNode? t = some (upTo t t.size) := by
  have size_eq := size_eq_add_one t
  have inner : (List.range t.size).filter (· != 0) = List.range' 1 (sizeAll t.children) := by
    rw [size_eq, List.range_eq_range', List.range'_succ, List.filter_cons_of_neg (by simp),
      List.filter_eq_self]
    intro id mem
    have := (List.mem_range'_1.1 mem).1
    simp
    omega
  rw [ofNode?, TreeIndex.ids_ofTree, TreeIndex.size_ofTree, inner, start_eq_upTo,
    foldlM_step?_upTo one_ne_zero _ (by omega), size_eq, Nat.add_comm]

theorem owners_upTo_size (t : Node κ) : (upTo t t.size).owners = (Outline.ofNode t).owners := by
  refine SideTable.ext_get? fun id => ?_
  have size_owners : (Outline.ofNode t).owners.size = t.size := by
    have count := Node.length_ownersAllFrom none 0 t.children
    rw [size_eq_add_one, ← count, ← List.length_cons]
    exact SideTable.size_ofList _
  dsimp only [upTo]
  rw [SideTable.get?_ofFn]
  by_cases lt : id < t.size
  · rw [if_pos lt, if_pos lt, Node.get?_owners lt]
  · rw [if_neg lt, eq_comm, SideTable.get?_eq_none_iff, size_owners]
    exact not_lt.1 lt

theorem items_upTo_size (t : Node κ) :
    (upTo t t.size).items
      = (Outline.ofNode t).firstItems (Outline.ofNode t).size := by
  rw [← Node.rank_size, upTo]

end Folding

/-! ### Mirrors of a tree -/

namespace Outline

variable {κ : Type} [Scalar κ]

/-- All items of an outline, with all of their children. -/
theorem firstItems_size (outline : Outline κ) :
    outline.firstItems outline.size = .ofFn outline.size fun item =>
      ⟨outline.costAt item, outline.index.parent? item, outline.index.children item⟩ := by
  refine SideTable.ofFn_congr fun item _ => ?_
  rw [itemAmong, List.filter_eq_self.2]
  intro child mem
  have inside : child < outline.size :=
    (TreeIndex.bounds_of_parent? (TreeIndex.mem_children_iff.1 mem)).2
  simpa using inside

/-- An outline mirrors a tree. Its items are the nodes with an indicator, in preorder, and an item
costs what its node does. The parent of an item is that of the nearest node with an indicator above
its node, if there is one, and its children ascend. An item owns its node, and any other node
inherits its owner. The items of a subtree are the item at its root and those that it is above. -/
structure Mirrors (outline : Outline κ) (t : Node κ) : Prop where
  size : outline.size = t.indicated.length
  label : ∀ item id, t.indicated[item]? = some id → ∃ a cost,
    (TreeIndex.ofTree t).label? id = some a ∧ a.cost? = some cost ∧
      outline.index.label? item = some ⟨item, cost⟩ ∧ outline.costAt item = cost
  parent : ∀ item id, t.indicated[item]? = some id → t.Inherits id (outline.index.parent? item)
  mem_children : ∀ item child,
    child ∈ outline.index.children item ↔ outline.index.parent? child = some item
  ascending : ∀ item, (outline.index.children item).Pairwise (· < ·)
  own : ∀ item id, t.indicated[item]? = some id → outline.owners.get? id = some (some item)
  other : ∀ id < t.size, t.hasIndicator id = false →
    ∃ owner, outline.owners.get? id = some owner ∧ t.Inherits id owner
  subtree : ∀ item < outline.size, ∀ i,
    item ≤ i ∧ i < outline.index.stop item ↔ i = item ∨ outline.index.Above item i

theorem mirrors_ofNode (t : Node κ) : (ofNode t).Mirrors t where
  size := by rw [Node.length_indicated, Node.rank_size]
  label item id at_item := by
    obtain ⟨marked, rfl⟩ := Node.getElem?_indicated_iff.1 at_item
    obtain ⟨-, a, cost, label, usable, item_label⟩ := Node.exists_item marked
    refine ⟨a, cost, label, usable, item_label, ?_⟩
    rw [costAt, item_label, Option.map_some, Option.getD_some]
  parent item id at_item := by
    obtain ⟨marked, rfl⟩ := Node.getElem?_indicated_iff.1 at_item
    rw [(Node.exists_item marked).1]
    exact Node.inherits_itemOver (Node.lt_of_hasIndicator marked)
  mem_children item child := TreeIndex.mem_children_iff
  ascending item := TreeIndex.ascending_children item
  own item id at_item := by
    obtain ⟨marked, rfl⟩ := Node.getElem?_indicated_iff.1 at_item
    rw [Node.get?_owners (Node.lt_of_hasIndicator marked), Node.ownerAt, if_pos marked]
  other id lt unmarked := by
    refine ⟨t.itemOver id, ?_, Node.inherits_itemOver lt⟩
    rw [Node.get?_owners lt, Node.ownerAt, if_neg (by simp [unmarked])]
  subtree item lt i := by
    have below : i ∈ (ofNode t).index.descendants item ↔ (ofNode t).index.Above item i :=
      TreeIndex.mem_descendants_iff_above
    have self := (TreeIndex.mem_path_iff lt).1 (TreeIndex.mem_path_self item)
    rw [← below]
    simp only [index, TreeIndex.mem_descendants_iff]
    constructor
    · rintro ⟨le, within⟩
      omega
    · rintro (rfl | ⟨less, within⟩)
      · exact self
      · exact ⟨less.le, within⟩

/-- The outline of a tree mirrors it. One pass over the nodes finds its items and owners, and a pass
from the last item to the first where the subtrees of the items end. -/
theorem ofNode_mirrors_tree (t : Node κ) :
    let outline := ofNode t
    outline.Mirrors t ∧ ∃ f, Folding.ofNode? t = some f ∧ f.owners = outline.owners ∧
      f.items = .ofFn outline.size (fun item =>
        ⟨outline.costAt item, outline.index.parent? item, outline.index.children item⟩) ∧
      f.stops? = some (.ofFn outline.size outline.index.stop) := by
  intro outline
  have items : (Folding.upTo t t.size).items = .ofFn outline.size fun item =>
      ⟨outline.costAt item, outline.index.parent? item, outline.index.children item⟩ := by
    rw [Folding.items_upTo_size, firstItems_size]
  refine ⟨mirrors_ofNode t, _, Folding.ofNode?_eq_upTo t, Folding.owners_upTo_size t, items, ?_⟩
  rw [Folding.stops?, items, SideTable.map_ofFn]
  exact SideTable.stops?_ofFn outline.forest

end Outline

end SureCode
