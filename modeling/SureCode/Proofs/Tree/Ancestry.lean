import Mathlib
import SureCode.Proofs.Tree.Index

/-!
# Subtrees and ancestors by number

What stands behind the numbers of an index. The number of a node is its place among the subtrees in
preorder, and the nodes of its subtree follow it there (`getElem?_subtreesAll_add`), so its children
are the numbers at which its child trees stand, from left to right (`map_children`), and the numbers
behind it up to the end of its subtree are those of the nodes below it (`map_descendants`). The same
said with parents alone: a node is a descendant of another when parents lead from it there
(`mem_descendants_iff_above`). The nearest marked node above a node is the first one on its path
(`nearest_of_find?`).
-/

namespace SureCode

namespace Tree

variable {α : Type} {ts : List (Tree α)} {u : Tree α} {k j : Nat}

/-! ### Subtrees in preorder -/

theorem subtrees_eq_cons (t : Tree α) : t.subtrees = t :: subtreesAll t.children := by
  cases t
  rw [subtrees, children_node]

theorem subtreesAll_singleton (t : Tree α) : subtreesAll [t] = t.subtrees := by
  rw [subtreesAll, subtreesAll, List.append_nil]

theorem length_subtrees (t : Tree α) : t.subtrees.length = t.size := by
  rw [← length_preorder, ← map_label_subtrees, List.length_map]

theorem length_subtreesAll (ts : List (Tree α)) : (subtreesAll ts).length = sizeAll ts := by
  rw [← length_preorderAll, ← map_label_subtreesAll, List.length_map]

theorem exists_subtree (lt : k < sizeAll ts) : ∃ u, (subtreesAll ts)[k]? = some u :=
  ⟨_, List.getElem?_eq_getElem (by rwa [length_subtreesAll])⟩

/-- The nodes of a subtree have the numbers from that of its root on. -/
theorem getElem?_subtreesAll_add (root : (subtreesAll ts)[k]? = some u) (lt : j < u.size) :
    (subtreesAll ts)[k + j]? = u.subtrees[j]? := by
  induction ts using forest_induction generalizing k with
  | nil => simp [subtreesAll] at root
  | cons a us ts below rest =>
    have length_first : (node a us).subtrees.length = sizeAll us + 1 := by
      rw [length_subtrees, size_node]
    rw [subtreesAll] at root ⊢
    by_cases first : k < sizeAll us + 1
    · rw [List.getElem?_append_left (by omega)] at root
      cases k with
      | zero =>
        rw [subtrees_eq_cons, List.getElem?_cons_zero, Option.some.injEq] at root
        rw [Nat.zero_add, ← root, List.getElem?_append_left]
        rwa [length_subtrees, root]
      | succ k =>
        rw [subtrees_eq_cons, List.getElem?_cons_succ, children_node] at root
        have inside := below root
        have within : k + j < sizeAll us := by
          rw [← length_subtreesAll]
          refine List.getElem?_eq_some_iff.1 (inside.trans (List.getElem?_eq_getElem ?_)) |>.1
          rwa [length_subtrees]
        rw [List.getElem?_append_left (by omega), subtrees_eq_cons, Nat.add_right_comm,
          List.getElem?_cons_succ, children_node, inside]
    · rw [List.getElem?_append_right (by omega)] at root ⊢
      rw [length_first] at root ⊢
      rw [show k + j - (sizeAll us + 1) = k - (sizeAll us + 1) + j by omega]
      exact rest root

theorem size_eq_add_one (t : Tree α) : t.size = sizeAll t.children + 1 := by
  cases t
  rw [size_node, children_node]

/-- The nodes below a node have the numbers after it. -/
theorem getElem?_subtreesAll_below (root : (subtreesAll ts)[k]? = some u)
    (lt : j < sizeAll u.children) :
    (subtreesAll ts)[k + 1 + j]? = (subtreesAll u.children)[j]? := by
  have inside : 1 + j < u.size := by
    rw [size_eq_add_one]
    omega
  rw [Nat.add_assoc, getElem?_subtreesAll_add root inside, subtrees_eq_cons, Nat.add_comm 1 j,
    List.getElem?_cons_succ]

/-- Sibling trees stand at their numbers. -/
theorem map_siblingNumbers (start : Nat) (ts : List (Tree α)) :
    (siblingNumbers start ts).map (fun c => (subtreesAll ts)[c - start]?) = ts.map some := by
  induction ts generalizing start with
  | nil => rfl
  | cons t ts ih =>
    have head : (subtreesAll (t :: ts))[0]? = some t := by
      rw [subtreesAll, subtrees_eq_cons, List.cons_append, List.getElem?_cons_zero]
    rw [siblingNumbers, List.map_cons, List.map_cons, Nat.sub_self, head, ← ih (start + t.size)]
    refine congrArg _ (List.map_congr_left fun c mem => ?_)
    have := (pairwise_siblingNumbers (start + t.size) ts).2 c mem
    rw [subtreesAll, List.getElem?_append_right (by rw [length_subtrees]; omega), length_subtrees,
      Nat.sub_sub]

theorem bounds_of_mem_siblingNumbers {start c : Nat} (mem : c ∈ siblingNumbers start ts) :
    start ≤ c ∧ c < start + sizeAll ts := by
  have low := (pairwise_siblingNumbers start ts).2 c mem
  have tree : (subtreesAll ts)[c - start]? ∈ ts.map some :=
    map_siblingNumbers start ts ▸ List.mem_map_of_mem mem
  obtain ⟨t, -, at_c⟩ := List.mem_map.1 tree
  have := (List.getElem?_eq_some_iff.1 at_c.symm).1
  rw [length_subtreesAll] at this
  omega

/-! ### Entries -/

/-- What the entries of a forest say of the nodes, read off the subtrees at them. -/
theorem map_entriesAll (above : List Nat) (start : Nat) (ts : List (Tree α)) :
    (entriesAll above start ts).map (fun e => (e.label, e.children, e.stop))
      = ((subtreesAll ts).zipIdx start).map fun p =>
          (p.1.label, siblingNumbers (p.2 + 1) p.1.children, p.2 + p.1.size) := by
  induction ts using forest_induction generalizing above start with
  | nil => rfl
  | cons a us ts below rest =>
    have behind : start + (sizeAll us + 1) = start + 1 + sizeAll us := by omega
    simp only [entriesAll, entries, subtreesAll, subtrees, List.map_append, List.map_cons,
      List.zipIdx_append, List.zipIdx_cons, List.length_cons, length_entriesAll,
      length_subtreesAll, below, rest, behind, label_node, children_node, size_node]

end Tree

namespace TreeIndex

open SureCode.Tree

variable {α : Type} {ts : List (Tree α)} {u : Tree α} {i id above : Nat}

/-- The entry of a node, read off the subtree at it. -/
theorem exists_entry_of_subtree (root : (subtreesAll ts)[id]? = some u) :
    ∃ e, (ofForest ts).entries[id]? = some e ∧ e.label = u.label ∧
      e.children = siblingNumbers (id + 1) u.children ∧ e.stop = id + u.size := by
  have entry : ((entriesAll [] 0 ts)[id]?).map (fun e => (e.label, e.children, e.stop))
      = some (u.label, siblingNumbers (id + 1) u.children, id + u.size) := by
    rw [← List.getElem?_map, map_entriesAll, List.getElem?_map, List.getElem?_zipIdx, root]
    simp
  obtain ⟨e, at_id, eq⟩ := Option.map_eq_some_iff.1 entry
  simp only [Prod.mk.injEq] at eq
  exact ⟨e, by simpa [ofForest] using at_id, eq⟩

theorem children_of_subtree (root : (subtreesAll ts)[id]? = some u) :
    (ofForest ts).children id = siblingNumbers (id + 1) u.children := by
  obtain ⟨e, entry, -, children_eq, -⟩ := exists_entry_of_subtree root
  rw [children, entry, Option.map_some, Option.getD_some, children_eq]

theorem stop_of_subtree (root : (subtreesAll ts)[id]? = some u) :
    (ofForest ts).stop id = id + u.size := by
  obtain ⟨e, entry, -, -, stop_eq⟩ := exists_entry_of_subtree root
  rw [stop, entry, Option.map_some, Option.getD_some, stop_eq]

/-- The children of a node are the numbers of its child trees, from left to right. -/
theorem map_children (root : (subtreesAll ts)[id]? = some u) :
    ((ofForest ts).children id).map (fun c => (subtreesAll ts)[c]?) = u.children.map some := by
  rw [children_of_subtree root, ← map_siblingNumbers (id + 1) u.children]
  refine List.map_congr_left fun c mem => ?_
  have bounds := bounds_of_mem_siblingNumbers mem
  obtain ⟨j, rfl⟩ := Nat.exists_eq_add_of_le bounds.1
  rw [Nat.add_sub_cancel_left]
  exact getElem?_subtreesAll_below root (by omega)

/-- The descendants of a node are the numbers of the nodes below its root, in preorder. -/
theorem map_descendants (root : (subtreesAll ts)[id]? = some u) :
    ((ofForest ts).descendants id).map (fun i => (subtreesAll ts)[i]?)
      = (subtreesAll u.children).map some := by
  have count : (ofForest ts).stop id - (id + 1) = (subtreesAll u.children).length := by
    rw [stop_of_subtree root, size_eq_add_one, length_subtreesAll]
    omega
  refine List.ext_getElem (by simp [descendants, count]) fun j inside within => ?_
  rw [List.length_map] at within
  simp only [descendants, List.getElem_map, List.getElem_range', Nat.one_mul]
  rw [getElem?_subtreesAll_below root (by rwa [← length_subtreesAll]),
    List.getElem?_eq_getElem within]

/-! ### Ancestors -/

theorem mem_descendants_iff : i ∈ (ofForest ts).descendants above ↔
    above < i ∧ i < (ofForest ts).stop above := by
  rw [descendants, List.mem_range'_1]
  omega

theorem lt_of_mem_descendants (mem : i ∈ (ofForest ts).descendants above) : i < sizeAll ts := by
  rw [mem_descendants_iff] at mem
  refine lt_of_mem_subtree ?_ (mem_subtree_iff.2 ⟨mem.1.le, mem.2⟩)
  by_contra outside
  rw [stop_of_le (not_lt.1 outside)] at mem
  omega

/-- The descendants of a node are its children and the descendants of its descendants. -/
theorem mem_descendants_iff_parent : i ∈ (ofForest ts).descendants above ↔
    ∃ p, (ofForest ts).parent? i = some p ∧ (p = above ∨ p ∈ (ofForest ts).descendants above) := by
  have on_path {i : Nat} (lt : i < sizeAll ts) :
      i ∈ (ofForest ts).descendants above ↔ above ≠ i ∧ above ∈ (ofForest ts).path i := by
    rw [mem_descendants_iff, mem_path_iff lt]
    omega
  constructor
  · intro mem
    have lt := lt_of_mem_descendants mem
    obtain ⟨ne, on⟩ := (on_path lt).1 mem
    obtain ⟨path, smaller⟩ := path_eq_cons lt
    rw [path, List.mem_cons] at on
    replace on := on.resolve_left ne
    cases parent : (ofForest ts).parent? i with
    | none => simp [parent] at on
    | some p =>
      rw [parent] at on
      refine ⟨p, rfl, ?_⟩
      rw [on_path ((smaller p parent).trans lt)]
      by_cases here : p = above
      · exact .inl here
      · exact .inr ⟨Ne.symm here, on⟩
  · rintro ⟨p, parent, here⟩
    obtain ⟨less, lt⟩ := bounds_of_parent? parent
    obtain ⟨path, -⟩ := path_eq_cons lt
    have on : above ∈ (ofForest ts).path p := by
      rcases here with rfl | mem
      · exact mem_path_self p
      · exact ((on_path (less.trans lt)).1 mem).2
    have le := ((mem_path_iff (less.trans lt)).1 on).1
    refine (on_path lt).2 ⟨by omega, ?_⟩
    rw [path, parent]
    exact List.mem_cons_of_mem i on

/-- Every node but the root has a parent. -/
theorem exists_parent? {t : Tree α} (lt : id < t.size) (inner : id ≠ 0) :
    ∃ above, (ofTree t).parent? id = some above := by
  have root : (subtreesAll [t])[0]? = some t := by
    rw [subtreesAll_singleton, subtrees_eq_cons, List.getElem?_cons_zero]
  have below_root : id ∈ (ofForest [t]).descendants 0 := by
    rw [mem_descendants_iff, stop_of_subtree root, Nat.zero_add]
    exact ⟨Nat.pos_of_ne_zero inner, lt⟩
  obtain ⟨p, parent, -⟩ := mem_descendants_iff_parent.1 below_root
  exact ⟨p, by rwa [ofTree_eq_ofForest]⟩

/-- Parents lead from a node to another above it. -/
def Above (index : TreeIndex α) : Nat → Nat → Prop :=
  Relation.TransGen fun above id => index.parent? id = some above

/-- The descendants of a node are those that it is above. -/
theorem mem_descendants_iff_above :
    i ∈ (ofForest ts).descendants above ↔ (ofForest ts).Above above i := by
  constructor
  · intro mem
    induction i using Nat.strong_induction_on with
    | _ i ih =>
      obtain ⟨p, parent, here⟩ := mem_descendants_iff_parent.1 mem
      have less := (bounds_of_parent? parent).1
      rcases here with rfl | mem
      · exact .single parent
      · exact .tail (ih p less mem) parent
  · intro leads
    induction leads with
    | single parent => exact mem_descendants_iff_parent.2 ⟨above, parent, .inl rfl⟩
    | tail _ parent ih => exact mem_descendants_iff_parent.2 ⟨_, parent, .inr ih⟩

/-! ### The nearest marked ancestor -/

/-- A node is the nearest marked one above another: all marked nodes above that are it or above
it. -/
structure Nearest (index : TreeIndex α) (marked : Nat → Bool) (near id : Nat) : Prop where
  isMarked : marked near = true
  isAbove : index.Above near id
  above_of_marked : ∀ other, index.Above other id → marked other = true →
    other = near ∨ index.Above other near

theorem mem_tail_path_iff (lt : id < sizeAll ts) :
    above ∈ ((ofForest ts).path id).tail ↔ (ofForest ts).Above above id := by
  have falls := pairwise_path lt
  obtain ⟨path, -⟩ := path_eq_cons lt
  have on : above ∈ (ofForest ts).path id ↔ above = id ∨ above ∈ ((ofForest ts).path id).tail := by
    rw [path, List.mem_cons, List.tail_cons]
  rw [path, List.pairwise_cons] at falls
  have less (mem : above ∈ ((ofForest ts).path id).tail) : above < id :=
    falls.1 above (by rwa [path] at mem)
  rw [← mem_descendants_iff_above, mem_descendants_iff]
  rw [mem_path_iff lt] at on
  constructor
  · intro mem
    have := on.2 (.inr mem)
    have := less mem
    omega
  · intro between
    exact (on.1 ⟨between.1.le, between.2⟩).resolve_left between.1.ne

variable {marked : Nat → Bool} {near : Nat}

/-- The first marked node on the path above a node is the nearest one. -/
theorem nearest_of_find? (lt : id < sizeAll ts)
    (found : ((ofForest ts).path id).tail.find? marked = some near) :
    (ofForest ts).Nearest marked near id := by
  obtain ⟨isMarked, before, after, split, unmarked⟩ := List.find?_eq_some_iff_append.1 found
  have falls := (pairwise_path lt).tail
  rw [split, List.pairwise_append, List.pairwise_cons] at falls
  have isAbove := (mem_tail_path_iff lt).1 (List.mem_of_find?_eq_some found)
  refine ⟨isMarked, isAbove, fun other leads other_marked => ?_⟩
  have mem := (mem_tail_path_iff lt).2 leads
  rw [split, List.mem_append, List.mem_cons] at mem
  obtain mem | rfl | mem := mem
  · have := unmarked other mem
    simp [other_marked] at this
  · exact .inl rfl
  · refine .inr ?_
    -- a smaller number above the same node is above this one
    have less := falls.2.1.1 other mem
    rw [← mem_descendants_iff_above, mem_descendants_iff] at leads isAbove ⊢
    exact ⟨less, isAbove.1.trans leads.2⟩

theorem unmarked_of_find? (lt : id < sizeAll ts)
    (found : ((ofForest ts).path id).tail.find? marked = none) :
    ∀ above, (ofForest ts).Above above id → marked above = false := by
  intro above leads
  have := List.find?_eq_none.1 found above ((mem_tail_path_iff lt).2 leads)
  simpa using this

/-- The first marked node above a node is its parent, or the first one above its parent. -/
theorem find?_tail_path {t : Tree α} (parent : (ofTree t).parent? id = some above)
    (marked : Nat → Bool) :
    ((ofTree t).path id).tail.find? marked
      = if marked above = true then some above else ((ofTree t).path above).tail.find? marked := by
  obtain ⟨less, lt⟩ := parent?_lt parent
  have inside {i : Nat} (lt : i < t.size) : i < sizeAll [t] := by rwa [sizeAll_singleton]
  rw [ofTree_eq_ofForest] at parent ⊢
  rw [(path_eq_cons (inside lt)).1, parent, List.tail_cons]
  dsimp only [Option.elim]
  rw [(path_eq_cons (inside (less.trans lt))).1, List.tail_cons, List.find?_cons]
  cases marked above <;> rfl

end TreeIndex

end SureCode
