import Mathlib
import SureCode.Proofs.Pruning.Picks
import SureCode.Proofs.Tree.Index
import SureCode.Pruning.Reconstruction

/-!
# Reconstruction row by row

When every kept node has its parent kept, reconstruction follows the keep decision exactly: node by
node, the marked tree is the tree with each node deleted or not as decided, the retained tree has
the kept nodes, the charges are theirs, and the holes are the dropped nodes under a kept parent.
-/

namespace SureCode

open SureCode.Tree

variable {κ : Type} {keep : Nat → Bool} {above : List Nat} {start : Nat} {us : List (Node κ)}
  {t : Node κ}

/-- A construct without what pruning adds to it. -/
def Construct.bare (a : Construct κ) : Construct κ := { a with deleted := none, name := none }

@[simp] theorem Construct.isDeleted_marked (a : Construct κ) (id : Nat) (deleted : Bool) :
    (a.marked id deleted).isDeleted = deleted := by
  cases deleted <;> rfl

namespace Node

/-! ### Closed selections -/

section Closed

variable {κ : Type} {t : Node κ} {keep : Nat → Bool} {id above : Nat}

/-- The holes of a closed selection, node by node. -/
theorem holesOn_eq_countP :
    holesOn keep (numbered [] 0 [t])
      = (List.range t.size).countP fun id =>
          !keep id && ((TreeIndex.ofTree t).parent? id).all keep := by
  have numbers : List.range t.size = (numbered [] 0 [t]).map (·.2) := by
    rw [map_snd_numbered, sizeAll_singleton, List.range_eq_range']
  rw [numbers, List.countP_map, holesOn]
  apply List.countP_congr
  rintro ⟨e, id⟩ mem
  simp [ofTree_eq_ofForest, TreeIndex.parent?_of_mem mem, Entry.parentKept]

/-- A closed selection keeps the parents of what it keeps. -/
theorem keep_parent (closed : ClosedOn keep (numbered [] 0 [t])) (keeps : keep id = true)
    (parent : (TreeIndex.ofTree t).parent? id = some above) : keep above = true := by
  have lt := (TreeIndex.parent?_lt parent).2
  rw [← sizeAll_singleton] at lt
  refine closedOn_iff_path.1 closed id lt keeps above ?_
  rw [ofTree_eq_ofForest] at parent
  rw [(TreeIndex.path_eq_cons lt).1, parent]
  exact List.mem_cons_of_mem id (TreeIndex.mem_path_self above)

/-- A selection is closed when it keeps the parents of what it keeps. -/
theorem closedOn_of_parents
    (closed : ∀ id above, (TreeIndex.ofTree t).parent? id = some above → keep id = true →
      keep above = true) : ClosedOn keep (numbered [] 0 [t]) := by
  rintro ⟨e, id⟩ mem keeps
  rw [Entry.parentKept, Option.all_eq_true]
  intro above parent
  rw [← TreeIndex.parent?_of_mem mem, ← ofTree_eq_ofForest] at parent
  exact closed id above parent keeps

end Closed

/-! ### The marked tree -/

/-- Marking changes nothing but marks and names. -/
theorem map_bare_markedAllAt (keep : Nat → Bool) (parentKept : Bool) (start : Nat)
    (us : List (Node κ)) :
    (markedAllAt keep parentKept start us).map (Tree.map Construct.bare)
      = us.map (Tree.map Construct.bare) := by
  induction us using forest_induction generalizing parentKept start with
  | nil => simp [markedAllAt]
  | cons a vs us below rest =>
    simp only [markedAllAt, markedAt, List.map_cons, map_node, below, rest]
    rfl

/-- In a closed set the parent of a kept node is kept. -/
theorem parent_and_root {a : Construct κ} {vs : List (Node κ)}
    (root : keep start = true → (rootEntry above start a vs).parentKept keep = true) :
    (above.head?.all keep && keep start) = keep start := by
  cases keeps : keep start with
  | false => rw [Bool.and_false]
  | true => simpa [Entry.parentKept, rootEntry] using root keeps

theorem preorderAll_markedAllAt (closed : ClosedOn keep (numbered above start us)) :
    preorderAll (markedAllAt keep (above.head?.all keep) start us)
      = (numbered above start us).map fun p => p.1.label.marked p.2 !keep p.2 := by
  induction us using forest_induction generalizing above start with
  | nil => simp [markedAllAt, preorderAll]
  | cons a vs us below rest =>
    rw [numbered_cons, closedOn_cons, closedOn_append] at closed
    obtain ⟨root, closed_below, closed_rest⟩ := closed
    have ih_below := below closed_below
    rw [List.head?_cons, Option.all_some] at ih_below
    have behind : start + (sizeAll vs + 1) = start + 1 + sizeAll vs := by omega
    simp only [markedAllAt, markedAt, preorderAll, preorder_node, parent_and_root root, ih_below,
      size_node, behind, rest closed_rest, numbered_cons, List.map_cons, List.map_append,
      List.cons_append, rootEntry]

theorem holesUnderAll_markedAllAt (closed : ClosedOn keep (numbered above start us)) :
    holesUnderAll (!above.head?.all keep) (markedAllAt keep (above.head?.all keep) start us)
      = holesOn keep (numbered above start us) := by
  induction us using forest_induction generalizing above start with
  | nil => simp [markedAllAt, holesUnderAll, holesOn]
  | cons a vs us below rest =>
    rw [numbered_cons, closedOn_cons, closedOn_append] at closed
    obtain ⟨root, closed_below, closed_rest⟩ := closed
    have ih_below := below closed_below
    rw [List.head?_cons, Option.all_some] at ih_below
    have behind : start + (sizeAll vs + 1) = start + 1 + sizeAll vs := by omega
    simp only [markedAllAt, markedAt, holesUnderAll, holesUnder, parent_and_root root,
      Construct.isDeleted_marked, ih_below, size_node, behind, rest closed_rest, numbered_cons,
      holesOn_cons, holesOn_append, Entry.parentKept, rootEntry, Bool.not_not]
    rw [Nat.add_assoc]
    exact Nat.add_comm ..

/-! ### The retained nodes -/

/-- A dropped root takes all that is below it along. -/
theorem filter_numbered_cons {a : Construct κ} {vs : List (Node κ)}
    (closed : ClosedOn keep (numbered (start :: above) (start + 1) vs)) :
    (numbered above start (node a vs :: us)).filter (fun p => keep p.2)
      = (if keep start then (rootEntry above start a vs, start) ::
            (numbered (start :: above) (start + 1) vs).filter fun p => keep p.2 else [])
        ++ (numbered above (start + 1 + sizeAll vs) us).filter fun p => keep p.2 := by
  rw [numbered_cons, List.filter_cons, List.filter_append]
  cases keeps : keep start with
  | true => rfl
  | false =>
    have none := closed.not_kept rfl keeps
    have nothing : (numbered (start :: above) (start + 1) vs).filter (fun p => keep p.2) = [] := by
      simpa [List.filter_eq_nil_iff] using none
    rw [nothing]
    rfl

theorem preorderAll_retainedAllAt (closed : ClosedOn keep (numbered above start us))
    (parent : above.head?.all keep = true) :
    preorderAll (retainedAllAt keep start us)
      = ((numbered above start us).filter fun p => keep p.2).map
          fun p => p.1.label.marked p.2 false := by
  induction us using forest_induction generalizing above start with
  | nil => simp [retainedAllAt, preorderAll]
  | cons a vs us below rest =>
    rw [numbered_cons, closedOn_cons, closedOn_append] at closed
    obtain ⟨-, closed_below, closed_rest⟩ := closed
    have behind : start + (sizeAll vs + 1) = start + 1 + sizeAll vs := by omega
    have ih_rest := rest closed_rest parent
    rw [retainedAllAt, retainedAt, preorderAll_append, size_node, behind, ih_rest,
      filter_numbered_cons closed_below]
    cases keeps : keep start with
    | true =>
      have ih_below := below closed_below (by simpa using keeps)
      simp [preorderAll, ih_below, rootEntry]
    | false => simp [preorderAll]

/-- The charges are those of the retained nodes. -/
theorem chargesAllAt_eq_map [Scalar κ] (keep : Nat → Bool) (start : Nat) (us : List (Node κ)) :
    chargesAllAt keep start us = (preorderAll (retainedAllAt keep start us)).map (·.charge) := by
  induction us using forest_induction generalizing start with
  | nil => simp [chargesAllAt, retainedAllAt, preorderAll]
  | cons a vs us below rest =>
    rw [chargesAllAt, chargesAt, retainedAllAt, retainedAt, preorderAll_append, List.map_append,
      rest]
    cases keeps : keep start with
    | true => simp [preorderAll, below, Construct.marked, Construct.charge, Construct.cost?]
    | false => simp [preorderAll]

theorem chargesAllAt_eq [Scalar κ] (closed : ClosedOn keep (numbered above start us))
    (parent : above.head?.all keep = true) :
    chargesAllAt keep start us
      = ((numbered above start us).filter fun p => keep p.2).map fun p => p.1.label.charge := by
  rw [chargesAllAt_eq_map, preorderAll_retainedAllAt closed parent, List.map_map]
  rfl

mutual

/-- No more nodes are retained than there are. -/
theorem length_chargesAt_le [Scalar κ] (keep : Nat → Bool) (id : Nat) (t : Node κ) :
    (chargesAt keep id t).length ≤ t.size := by
  match t with
  | node a ts =>
    have below := length_chargesAllAt_le keep (id + 1) ts
    rw [chargesAt, size_node]
    split
    · exact Nat.succ_le_succ below
    · exact Nat.zero_le _

theorem length_chargesAllAt_le [Scalar κ] (keep : Nat → Bool) (id : Nat) (ts : List (Node κ)) :
    (chargesAllAt keep id ts).length ≤ sizeAll ts := by
  match ts with
  | [] => exact Nat.zero_le _
  | t :: ts =>
    rw [chargesAllAt, List.length_append, sizeAll]
    exact Nat.add_le_add (length_chargesAt_le keep id t) (length_chargesAllAt_le keep _ ts)

end

/-! ### Reconstructions -/

/-- Whether a node of a marked tree is retained. -/
def retains (t : Node κ) (id : Nat) : Bool :=
  ((TreeIndex.ofTree t).label? id).any fun a => !a.isDeleted

section Reconstruct

variable [Scalar κ]

theorem annotated_eq (keep : Nat → Bool) (t : Node κ) :
    (t.reconstruct keep).annotated = markedAt keep true 0 t := rfl

theorem map_bare_annotated (keep : Nat → Bool) (t : Node κ) :
    (t.reconstruct keep).annotated.map Construct.bare = t.map Construct.bare := by
  have := map_bare_markedAllAt keep true 0 [t]
  rw [annotated_eq]
  simpa [markedAllAt] using this

variable (closed : ClosedOn keep (numbered [] 0 [t]))

include closed

theorem preorder_annotated :
    (t.reconstruct keep).annotated.preorder
      = (numbered [] 0 [t]).map fun p => p.1.label.marked p.2 !keep p.2 := by
  have := preorderAll_markedAllAt closed
  rw [annotated_eq]
  simpa [markedAllAt, preorderAll] using this

theorem preorder_pruned {v : Node κ} (pruned : (t.reconstruct keep).pruned = some v) :
    v.preorder = (t.reconstruct keep).annotated.preorder.filter fun a => !a.isDeleted := by
  have all := preorderAll_retainedAllAt closed rfl
  have one : retainedAt keep 0 t = some v := pruned
  simp only [retainedAllAt, one, Option.toList_some, List.append_nil, preorderAll] at all
  rw [all, preorder_annotated closed, List.filter_map]
  simp only [Function.comp_def, Construct.isDeleted_marked, Bool.not_not]
  apply List.map_congr_left
  intro p mem
  simp [(List.mem_filter.1 mem).2]

theorem retains_annotated {id : Nat} (lt : id < t.size) :
    (t.reconstruct keep).annotated.retains id = keep id := by
  obtain ⟨e, mem⟩ := exists_numbered [] [t] (Nat.zero_le id) (by simpa [sizeAll_singleton] using lt)
  have at_row : (numbered [] 0 [t])[id]? = some (e, id) := by
    have entry := TreeIndex.mem_numbered_iff.1 mem
    simp only [TreeIndex.ofForest, List.getElem?_toArray] at entry
    simp [numbered, List.getElem?_zipIdx, entry]
  rw [retains, TreeIndex.label?_ofTree, preorder_annotated closed, List.getElem?_map, at_row]
  simp

theorem holes_annotated :
    (t.reconstruct keep).annotated.holes = holesOn keep (numbered [] 0 [t]) := by
  have := holesUnderAll_markedAllAt closed
  rw [annotated_eq, holes]
  simpa [markedAllAt, holesUnderAll] using this

omit closed in
theorem exists_pruned (root : keep 0 = true) : ∃ v, (t.reconstruct keep).pruned = some v := by
  cases t
  exact ⟨_, if_pos root⟩

end Reconstruct

end Node

end SureCode
