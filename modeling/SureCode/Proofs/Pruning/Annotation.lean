import Mathlib
import SureCode.Proofs.Containment.Embedding
import SureCode.Proofs.Pruning.Reconstruction

/-!
# The two trees of a keep decision

A keep decision need not respect the tree: it may keep a node under one that it drops. What counts is
whether it keeps everything on the path of a node. The annotated tree says so at every node
(`preorderAll_markedAllAt_path`), and what is not deleted in it is the pruned tree
(`survivorsAll_markedAllAt`). So the two trees count the same nodes, and containment does not tell
them apart (`reconstruct_agrees`). A name ends in the number of its node, after the last colon, so no
two nodes have the same (`eq_of_name_eq`).
-/

namespace SureCode

open SureCode.Tree

variable {κ : Type} {keep : Nat → Bool} {above : List Nat} {start : Nat} {us : List (Node κ)}

/-! ### Names -/

/-- What stands after the last colon of a name is the number of its node. -/
theorem eq_of_name_eq {code code' : String} {i j : Nat}
    (same : code ++ "::" ++ toString i = code' ++ "::" ++ toString j) : i = j := by
  have plain (n : Nat) : ∀ c ∈ (Nat.toDigits 10 n).reverse, (c != ':') = true := by
    intro c mem
    have digit := Nat.isDigit_of_mem_toDigits (by decide) (by decide) (List.mem_reverse.1 mem)
    rw [bne_iff_ne]
    rintro rfl
    exact absurd digit (by decide)
  have number (code : String) (n : Nat) :
      (code ++ "::" ++ toString n).toList.reverse.takeWhile (· != ':')
        = (Nat.toDigits 10 n).reverse := by
    rw [String.toList_append, String.toList_append, List.reverse_append, List.reverse_append,
      Nat.toString_eq_repr, Nat.toList_repr, List.takeWhile_append_of_pos (plain n)]
    exact List.append_nil _
  have digits : Nat.toDigits 10 i = Nat.toDigits 10 j := by
    rw [← List.reverse_inj, ← number code i, ← number code' j, same]
  have value := congrArg (fun ds => Nat.ofDigitChars 10 ds 0) digits
  simpa using value

namespace Node

/-! ### Marks -/

/-- A node is marked as retained when everything on its path is kept. -/
theorem preorderAll_markedAllAt_path (keep : Nat → Bool) (above : List Nat) (start : Nat)
    (us : List (Node κ)) :
    preorderAll (markedAllAt keep (above.all keep) start us)
      = (numbered above start us).map fun p =>
          p.1.label.marked p.2 !(p.2 :: p.1.ancestors).all keep := by
  induction us using forest_induction generalizing above start with
  | nil => simp [markedAllAt, preorderAll]
  | cons a vs us below rest =>
    have path : (above.all keep && keep start) = (start :: above).all keep := by
      rw [List.all_cons, Bool.and_comm]
    have behind : start + (sizeAll vs + 1) = start + 1 + sizeAll vs := by omega
    simp only [markedAllAt, markedAt, preorderAll, preorder_node, path, below, size_node, behind,
      rest, numbered_cons, List.map_cons, List.map_append, List.cons_append, rootEntry]

theorem preorder_annotated_path [Scalar κ] (keep : Nat → Bool) (t : Node κ) :
    (t.reconstruct keep).annotated.preorder
      = (numbered [] 0 [t]).map fun p =>
          p.1.label.marked p.2 !(p.2 :: p.1.ancestors).all keep := by
  have := preorderAll_markedAllAt_path keep [] 0 [t]
  simpa [markedAllAt, preorderAll, annotated_eq] using this

/-! ### Retained nodes -/

/-- What is not deleted among marked siblings are the retained nodes, if their parent is one. -/
theorem survivorsAll_markedAllAt (keep : Nat → Bool) (parentKept : Bool) (start : Nat)
    (us : List (Node κ)) :
    survivorsAll (markedAllAt keep parentKept start us)
      = if parentKept then retainedAllAt keep start us else [] := by
  induction us using forest_induction generalizing parentKept start with
  | nil => simp [markedAllAt, survivorsAll, retainedAllAt]
  | cons a vs us below rest =>
    rw [markedAllAt, survivorsAll, rest, retainedAllAt, retainedAt, markedAt, label_node,
      Construct.isDeleted_marked, survivors, below]
    cases parentKept with
    | false => simp
    | true => cases keeps : keep start <;> simp

/-- There are as many charges as retained nodes. -/
theorem length_chargesAllAt [Scalar κ] (keep : Nat → Bool) (start : Nat) (us : List (Node κ)) :
    (chargesAllAt keep start us).length = sizeAll (retainedAllAt keep start us) := by
  induction us using forest_induction generalizing start with
  | nil => simp [chargesAllAt, retainedAllAt, sizeAll]
  | cons a vs us below rest =>
    rw [chargesAllAt, chargesAt, retainedAllAt, retainedAt, List.length_append, sizeAll_append, rest]
    cases keeps : keep start with
    | false => simp [sizeAll]
    | true => simp [sizeAll, below]

/-- The nodes that are not marked as deleted are as many as the retained ones. -/
theorem countP_markedAllAt (keep : Nat → Bool) (parentKept : Bool) (start : Nat)
    (us : List (Node κ)) :
    (preorderAll (markedAllAt keep parentKept start us)).countP (fun a => !a.isDeleted)
      = if parentKept then sizeAll (retainedAllAt keep start us) else 0 := by
  induction us using forest_induction generalizing parentKept start with
  | nil => simp [markedAllAt, preorderAll, retainedAllAt, sizeAll]
  | cons a vs us below rest =>
    rw [markedAllAt, preorderAll, markedAt, preorder_node, List.countP_append, List.countP_cons,
      below, rest, retainedAllAt, retainedAt, sizeAll_append, Construct.isDeleted_marked]
    cases parentKept with
    | false => simp
    | true => cases keeps : keep start <;> simp [sizeAll]

section Reconstruct

variable [Scalar κ] (keep : Nat → Bool) (t : Node κ)

/-- The pruned tree is what is not deleted in the annotated one. -/
theorem pruned_eq_survivors :
    (t.reconstruct keep).pruned
      = if keep 0 then some (t.reconstruct keep).annotated.survivors else none := by
  cases t with
  | node a us =>
    simp only [reconstruct, retainedAt, markedAt, survivors, survivorsAll_markedAllAt, Bool.true_and]
    cases keeps : keep 0 <;> simp

theorem kept_eq_size : (t.reconstruct keep).kept = ((t.reconstruct keep).pruned.map size).getD 0 := by
  have count := length_chargesAllAt keep 0 [t]
  simp only [chargesAllAt, retainedAllAt, List.append_nil] at count
  change (chargesAt keep 0 t).length = ((retainedAt keep 0 t).map size).getD 0
  rw [count]
  cases retainedAt keep 0 t <;> simp [sizeAll]

theorem kept_eq_retained : (t.reconstruct keep).kept = (t.reconstruct keep).annotated.retained := by
  have count := countP_markedAllAt keep true 0 [t]
  simp only [markedAllAt, preorderAll, List.append_nil, if_true] at count
  rw [annotated_eq, retained, count, ← length_chargesAllAt]
  simp [chargesAllAt, reconstruct]

/-- All nodes of the annotated tree have names, and no two the same. -/
theorem exists_names :
    ∃ names : List String,
      (t.reconstruct keep).annotated.preorder.map (·.name) = names.map some ∧ names.Nodup := by
  let name (p : Entry (Construct κ) × Nat) : String := p.1.label.code ++ "::" ++ toString p.2
  have numbers : ((numbered [] 0 [t]).map (·.2)).Nodup := by
    rw [map_snd_numbered]
    exact List.nodup_range'
  refine ⟨(numbered [] 0 [t]).map name, ?_, ?_⟩
  · rw [preorder_annotated_path, List.map_map, List.map_map]
    rfl
  · rw [List.Nodup, List.pairwise_map] at numbers ⊢
    exact numbers.imp fun differ same => differ (eq_of_name_eq same)

end Reconstruct

end Node

variable [Scalar κ]

/-- The two trees of a keep decision agree. The annotated one is the given tree but for marks and
names: a node is marked as retained when it and everything above it are kept, and as deleted
otherwise, and no two nodes have the same name. The pruned one is the annotated one without what is
deleted, and absent if the root is. As many nodes are counted as either has left, and in any target
both are found or neither, with the same mismatch. -/
theorem reconstruct_agrees (keep : Nat → Bool) (t : Node κ) :
    (t.reconstruct keep).annotated.map Construct.bare = t.map Construct.bare ∧
      (∀ id a, (TreeIndex.ofTree (t.reconstruct keep).annotated).label? id = some a →
        a.deleted = some !((TreeIndex.ofTree t).path id).all keep) ∧
      (t.reconstruct keep).pruned
        = (if keep 0 then some (t.reconstruct keep).annotated.survivors else none) ∧
      (t.reconstruct keep).kept = (t.reconstruct keep).annotated.retained ∧
      (t.reconstruct keep).kept = ((t.reconstruct keep).pruned.map size).getD 0 ∧
      (∃ names : List String,
        (t.reconstruct keep).annotated.preorder.map (·.name) = names.map some ∧ names.Nodup) ∧
      ∀ (targetSource : List Char) (target : Node κ) (source : List Char), keep 0 = true →
        mismatch? targetSource target source (t.reconstruct keep).pruned
          = mismatch? targetSource target source (some (t.reconstruct keep).annotated) := by
  refine ⟨Node.map_bare_annotated keep t, fun id a found => ?_, Node.pruned_eq_survivors keep t,
    Node.kept_eq_retained keep t, Node.kept_eq_size keep t, Node.exists_names keep t,
    fun targetSource target source root => ?_⟩
  · rw [TreeIndex.label?_ofTree, Node.preorder_annotated_path, List.getElem?_map,
      Option.map_eq_some_iff] at found
    obtain ⟨⟨e, i⟩, row, rfl⟩ := found
    have entry := TreeIndex.mem_numbered_iff.1 (List.mem_of_getElem? row)
    obtain rfl : id = i := by
      rw [numbered, List.getElem?_zipIdx, Option.map_eq_some_iff] at row
      obtain ⟨_, -, number⟩ := row
      simpa using congrArg Prod.snd number
    rw [ofTree_eq_ofForest, TreeIndex.path_of_mem (List.mem_of_getElem? row)]
    rfl
  · rw [Node.pruned_eq_survivors, if_pos root, mismatch?, mismatch?, Option.bind_some,
      Option.bind_some, Node.shape_survivors]

/-- The second negation of `-x, -y` is marked as deleted, and containment in the whole tree fails for
both trees alike. -/
theorem reconstruct_agrees_negations :
    (∃ a, (TreeIndex.ofTree (negations.reconstruct fun id => id < 3).annotated).label? 3 = some a ∧
        a.deleted = some true) ∧
      mismatch? negationsSource negations negationsSource
          (negations.reconstruct fun id => id < 3).pruned
        = mismatch? negationsSource negations negationsSource
            (some (negations.reconstruct fun id => id < 3).annotated) := by
  obtain ⟨-, marks, -, -, -, -, verdicts⟩ := reconstruct_agrees (fun id => id < 3) negations
  refine ⟨?_, verdicts negationsSource negations negationsSource rfl⟩
  have within : 3 < (negations.reconstruct fun id => id < 3).annotated.preorder.length := by
    decide +kernel
  have found : (TreeIndex.ofTree (negations.reconstruct fun id => id < 3).annotated).label? 3
      = some (negations.reconstruct fun id => id < 3).annotated.preorder[3] := by
    rw [TreeIndex.label?_ofTree, List.getElem?_eq_getElem within]
  have dropped : ((TreeIndex.ofTree negations).path 3).all (fun id => id < 3) = false := by
    decide +kernel
  exact ⟨_, found, by rw [marks 3 _ found, dropped]; rfl⟩

end SureCode
