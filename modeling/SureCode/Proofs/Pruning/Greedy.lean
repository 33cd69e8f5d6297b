import Mathlib
import SureCode.Proofs.Pruning.Decisions
import SureCode.Proofs.Pruning.Reconstruction
import SureCode.Proofs.Pruning.Admissible
import SureCode.Proofs.Tree.Ancestry
import SureCode.Proofs.Tree.SideTable
import SureCode.Pruning.Greedy

/-!
# Runs of the greedy engine

A state of the greedy engine stands for the set of nodes that are left, and everything else it holds
can be read off that set (`Removal.Consistent`): the counts of children, what waits in the two
queues, the holes and the cost. Removing the next candidate takes one node out of the set and keeps
the state consistent (`Consistent.remove`), so a run ends in a consistent state in which the cost
fits or no candidate is left (`Consistent.descend`).
-/

namespace SureCode

open SureCode.Tree Exact

namespace Node

variable {κ : Type} {t : Node κ} {keep : Nat → Bool} {id above : Nat}

/-! ### Counting by number -/

theorem countP_range_eq_card (count : Nat) (p : Nat → Bool) :
    (List.range count).countP p = ((Finset.range count).filter fun i => p i = true).card := by
  rw [List.countP_eq_length_filter]
  simp only [Finset.card, Finset.filter, Finset.range_val, Multiset.range, Multiset.filter_coe,
    Multiset.coe_card, Bool.decide_eq_true]

/-- One number comes in for some others that go. -/
theorem countP_exchange {count new : Nat} {p p' : Nat → Bool} {gone : List Nat}
    (nodup : gone.Nodup) (counted : ∀ i ∈ gone, i < count ∧ p i = true) (inside : new < count)
    (fresh : p new = false)
    (eq : ∀ i < count, p' i = true ↔ i = new ∨ p i = true ∧ i ∉ gone) :
    (List.range count).countP p' + gone.length = (List.range count).countP p + 1 := by
  let before : Finset Nat := (Finset.range count).filter fun i => p i = true
  have sub : gone.toFinset ⊆ before := by
    intro i mem
    rw [List.mem_toFinset] at mem
    simpa [before] using counted i mem
  have after : ((Finset.range count).filter fun i => p' i = true)
      = insert new (before \ gone.toFinset) := by
    ext i
    simp only [before, Finset.mem_filter, Finset.mem_range, Finset.mem_insert, Finset.mem_sdiff,
      List.mem_toFinset]
    constructor
    · rintro ⟨lt, counts⟩
      exact ((eq i lt).1 counts).imp_right fun ⟨old, stays⟩ => ⟨⟨lt, old⟩, stays⟩
    · rintro (rfl | ⟨⟨lt, old⟩, stays⟩)
      · exact ⟨inside, (eq i inside).2 (.inl rfl)⟩
      · exact ⟨lt, (eq i lt).2 (.inr ⟨old, stays⟩)⟩
  have absent : new ∉ before \ gone.toFinset := by
    simp [before, fresh]
  have le := Finset.card_le_card sub
  rw [countP_range_eq_card, countP_range_eq_card, after, Finset.card_insert_of_notMem absent,
    Finset.card_sdiff_of_subset sub, ← List.toFinset_card_of_nodup nodup]
  change _ = before.card + 1
  omega

/-! ### Removable nodes -/

/-- A node below the root that is kept while all its children are dropped. -/
structure Removable (t : Node κ) (keep : Nat → Bool) (id : Nat) : Prop where
  inside : id < t.size
  inner : id ≠ 0
  kept : keep id = true
  bare : ∀ c ∈ (TreeIndex.ofTree t).children id, keep c = false

/-- A selection without one more node. -/
def without (keep : Nat → Bool) (id : Nat) (other : Nat) : Bool := keep other && other != id

theorem without_eq_true {other : Nat} :
    without keep id other = true ↔ keep other = true ∧ other ≠ id := by
  simp [without]

theorem without_eq_false {other : Nat} :
    without keep id other = false ↔ keep other = false ∨ other = id := by
  cases keeps : keep other <;> simp [without, keeps]

namespace Removable

variable (removable : t.Removable keep id)

include removable

/-- Below a removable node nothing is kept. -/
theorem below (closed : ClosedOn keep (numbered [] 0 [t])) :
    ∀ i ∈ (TreeIndex.ofTree t).subtree id, i ≠ id → keep i = false := by
  intro i mem ne
  rw [ofTree_eq_ofForest] at mem
  have inside : id < sizeAll [t] := by
    rw [sizeAll_singleton]
    exact removable.inside
  have lt := TreeIndex.lt_of_mem_subtree inside mem
  obtain ⟨c, child, mem⟩ := TreeIndex.exists_child_of_mem_subtree lt mem ne
  by_contra keeps
  rw [Bool.not_eq_false] at keeps
  have on_path : c ∈ (TreeIndex.ofForest [t]).path i := by
    rwa [TreeIndex.mem_path_iff lt, ← TreeIndex.mem_subtree_iff]
  have kept := closedOn_iff_path.1 closed i lt keeps c on_path
  rw [removable.bare c (by rwa [ofTree_eq_ofForest])] at kept
  exact Bool.false_ne_true kept

theorem closedOn_without (closed : ClosedOn keep (numbered [] 0 [t])) :
    ClosedOn (without keep id) (numbered [] 0 [t]) := by
  refine closedOn_of_parents fun i above parent keeps => ?_
  rw [without_eq_true] at keeps ⊢
  refine ⟨keep_parent closed keeps.1 parent, ?_⟩
  rintro rfl
  have dropped := removable.bare i (TreeIndex.mem_children_ofTree.2 parent)
  rw [keeps.1] at dropped
  exact Bool.false_ne_true dropped.symm

/-- Removing a node opens one hole and joins those below it. -/
theorem holesOn_without (closed : ClosedOn keep (numbered [] 0 [t])) :
    holesOn (without keep id) (numbered [] 0 [t]) + ((TreeIndex.ofTree t).children id).length
      = holesOn keep (numbered [] 0 [t]) + 1 := by
  have nodup : ((TreeIndex.ofTree t).children id).Nodup := by
    rw [ofTree_eq_ofForest]
    exact TreeIndex.nodup_children id
  obtain ⟨above, parent⟩ := TreeIndex.exists_parent? removable.inside removable.inner
  rw [holesOn_eq_countP, holesOn_eq_countP]
  refine countP_exchange nodup (fun c child => ?_) removable.inside (by simp [removable.kept]) ?_
  · have parent := TreeIndex.mem_children_ofTree.1 child
    exact ⟨(TreeIndex.parent?_lt parent).2, by simp [removable.bare c child, parent, removable.kept]⟩
  · intro i _
    rw [TreeIndex.mem_children_ofTree]
    by_cases here : i = id
    · subst here
      have above_kept := keep_parent closed removable.kept parent
      have ne : above ≠ i := (TreeIndex.parent?_lt parent).1.ne
      simp [without, parent, above_kept, ne]
    · cases parent_i : (TreeIndex.ofTree t).parent? i with
      | none => simp [without, here]
      | some b => simp [without, here, and_assoc]

end Removable

/-! ### Charges -/

theorem sum_number (values : List ℚ) : Scalar.sum (values.map number) = number values.sum := by
  have := foldl_add_number 0 values
  rwa [zero_add] at this

/-- Trees are charged for all their nodes. -/
theorem totalCharges_eq (ts : List (Node Exact)) :
    ∃ values : List ℚ, totalCharges ts = values.map number ∧
      values.sum = ((preorderAll ts).map chargeValue).sum := by
  induction ts using forest_induction with
  | nil => exact ⟨[], by simp [totalCharges], by simp [preorderAll]⟩
  | cons a us ts below rest =>
    obtain ⟨values, eq, sum_eq⟩ := below
    obtain ⟨values', eq', sum_eq'⟩ := rest
    refine ⟨(chargeValue a + values.sum) :: values', ?_, ?_⟩
    · rw [totalCharges, totalCharge, eq, eq', sum_number, charge_eq_number, number_add_number,
        List.map_cons]
    · rw [List.sum_cons, sum_eq, sum_eq', preorderAll, preorder_node, List.cons_append,
        List.map_cons, List.map_append, List.sum_cons, List.sum_append, add_assoc]

theorem chargeAt_eq [Scalar κ] (t : Node κ) (id : Nat) :
    t.chargeAt id = ((t.preorder.map (·.charge))[id]?).getD Scalar.zero := by
  rw [chargeAt, TreeIndex.label?_ofTree, List.getElem?_map]

/-- The summed charge of the kept nodes, added up from the neutral element as the states of a run
have it. -/
def keptSum [Scalar κ] (t : Node κ) (keep : Nat → Bool) : κ :=
  Scalar.sum (((List.range t.size).filter keep).map t.chargeAt)

/-- A whole tree is charged for all that is kept when all is. -/
theorem totalCharge_eq (t : Node Exact) : t.totalCharge = t.keptCharge fun _ => true := by
  obtain ⟨values, eq, sum_eq⟩ := totalCharges_eq t.children
  have charges : (List.range t.size).map t.chargeAt
      = (t.preorder.map chargeValue).map number := by
    apply List.ext_getElem (by simp [length_preorder])
    intro id lt _
    rw [List.length_map, List.length_range] at lt
    have inside : id < t.preorder.length := by rwa [length_preorder]
    simp [chargeAt_eq, inside, charge_eq_number]
  rw [keptCharge, List.filter_true, charges, zero_eq_number, foldl_add_number]
  cases t
  rw [children_node] at eq sum_eq
  rw [totalCharge, eq, sum_number, charge_eq_number, number_add_number, sum_eq, preorder_node,
    List.map_cons, List.sum_cons, zero_add]

end Node

namespace Removal

open Node

variable {κ : Type}

/-- The nodes that are left. -/
def State.kept (s : State κ) (id : Nat) : Bool := !s.isDeleted id

/-- Everything a state holds follows from the nodes that are left. -/
structure Consistent [Scalar κ] (t : Node κ) (s : State κ) : Prop where
  size : s.deleted.size = t.size
  root : s.kept 0 = true
  closed : ClosedOn s.kept (numbered [] 0 [t])
  live : ∀ id < t.size,
    s.liveChildren.get? id = some (((TreeIndex.ofTree t).children id).countP s.kept)
  leaves : ∀ id, s.kept id = true →
    ((∃ a ∈ s.leaves, a.id = id) ↔ t.Removable s.kept id)
  extending : ∀ id, s.kept id = true →
    ((∃ a ∈ s.extending, a.id = id) ↔
      t.Removable s.kept id ∧ (TreeIndex.ofTree t).children id ≠ [])
  holes : s.holes = holesOn s.kept (numbered [] 0 [t])
  /-- The charge of the whole tree is added up from the bottom, that of a part of it from the front.
  -/
  summed : s.kept = (fun _ => true) ∧ s.retained = t.totalCharge ∨
    s.retained = (ofNode t).retainedCost s.deleted

section Queues

variable {s s₁ : State κ} {a b : Candidate κ} {extendOnly : Bool}

/-! ### Queues -/

theorem mem_enqueue [Scalar κ] {queue : List (Candidate κ)} : b ∈ a.enqueue queue ↔ b = a ∨ b ∈ queue := by
  induction queue with
  | nil => simp [Candidate.enqueue]
  | cons c queue ih =>
    rw [Candidate.enqueue]
    split
    · simp
    · simp only [List.mem_cons, ih]
      tauto

/-- The queue that is asked for the next candidate. -/
def State.queue (s : State κ) (extendOnly : Bool) : List (Candidate κ) :=
  if extendOnly then s.extending else s.leaves

/-- What is left in the queues once the next candidate and all that were passed over are gone. -/
def State.behind (s : State κ) (extendOnly : Bool) (later : List (Candidate κ)) : State κ :=
  if extendOnly then { s with extending := later } else { s with leaves := later }

theorem next_eq (s : State κ) (extendOnly : Bool) :
    s.next extendOnly
      = match (s.queue extendOnly).dropWhile fun a => s.isDeleted a.id with
        | [] => none
        | a :: later => some (a, s.behind extendOnly later) := rfl

/-- The next candidate is the first of its queue that is left. -/
theorem next_cases (next : s.next extendOnly = some (a, s₁)) :
    ∃ passed later, s.queue extendOnly = passed ++ a :: later ∧
      (∀ b ∈ passed, s.kept b.id = false) ∧ s.kept a.id = true ∧ s₁ = s.behind extendOnly later := by
  rw [next_eq] at next
  split at next
  · simp at next
  · rename_i first later eq
    obtain ⟨rfl, rfl⟩ := Prod.mk.inj (Option.some.inj next)
    refine ⟨_, later, eq ▸ List.takeWhile_append_dropWhile.symm, fun b mem => ?_, ?_, rfl⟩
    · simpa [State.kept] using List.mem_takeWhile_imp mem
    · have := List.head?_dropWhile_not (fun a => s.isDeleted a.id) (s.queue extendOnly)
      rw [eq] at this
      simpa [State.kept] using this

/-- The next candidate is out of one queue, and only that queue has changed. What is left is not
passed over. -/
theorem next_eq_some (next : s.next extendOnly = some (a, s₁)) :
    s.kept a.id = true ∧
      (∃ b ∈ s.queue extendOnly, b.id = a.id) ∧
      s₁.deleted = s.deleted ∧ s₁.liveChildren = s.liveChildren ∧ s₁.holes = s.holes ∧
      ∀ id, s.kept id = true → id ≠ a.id →
        ((∃ b ∈ s₁.leaves, b.id = id) ↔ ∃ b ∈ s.leaves, b.id = id) ∧
        ((∃ b ∈ s₁.extending, b.id = id) ↔ ∃ b ∈ s.extending, b.id = id) := by
  obtain ⟨passed, later, split, dropped, kept, rfl⟩ := next_cases next
  have others (id : Nat) (keeps : s.kept id = true) (ne : id ≠ a.id) :
      (∃ b ∈ later, b.id = id) ↔
        ∃ b ∈ s.queue extendOnly, b.id = id := by
    rw [split]
    simp only [List.mem_append, List.mem_cons, or_and_right, exists_or]
    constructor
    · exact fun mem => .inr (.inr mem)
    · rintro (⟨b, mem, rfl⟩ | ⟨b, rfl, rfl⟩ | mem)
      · rw [dropped b mem] at keeps
        exact absurd keeps Bool.false_ne_true
      · exact absurd rfl ne
      · exact mem
  refine ⟨kept, ⟨a, split ▸ List.mem_append_right _ List.mem_cons_self, rfl⟩, ?_⟩
  cases extendOnly
  · exact ⟨rfl, rfl, rfl, fun id keeps ne => ⟨others id keeps ne, .rfl⟩⟩
  · exact ⟨rfl, rfl, rfl, fun id keeps ne => ⟨.rfl, others id keeps ne⟩⟩

/-- Without a next candidate nothing in the queue is left. -/
theorem next_eq_none (next : s.next extendOnly = none) :
    ∀ b ∈ s.queue extendOnly, s.kept b.id = false := by
  rw [next_eq] at next
  split at next
  · rename_i eq
    intro b mem
    have := List.dropWhile_eq_nil_iff.1 eq b mem
    simpa [State.kept] using this
  · simp at next

end Queues

/-! ### Removing a node -/

section Left

variable {t : Node κ} {s : State κ} {id : Nat} {maxHoles : HoleBudget}

/-- Removing a node takes it out of the nodes that are left. -/
theorem kept_foldl_replace (closed : ClosedOn s.kept (numbered [] 0 [t]))
    (size : s.deleted.size = t.size) (removable : t.Removable s.kept id) (i : Nat) :
    (!(((((TreeIndex.ofTree t).subtree id).foldl (fun d id => (d.set? id true).getD d)
        s.deleted).get? i).getD false)) = without s.kept id i := by
  have fold := SideTable.get?_foldl_replace ((TreeIndex.ofTree t).subtree id) s.deleted true i
  unfold SideTable.replace at fold
  rw [fold, size]
  by_cases here : i = id
  · subst here
    have inside : i ∈ (TreeIndex.ofTree t).subtree i ∧ i < t.size := by
      have lt := removable.inside
      rw [← sizeAll_singleton] at lt
      rw [ofTree_eq_ofForest, TreeIndex.mem_subtree_iff, ← TreeIndex.mem_path_iff lt]
      exact ⟨TreeIndex.mem_path_self i, removable.inside⟩
    simp [inside, without]
  · split
    case isTrue mem =>
      have dropped := removable.below closed i mem.1 here
      simp [without, dropped]
    case isFalse => simp [without, here, State.kept, State.isDeleted]

/-- One child less is left below the parent, and as many as before below all others. -/
theorem countP_without {above : Nat} (parent : (TreeIndex.ofTree t).parent? id = some above)
    (kept : s.kept id = true) (i : Nat) :
    ((TreeIndex.ofTree t).children i).countP (without s.kept id)
      = ((TreeIndex.ofTree t).children i).countP s.kept - if i = above then 1 else 0 := by
  have nodup : ((TreeIndex.ofTree t).children i).Nodup := by
    rw [ofTree_eq_ofForest]
    exact TreeIndex.nodup_children i
  have others {l : List Nat} (absent : id ∉ l) : l.countP (without s.kept id) = l.countP s.kept := by
    refine List.countP_congr fun c mem => ?_
    have : c ≠ id := fun eq => absent (eq ▸ mem)
    simp [without, this]
  split
  case isTrue here =>
    have child : id ∈ (TreeIndex.ofTree t).children i := TreeIndex.mem_children_ofTree.2 (here ▸ parent)
    have perm := List.perm_cons_erase child
    have gone : without s.kept id id = false := by simp [without]
    rw [perm.countP_eq, perm.countP_eq, List.countP_cons_of_pos kept,
      List.countP_cons_of_neg (by simp [gone]), others nodup.not_mem_erase, Nat.add_sub_cancel]
  case isFalse apart =>
    refine others fun child => apart ?_
    exact Option.some.inj ((TreeIndex.mem_children_ofTree.1 child).symm.trans parent)

/-- What can be removed once a node is gone: what could be before, and its parent when no other
child is left. -/
theorem removable_without {above i : Nat} (parent : (TreeIndex.ofTree t).parent? id = some above)
    (kept : s.kept id = true) (stays : without s.kept id i = true) :
    t.Removable (without s.kept id) i ↔
      t.Removable s.kept i ∨ i = above ∧ above ≠ 0 ∧
        ((TreeIndex.ofTree t).children above).countP (without s.kept id) = 0 := by
  constructor
  · rintro ⟨inside, inner, -, bare⟩
    by_cases here : i = above
    · subst here
      refine .inr ⟨rfl, inner, List.countP_eq_zero.2 fun c child => ?_⟩
      simp [bare c child]
    · refine .inl ⟨inside, inner, (without_eq_true.1 stays).1, fun c child => ?_⟩
      refine (without_eq_false.1 (bare c child)).resolve_right ?_
      rintro rfl
      exact here (Option.some.inj ((TreeIndex.mem_children_ofTree.1 child).symm.trans parent))
  · rintro (⟨inside, inner, -, bare⟩ | ⟨rfl, inner, none⟩)
    · exact ⟨inside, inner, stays, fun c child => without_eq_false.2 (.inl (bare c child))⟩
    · refine ⟨(TreeIndex.parent?_lt parent).1.trans (TreeIndex.parent?_lt parent).2, inner, stays, fun c child => ?_⟩
      simpa using List.countP_eq_zero.1 none c child

/-- A removal leaves one node less. -/
theorem countP_kept_without (removable : t.Removable s.kept id) :
    (List.range t.size).countP (without s.kept id) + 1 = (List.range t.size).countP s.kept := by
  have perm := List.perm_cons_erase (List.mem_range.2 removable.inside)
  have gone : without s.kept id id = false := by simp [without]
  have others : ((List.range t.size).erase id).countP (without s.kept id)
      = ((List.range t.size).erase id).countP s.kept := by
    refine List.countP_congr fun c mem => ?_
    have : c ≠ id := fun eq => List.nodup_range.not_mem_erase (eq ▸ mem)
    simp [without, this]
  rw [perm.countP_eq, perm.countP_eq, List.countP_cons_of_pos removable.kept,
    List.countP_cons_of_neg (by simp [gone]), others]

/-- Whether only candidates that open no hole are considered. -/
def onlyExtending (maxHoles : HoleBudget) (s : State κ) : Bool :=
  match maxHoles with
  | some most => decide (most ≤ s.holes)
  | none => false

/-- A candidate that is considered leaves the holes within their budget. -/
theorem allows_remove {s' : State κ} {count : Nat} (allows : maxHoles.Allows s.holes)
    (bears : onlyExtending maxHoles s = true → count ≠ 0) (holes : s'.holes + count = s.holes + 1) :
    maxHoles.Allows s'.holes := by
  rintro most rfl
  have within := allows most rfl
  by_cases spent : most ≤ s.holes
  · have := bears (decide_eq_true spent)
    omega
  · omega

end Left

variable [Scalar κ] {t : Node κ} {s s₁ : State κ} {a : Candidate κ} {id : Nat}
  {maxHoles : HoleBudget} {maxCost : κ} {extendOnly : Bool}

/-! ### The start -/

theorem getD_costs (t : Node κ) (id : Nat) :
    ((ofNode t).costs.get? id).getD Scalar.zero = t.chargeAt id := by
  rw [chargeAt_eq, ofNode, SideTable.get?, List.getElem?_toArray]

theorem retainedCost_eq {deleted : SideTable Bool} (size : deleted.size = t.size) :
    (ofNode t).retainedCost deleted = t.keptSum fun id => !(deleted.get? id).getD false := by
  have live : (ofNode t).index.ids.filter (fun id => deleted.get? id == some false)
      = (List.range t.size).filter fun id => !(deleted.get? id).getD false := by
    rw [ofNode, TreeIndex.ids_ofTree]
    refine List.filter_congr fun id mem => ?_
    cases value : deleted.get? id with
    | none =>
      rw [SideTable.get?_eq_none_iff, size] at value
      exact absurd (List.mem_range.1 mem) value.not_gt
    | some removed => cases removed <;> rfl
  rw [retainedCost, live, keptSum]
  exact congrArg Scalar.sum (List.map_congr_left fun id _ => getD_costs t id)

theorem kept_start (id : Nat) : (ofNode t).start.kept id = true := by
  rw [State.kept, State.isDeleted, start, SideTable.get?_filled]
  split <;> rfl

theorem removable_start :
    t.Removable (ofNode t).start.kept id ↔
      id < t.size ∧ id ≠ 0 ∧ (TreeIndex.ofTree t).children id = [] := by
  constructor
  · rintro ⟨inside, inner, -, bare⟩
    refine ⟨inside, inner, List.eq_nil_iff_forall_not_mem.2 fun c child => ?_⟩
    have dropped := bare c child
    rw [kept_start] at dropped
    exact Bool.false_ne_true dropped.symm
  · rintro ⟨inside, inner, none⟩
    exact ⟨inside, inner, kept_start id, by simp [none]⟩

/-- At the start all nodes are left. -/
theorem consistent_start (t : Node κ) : Consistent t (ofNode t).start := by
  have all : (ofNode t).start.kept = fun _ => true := funext kept_start
  have size : (ofNode t).index.size = t.size := TreeIndex.size_ofTree t
  refine ⟨?_, kept_start 0, closedOn_of_parents fun _ _ _ _ => kept_start _, fun id lt => ?_,
    fun id _ => ?_, fun id _ => ?_, ?_, ?_⟩
  · exact (SideTable.size_filled _ _).trans size
  · rw [all, List.countP_true, start, SideTable.get?_ofFn, size, if_pos lt]
    rfl
  · rw [removable_start]
    simp only [start, List.mem_mergeSort, List.mem_map, List.mem_filter, ofNode, TreeIndex.ids_ofTree,
      List.mem_range, candidate]
    constructor
    · rintro ⟨_, ⟨i, ⟨lt, leaf⟩, rfl⟩, rfl⟩
      simpa [lt] using leaf
    · rintro ⟨inside, inner, none⟩
      exact ⟨_, ⟨id, ⟨inside, by simp [inner, none]⟩, rfl⟩, rfl⟩
  · rw [removable_start]
    refine iff_of_false (by simp [start]) ?_
    rintro ⟨⟨-, -, none⟩, some⟩
    exact some none
  · rw [all, holesOn_eq_countP]
    simp [start]
  · cases t
    exact .inl ⟨all, rfl⟩

/-- Once a node is gone, the cost is added up over what is left. -/
theorem Consistent.retained_of_gone (consistent : Consistent t s) (gone : s.kept id = false) :
    s.retained = t.keptSum s.kept := by
  obtain ⟨all, -⟩ | part := consistent.summed
  · rw [all] at gone
    exact Bool.noConfusion gone
  · rw [part, retainedCost_eq consistent.size]
    rfl

/-- Over exact scalars the order in which charges are added up makes no difference. -/
theorem Consistent.retained {t : Node Exact} {s : State Exact} (consistent : Consistent t s) :
    s.retained = t.keptCharge s.kept := by
  obtain ⟨all, whole⟩ | part := consistent.summed
  · rw [whole, all, totalCharge_eq]
  · rw [part, retainedCost_eq consistent.size]
    rfl

/-! ### Removal -/

/-- What removing a candidate does to a state. -/
theorem remove_eq_ok {above left : Nat}
    (parent : (TreeIndex.ofTree t).parent? a.id = some above)
    (live : s.liveChildren.get? above = some (left + 1)) :
    ∃ s', (ofNode t).remove s a = .ok s' ∧
      s'.deleted = ((TreeIndex.ofTree t).subtree a.id).foldl (fun d i => d.replace i true) s.deleted ∧
      s'.liveChildren = s.liveChildren.replace above left ∧
      (∀ id, (∃ b ∈ s'.leaves, b.id = id) ↔
        (∃ b ∈ s.leaves, b.id = id) ∨ id = above ∧ above ≠ 0 ∧ left = 0) ∧
      (∀ id, (∃ b ∈ s'.extending, b.id = id) ↔
        (∃ b ∈ s.extending, b.id = id) ∨ id = above ∧ above ≠ 0 ∧ left = 0) ∧
      s'.holes = s.holes + 1 - ((TreeIndex.ofTree t).children a.id).length ∧
      s'.retained = (ofNode t).retainedCost s'.deleted := by
  let freed := left == 0 && above != 0
  have queued (queue : List (Candidate κ)) (id : Nat) :
      (∃ b ∈ if freed then ((ofNode t).candidate above).enqueue queue else queue, b.id = id) ↔
        (∃ b ∈ queue, b.id = id) ∨ id = above ∧ above ≠ 0 ∧ left = 0 := by
    by_cases free : left = 0 ∧ above ≠ 0
    · have freed_eq : freed = true := by simpa [freed] using free
      simp only [freed_eq, if_true, mem_enqueue, or_and_right, exists_or, exists_eq_left,
        candidate]
      rw [or_comm, eq_comm]
      simp [free]
    · have freed_eq : freed = false := by simpa [freed] using free
      rw [freed_eq, if_neg Bool.false_ne_true]
      exact ⟨.inl, fun h => h.resolve_right fun ⟨_, inner, empty⟩ => free ⟨empty, inner⟩⟩
  rw [remove, show (ofNode t).index.parent? a.id = some above from parent]
  simp only [live, Option.getD_some, Nat.add_sub_cancel]
  exact ⟨_, rfl, rfl, rfl, queued s.leaves, queued s.extending, rfl, rfl⟩

/-- Removing the next candidate takes one node out of what is left. -/
theorem Consistent.remove (consistent : Consistent t s) (next : s.next extendOnly = some (a, s₁)) :
    t.Removable s.kept a.id ∧
      (extendOnly = true → (TreeIndex.ofTree t).children a.id ≠ []) ∧
      ∃ s', (ofNode t).remove s₁ a = .ok s' ∧ Consistent t s' ∧
        s'.kept = without s.kept a.id ∧
        s'.holes + ((TreeIndex.ofTree t).children a.id).length = s.holes + 1 := by
  obtain ⟨kept, offered, deleted, live, holes, others⟩ := next_eq_some next
  obtain ⟨removable, bears⟩ : t.Removable s.kept a.id ∧
      (extendOnly = true → (TreeIndex.ofTree t).children a.id ≠ []) := by
    cases extendOnly
    · exact ⟨(consistent.leaves a.id kept).1 offered, by simp⟩
    · exact ((consistent.extending a.id kept).1 offered).imp_right fun some _ => some
  obtain ⟨above, parent⟩ := TreeIndex.exists_parent? removable.inside removable.inner
  have inside : above < t.size := (TreeIndex.parent?_lt parent).1.trans removable.inside
  -- the candidate itself is among the children that are left
  have counted := countP_without parent kept
  have some_left : 0 < ((TreeIndex.ofTree t).children above).countP s.kept :=
    List.countP_pos_iff.2 ⟨a.id, TreeIndex.mem_children_ofTree.2 parent, kept⟩
  have live_above : s₁.liveChildren.get? above
      = some (((TreeIndex.ofTree t).children above).countP (without s.kept a.id) + 1) := by
    have := counted above
    rw [if_pos rfl] at this
    rw [live, consistent.live above inside, Option.some_inj]
    omega
  obtain ⟨s', ok, deleted', live', leaves', extending', holes', retained'⟩ :=
    remove_eq_ok parent live_above
  have kept' : s'.kept = without s.kept a.id := by
    funext i
    rw [← kept_foldl_replace consistent.closed consistent.size removable i, State.kept,
      State.isDeleted, deleted', deleted]
    rfl
  have size' : s'.deleted.size = t.size := by
    rw [deleted', deleted, ← consistent.size]
    exact SideTable.size_foldl_replace _ _ _
  have opened := removable.holesOn_without consistent.closed
  rw [← consistent.holes] at opened
  have stays (i : Nat) (keeps : s'.kept i = true) : s.kept i = true ∧ i ≠ a.id := by
    rwa [kept', without_eq_true] at keeps
  refine ⟨removable, bears, s', ok, ⟨size', ?_, ?_, fun i lt => ?_, fun i keeps => ?_,
    fun i keeps => ?_, ?_, ?_⟩, kept', ?_⟩
  · rw [kept', without_eq_true]
    exact ⟨consistent.root, removable.inner.symm⟩
  · rw [kept']
    exact removable.closedOn_without consistent.closed
  · have stored : above < s₁.liveChildren.size := by
      by_contra outside
      rw [(SideTable.get?_eq_none_iff _ _).2 (Nat.le_of_not_lt outside)] at live_above
      simp at live_above
    rw [live', SideTable.get?_replace, kept']
    split
    case isTrue here => rw [here.1]
    case isFalse apart =>
      rw [live, consistent.live i lt, counted i, if_neg fun eq => apart ⟨eq, stored⟩,
        Nat.sub_zero]
  · obtain ⟨keeps_before, ne⟩ := stays i keeps
    rw [leaves', (others i keeps_before ne).1, consistent.leaves i keeps_before, kept']
    rw [kept'] at keeps
    exact (removable_without parent kept keeps).symm
  · obtain ⟨keeps_before, ne⟩ := stays i keeps
    rw [extending', (others i keeps_before ne).2, consistent.extending i keeps_before, kept']
    rw [kept'] at keeps
    rw [removable_without parent kept keeps, or_and_right]
    refine or_congr_right (iff_self_and.2 ?_)
    rintro ⟨rfl, -, -⟩
    exact List.ne_nil_of_mem (TreeIndex.mem_children_ofTree.2 parent)
  · rw [holes', holes, kept']
    omega
  · exact .inr retained'
  · rw [holes', holes]
    omega

/-! ### Runs -/

theorem countP_kept_pos (consistent : Consistent t s) :
    0 < (List.range t.size).countP s.kept :=
  List.countP_pos_iff.2 ⟨0, List.mem_range.2 t.size_pos, consistent.root⟩

theorem descend_succ (steps : Nat) :
    (ofNode t).descend maxHoles maxCost (steps + 1) s
      = if fits maxCost s.retained then .ok s
        else match s.next (onlyExtending maxHoles s) with
          | none => .ok s
          | some next =>
            ((ofNode t).remove next.2 next.1).bind
              ((ofNode t).descend maxHoles maxCost steps) := by
  rw [Removal.descend.eq_def]
  cases maxHoles <;> dsimp only [onlyExtending] <;> congr 1 <;> split <;> simp_all [Bind.bind]

/-- A run removes candidates until the cost fits or none is left, and never opens more holes than
allowed. The induction is on the steps, which the number of nodes that are left stays below. -/
theorem Consistent.descend (consistent : Consistent t s) (maxCost : κ) (steps : Nat)
    (enough : (List.range t.size).countP s.kept ≤ steps) (allows : maxHoles.Allows s.holes) :
    ∃ s', (ofNode t).descend maxHoles maxCost steps s = .ok s' ∧ Consistent t s' ∧
      maxHoles.Allows s'.holes ∧
        (fits maxCost s'.retained = true ∨ s'.next (onlyExtending maxHoles s') = none) := by
  induction steps generalizing s with
  | zero => exact absurd (countP_kept_pos consistent) (by omega)
  | succ steps ih =>
    rw [descend_succ]
    split
    case isTrue fit => exact ⟨s, rfl, consistent, allows, .inl fit⟩
    case isFalse =>
      cases next : s.next (onlyExtending maxHoles s) with
      | none => exact ⟨s, rfl, consistent, allows, .inr next⟩
      | some pair =>
        obtain ⟨a, s₁⟩ := pair
        obtain ⟨removable, bears, s', ok, consistent', kept, holes⟩ := consistent.remove next
        have fewer := countP_kept_without removable
        have left := allows_remove allows (fun extending => by simpa using bears extending) holes
        simp only [ok, Except.bind]
        exact ih consistent' (by rw [kept]; omega) left

end Removal

/-- For a threshold that is a number, greedy pruning answers with the nodes of a consistent state in
which the cost fits or no candidate is left. -/
theorem Node.exists_greedy_run {κ : Type} [Scalar κ] (t : Node κ) (maxHoles : HoleBudget)
    {maxCost : κ} (number : Scalar.isNaN maxCost = false) :
    ∃ s : Removal.State κ,
      (Removal.ofNode t).descend maxHoles maxCost t.size (Removal.ofNode t).start = .ok s ∧
      Removal.Consistent t s ∧ maxHoles.Allows s.holes ∧
      (fits maxCost s.retained = true ∨ s.next (Removal.onlyExtending maxHoles s) = none) ∧
      t.pruneGreedy maxHoles maxCost = .ok ((t.reconstruct s.kept).toPruning maxCost
        (if fits maxCost s.retained then .sat else .unsat)) := by
  have enough : (List.range t.size).countP (Removal.ofNode t).start.kept ≤ t.size := by
    simpa using List.countP_le_length (l := List.range t.size)
  obtain ⟨s, run, consistent, allows, ended⟩ :=
    (Removal.consistent_start t).descend maxCost t.size enough fun _ _ => Nat.zero_le _
  refine ⟨s, run, consistent, allows, ended, ?_⟩
  rw [pruneGreedy, number, if_neg Bool.false_ne_true]
  dsimp only [Bind.bind, Except.bind]
  rw [run]
  rfl

theorem Node.isNaN_of_pruneGreedy {κ : Type} [Scalar κ] {t : Node κ} {maxHoles : HoleBudget}
    {maxCost : κ} {p : Pruning κ} (answer : t.pruneGreedy maxHoles maxCost = .ok p) :
    Scalar.isNaN maxCost = false := by
  unfold pruneGreedy at answer
  split at answer
  · cases answer
  · rename_i number
    rwa [Bool.not_eq_true] at number

end SureCode
