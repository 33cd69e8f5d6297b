import Mathlib
import SureCode.Proofs.Tree.Ancestry
import SureCode.Proofs.Tree.SideTable
import SureCode.Tree.Walk

/-!
# Walks and indexes

A walk fills the tables of an index. What it adds for sibling trees, below a parent that it has
entered before, is what the entries of these trees say (`run?_under`), and the pass from the last
number to the first finds the ends of all subtrees (`stops?_ofFn`). So an index, which is written
down by recursion on the tree, is what a walk with a stack comes to, and both show the tree as it is
(`TreeIndex.ofTree_shows_tree`).
-/

namespace SureCode

open SureCode.Tree

variable {α : Type}

/-! ### The order of a walk -/

namespace Tree

theorem siblingNumbers_append (start : Nat) (ts us : List (Tree α)) :
    siblingNumbers start (ts ++ us)
      = siblingNumbers start ts ++ siblingNumbers (start + sizeAll ts) us := by
  induction ts generalizing start with
  | nil => rfl
  | cons t ts ih =>
    rw [List.cons_append, siblingNumbers, siblingNumbers, ih, sizeAll, Nat.add_assoc,
      List.cons_append]

theorem walk_append (ts stack : List (Tree α)) :
    walk (ts ++ stack) = subtreesAll ts ++ walk stack := by
  induction ts using forest_induction generalizing stack with
  | nil => rfl
  | cons a us ts below rest =>
    rw [List.cons_append, walk, below, rest, subtreesAll, subtrees, List.cons_append,
      List.cons_append, List.append_assoc]

/-- A walk passes the subtrees of a tree in preorder. -/
theorem walk_singleton (t : Tree α) : walk [t] = t.subtrees := by
  have whole := walk_append [t] []
  rwa [List.append_nil, walk, List.append_nil, subtreesAll_singleton] at whole

variable {β σ : Type}

/-- A pass that changes the nodes and carries a state comes to the subtrees in preorder. -/
theorem mapM_subtreesAll (f : σ → Tree α → β × σ) (ts : List (Tree α)) (s : σ) :
    (subtreesAll ts).mapM (m := StateM σ) (fun u s => f s u) s
      = (preorderAll (forEachAll f s ts).1, (forEachAll f s ts).2) := by
  induction ts using forest_induction generalizing s with
  | nil => rfl
  | cons a us ts below rest =>
    rw [subtreesAll, subtrees, List.cons_append, List.mapM_cons, List.mapM_append]
    simp only [forEachAll, forEach, preorderAll, preorder]
    simp only [bind, StateT.bind, pure, StateT.pure, below]
    rw [rest]
    rfl

/-- A pass that looks at labels alone changes them one after another. -/
theorem forEachAll_label (f : σ → α → β × σ) (ts : List (Tree α)) (s : σ) :
    forEachAll (fun s u => f s u.label) s ts = mapAccumAll f s ts := by
  induction ts using forest_induction generalizing s with
  | nil => rfl
  | cons a us ts below rest =>
    simp only [forEachAll, forEach, mapAccumAll, mapAccum, label_node, below, rest]

theorem mapM_subtrees (f : σ → Tree α → β × σ) (t : Tree α) (s : σ) :
    t.subtrees.mapM (m := StateM σ) (fun u s => f s u) s
      = ((t.forEach f s).1.preorder, (t.forEach f s).2) := by
  have pass := mapM_subtreesAll f [t] s
  simpa only [forEachAll, preorderAll, List.append_nil, subtreesAll_singleton] using pass

theorem mapAccum_eq_forEach (f : σ → α → β × σ) (t : Tree α) (s : σ) :
    t.mapAccum f s = t.forEach (fun s u => f s u.label) s := by
  have pass := forEachAll_label f [t] s
  simp only [forEachAll, mapAccumAll, Prod.mk.injEq, List.cons.injEq, and_true] at pass
  exact (Prod.ext pass.1 pass.2).symm

end Tree

/-! ### Rows -/

namespace Walk

/-- What a walk notes of one node. -/
structure Row (α : Type) where
  node : Tree α
  parent : Option Nat
  children : List Nat

namespace Row

/-- What an entry says of the node at the root of a tree. -/
def ofEntry (t : Tree α) (e : Entry α) : Row α := ⟨t, e.ancestors.head?, e.children⟩

/-- The row of a node with further children. -/
def withChildren (ids : List Nat) (row : Row α) : Row α :=
  { row with children := row.children ++ ids }

end Row

/-- The tables with some rows. -/
def ofRows (rows : List (Row α)) : Walk α :=
  ⟨.ofList (rows.map (·.node)), .ofList (rows.map (·.parent)), .ofList (rows.map (·.children))⟩

/-- The rows of sibling trees. -/
def rowsAll (above : List Nat) (start : Nat) (ts : List (Tree α)) : List (Row α) :=
  ((subtreesAll ts).zip (entriesAll above start ts)).map fun p => .ofEntry p.1 p.2

/-- Some rows with further children at a parent; a root has none. -/
def adopt (parent : Option Nat) (ids : List Nat) (rows : List (Row α)) : List (Row α) :=
  match parent with
  | none => rows
  | some above => rows.modify above (.withChildren ids)

variable {rows : List (Row α)} {parent : Option Nat} {ts us : List (Tree α)} {above : List Nat}

theorem rowsAll_cons (above : List Nat) (start : Nat) (a : α) (us ts : List (Tree α)) :
    rowsAll above start (node a us :: ts)
      = ⟨node a us, above.head?, siblingNumbers (start + 1) us⟩
        :: (rowsAll (start :: above) (start + 1) us
          ++ rowsAll above (start + 1 + sizeAll us) ts) := by
  have behind : start + (sizeAll us + 1) = start + 1 + sizeAll us := by omega
  simp only [rowsAll, subtreesAll, subtrees, entriesAll, entries, List.cons_append,
    List.zip_cons_cons, List.length_cons, length_entriesAll, behind]
  rw [List.zip_append (by rw [length_subtreesAll, length_entriesAll]), List.map_cons,
    List.map_append]
  rfl

theorem length_rowsAll (above : List Nat) (start : Nat) (ts : List (Tree α)) :
    (rowsAll above start ts).length = sizeAll ts := by
  rw [rowsAll, List.length_map, List.length_zip, length_subtreesAll, length_entriesAll,
    Nat.min_self]

theorem length_adopt (parent : Option Nat) (ids : List Nat) (rows : List (Row α)) :
    (adopt parent ids rows).length = rows.length := by
  cases parent with
  | none => rfl
  | some above => exact List.length_modify _ _ _

theorem adopt_adopt (parent : Option Nat) (ids more : List Nat) (rows : List (Row α)) :
    adopt parent more (adopt parent ids rows) = adopt parent (ids ++ more) rows := by
  cases parent with
  | none => rfl
  | some above =>
    rw [adopt, adopt, adopt, List.modify_modify_eq]
    refine congrArg (rows.modify above) (funext fun row => ?_)
    rw [Function.comp_apply, Row.withChildren, Row.withChildren, Row.withChildren,
      List.append_assoc]

/-- Rows after that of the parent are not concerned. -/
theorem adopt_append (inside : ∀ p ∈ parent, p < rows.length) (ids : List Nat)
    (more : List (Row α)) : adopt parent ids (rows ++ more) = adopt parent ids rows ++ more := by
  cases parent with
  | none => rfl
  | some p =>
    have lt := inside p rfl
    rw [adopt, adopt, List.modify_eq_take_drop, List.modify_eq_take_drop,
      List.take_append_of_le_length lt.le, List.drop_append_of_le_length lt.le,
      List.drop_eq_getElem_cons lt, List.cons_append, List.modifyHead_cons, List.modifyHead_cons,
      List.append_assoc, List.cons_append]

theorem adopt_last {p : Nat} (last : rows.length = p) (ids : List Nat) (row : Row α) :
    adopt (some p) ids (rows ++ [row]) = rows ++ [row.withChildren ids] := by
  simp [adopt, List.modify_eq_take_drop, ← last]

theorem adopt_nil (parent : Option Nat) (rows : List (Row α)) : adopt parent [] rows = rows := by
  cases parent with
  | none => rfl
  | some above =>
    have same : Row.withChildren [] = (id : Row α → Row α) := by
      funext row
      rw [Row.withChildren, List.append_nil, id]
    rw [adopt, same]
    exact List.modify_id _ _

/-- In the tables, further children concern the children alone. -/
theorem ofRows_adopt (above : Nat) (ids : List Nat) (rows : List (Row α)) :
    ofRows (adopt (some above) ids rows)
      = ⟨(ofRows rows).nodes, (ofRows rows).parents,
          .ofList ((rows.map (·.children)).modify above (· ++ ids))⟩ := by
  have unchanged {β : Type} (get : Row α → β) (change : β → β)
      (eq : ∀ row, get (row.withChildren ids) = change (get row)) :
      (rows.modify above (.withChildren ids)).map get = (rows.map get).modify above change := by
    refine List.ext_getElem? fun i => ?_
    simp only [List.getElem?_map, List.getElem?_modify]
    cases rows[i]? with
    | none => rfl
    | some row =>
      by_cases here : above = i <;> simp [here, eq]
  rw [ofRows, ofRows, adopt, unchanged Row.node id fun _ => rfl,
    unchanged Row.parent id fun _ => rfl, unchanged Row.children (· ++ ids) fun _ => rfl,
    List.modify_id, List.modify_id]

/-! ### Running -/

/-- Entering a node makes it the last child of its parent. -/
theorem enter?_ofRows (inside : ∀ p ∈ parent, p < rows.length) (t : Tree α) :
    (ofRows rows).enter? t parent
      = some (rows.length, ofRows (adopt parent [rows.length] rows ++ [⟨t, parent, []⟩])) := by
  rw [← adopt_append inside]
  cases parent with
  | none => simp [enter?, ofRows, SideTable.push_ofList, adopt]
  | some above =>
    have lt : above < (rows.map Row.children ++ [[]]).length := by
      have := inside above rfl
      simp
      omega
    rw [ofRows_adopt]
    simp [enter?, ofRows, SideTable.push_ofList, SideTable.modify?_ofList lt]

/-- Sibling trees below a parent that has been entered leave their rows, and the numbers of their
roots as further children of the parent. -/
theorem run?_under (inside : ∀ p ∈ above.head?, p < rows.length) (ts : List (Tree α))
    (stack : List (Tree α × Option Nat)) :
    (ofRows rows).run? (under above.head? ts ++ stack)
      = (ofRows (adopt above.head? (siblingNumbers rows.length ts) rows
          ++ rowsAll above rows.length ts)).run? stack := by
  induction ts using forest_induction generalizing rows above stack with
  | nil => simp [under, siblingNumbers, adopt_nil, rowsAll, subtreesAll]
  | cons a us ts below rest =>
    let entered : List (Row α) := adopt above.head? [rows.length] rows
    have length_entered : entered.length = rows.length := length_adopt ..
    have inside_entered : ∀ p ∈ above.head?, p < entered.length := length_entered ▸ inside
    let row : Row α := ⟨node a us, above.head?, []⟩
    have number : (entered ++ [row]).length = rows.length + 1 := by
      rw [List.length_append, length_entered, List.length_singleton]
    let passed : List (Row α) :=
      entered ++ (row.withChildren (siblingNumbers (rows.length + 1) us)
        :: rowsAll (rows.length :: above) (rows.length + 1) us)
    have length_passed : passed.length = rows.length + 1 + sizeAll us := by
      rw [List.length_append, length_entered, List.length_cons, length_rowsAll]
      omega
    calc
      (ofRows rows).run? (under above.head? (node a us :: ts) ++ stack)
      _ = (ofRows (entered ++ [row])).run?
            (under (some rows.length) us ++ (under above.head? ts ++ stack)) := by
        rw [under, List.map_cons, List.cons_append, run?, enter?_ofRows inside]
        rfl
      _ = (ofRows passed).run? (under above.head? ts ++ stack) := by
        have inside_row : ∀ p ∈ (rows.length :: above).head?, p < (entered ++ [row]).length := by
          simp [number]
        have run := below inside_row (under above.head? ts ++ stack)
        rwa [List.head?_cons, number, adopt_last length_entered, List.append_assoc] at run
      _ = (ofRows (adopt above.head? (siblingNumbers passed.length ts) passed
            ++ rowsAll above passed.length ts)).run? stack :=
        rest (fun p mem => by have := inside p mem; omega) stack
      _ = _ := by
        have behind : rows.length + (node a us).size = rows.length + 1 + sizeAll us := by
          rw [size_node]
          omega
        rw [length_passed, adopt_append inside_entered, adopt_adopt, siblingNumbers, behind,
          rowsAll_cons, List.append_assoc]
        rfl

/-- The rows of a tree are what a walk through it leaves. -/
theorem ofTree?_eq_ofRows (t : Tree α) : ofTree? t = some (ofRows (rowsAll [] 0 [t])) := by
  have inside : ∀ p ∈ ([] : List Nat).head?, p < ([] : List (Row α)).length := by simp
  have run := run?_under inside [t] []
  rw [List.append_nil] at run
  exact run.trans (by rw [run?]; rfl)

theorem map_node_rowsAll (above : List Nat) (start : Nat) (ts : List (Tree α)) :
    (rowsAll above start ts).map (·.node) = subtreesAll ts := by
  rw [rowsAll, List.map_map]
  exact List.map_fst_zip (by rw [length_subtreesAll, length_entriesAll])

/-- What can be read off the entries of a tree can be read off its rows. -/
theorem map_rowsAll {β : Type} {get : Row α → β} {read : Entry α → β}
    (same : ∀ u e, get (.ofEntry u e) = read e) (above : List Nat) (start : Nat)
    (ts : List (Tree α)) :
    (rowsAll above start ts).map get = (entriesAll above start ts).map read := by
  have behind : ((subtreesAll ts).zip (entriesAll above start ts)).map (·.2)
      = entriesAll above start ts :=
    List.map_snd_zip (by rw [length_subtreesAll, length_entriesAll])
  rw [rowsAll, List.map_map]
  conv_rhs => rw [← behind, List.map_map]
  exact List.map_congr_left fun p _ => same p.1 p.2

/-- A walk through a tree leaves its subtrees in preorder, with parents and children as an index has
them. -/
theorem ofTree?_eq (t : Tree α) :
    ofTree? t = some ⟨.ofList t.subtrees, .ofFn t.size (TreeIndex.ofTree t).parent?,
      .ofFn t.size (TreeIndex.ofTree t).children⟩ := by
  have size_eq : (entriesAll [] 0 [t]).length = t.size := by
    rw [length_entriesAll, sizeAll_singleton]
  have entry {i : Nat} {e : Entry α} (at_i : (entriesAll [] 0 [t])[i]? = some e) :
      (TreeIndex.ofTree t).entries[i]? = some e := by
    rw [ofTree_eq_ofForest, TreeIndex.ofForest, List.getElem?_toArray, at_i]
  have nodes : (rowsAll [] 0 [t]).map (·.node) = t.subtrees := by
    rw [map_node_rowsAll, subtreesAll_singleton]
  have parents : SideTable.ofList ((rowsAll [] 0 [t]).map (·.parent))
      = .ofFn t.size (TreeIndex.ofTree t).parent? := by
    have rows : (rowsAll [] 0 [t]).map (·.parent)
        = (entriesAll [] 0 [t]).map (·.ancestors.head?) := map_rowsAll (fun _ _ => rfl) ..
    rw [rows, ← size_eq]
    exact SideTable.ofList_map_eq_ofFn fun i e at_i => by simp [TreeIndex.parent?, entry at_i]
  have children : SideTable.ofList ((rowsAll [] 0 [t]).map (·.children))
      = .ofFn t.size (TreeIndex.ofTree t).children := by
    have rows : (rowsAll [] 0 [t]).map (·.children)
        = (entriesAll [] 0 [t]).map (·.children) := map_rowsAll (fun _ _ => rfl) ..
    rw [rows, ← size_eq]
    exact SideTable.ofList_map_eq_ofFn fun i e at_i => by simp [TreeIndex.children, entry at_i]
  rw [ofTree?_eq_ofRows, ofRows, nodes, parents, children]

end Walk

/-! ### Where subtrees end -/

namespace TreeIndex

variable {ts : List (Tree α)} {id : Nat}

theorem stop_of_childless (lt : id < sizeAll ts)
    (none : ((ofForest ts).children id).getLast? = none) : (ofForest ts).stop id = id + 1 := by
  obtain ⟨u, root⟩ := exists_subtree lt
  rw [children_of_subtree root, List.getLast?_eq_none_iff] at none
  rw [stop_of_subtree root, size_eq_add_one]
  cases children : u.children with
  | nil => rfl
  | cons => simp [children, siblingNumbers] at none

/-- A subtree ends where that of the last child ends, which stands behind the node. -/
theorem stop_of_last {c : Nat} (lt : id < sizeAll ts)
    (last : ((ofForest ts).children id).getLast? = some c) :
    id < c ∧ c < sizeAll ts ∧ (ofForest ts).stop id = (ofForest ts).stop c := by
  obtain ⟨u, root⟩ := exists_subtree lt
  rw [children_of_subtree root] at last
  rcases List.eq_nil_or_concat' u.children with none | ⟨vs, v, eq⟩
  · simp [none, siblingNumbers] at last
  · rw [eq, siblingNumbers_append, siblingNumbers, siblingNumbers, List.getLast?_concat,
      Option.some.injEq] at last
    have total : sizeAll u.children = sizeAll vs + v.size := by
      rw [eq, sizeAll_append, sizeAll_singleton]
    have last_root : (subtreesAll ts)[id + 1 + sizeAll vs]? = some v := by
      have := v.size_pos
      rw [getElem?_subtreesAll_below root (by omega), eq, subtreesAll_append, ← length_subtreesAll,
        List.getElem?_append_right le_rfl, Nat.sub_self, subtreesAll, subtrees_eq_cons,
        List.cons_append, List.getElem?_cons_zero]
    have inside := (List.getElem?_eq_some_iff.1 last_root).1
    rw [length_subtreesAll, last] at inside
    rw [last] at last_root
    rw [stop_of_subtree root, stop_of_subtree last_root, size_eq_add_one, total]
    omega

end TreeIndex

namespace SideTable

variable {ts : List (Tree α)} {id first : Nat}

/-- The ends that are noted when the numbers from `first` on have been passed. -/
def stopsFrom (ts : List (Tree α)) (first : Nat) : SideTable Nat :=
  ofFn (sizeAll ts) fun id => if first ≤ id then (TreeIndex.ofForest ts).stop id else 0

theorem get?_stopsFrom (behind : first ≤ id) (lt : id < sizeAll ts) :
    (stopsFrom ts first).get? id = some ((TreeIndex.ofForest ts).stop id) := by
  rw [stopsFrom, get?_ofFn, if_pos lt, if_pos behind]

theorem stopBehind?_stopsFrom (lt : id < sizeAll ts) :
    (stopsFrom ts (id + 1)).stopBehind? id ((TreeIndex.ofForest ts).children id)
      = some ((TreeIndex.ofForest ts).stop id) := by
  unfold stopBehind?
  cases last : ((TreeIndex.ofForest ts).children id).getLast? with
  | none => rw [TreeIndex.stop_of_childless lt last]
  | some c =>
    obtain ⟨behind, inside, same⟩ := TreeIndex.stop_of_last lt last
    rw [same]
    exact get?_stopsFrom behind inside

theorem noteStop?_stopsFrom (lt : id < sizeAll ts) :
    (stopsFrom ts (id + 1)).noteStop? (id, (TreeIndex.ofForest ts).children id)
      = some (stopsFrom ts id) := by
  rw [noteStop?, stopBehind?_stopsFrom lt, Option.bind_some, stopsFrom, set?_ofFn lt]
  refine congrArg some (ofFn_congr fun i _ => ?_)
  rw [Function.update_apply]
  by_cases here : i = id
  · rw [if_pos here, if_pos here.ge, here]
  · rw [if_neg here]
    exact if_congr (by omega) rfl rfl

theorem foldlM_noteStop? (le : first ≤ sizeAll ts) :
    ((List.range first).map fun id => (id, (TreeIndex.ofForest ts).children id)).reverse.foldlM
      noteStop? (stopsFrom ts first) = some (stopsFrom ts 0) := by
  induction first with
  | zero => rfl
  | succ first ih =>
    rw [List.range_succ, List.map_append, List.reverse_append, List.map_singleton,
      List.reverse_singleton, List.singleton_append, List.foldlM_cons, noteStop?_stopsFrom le]
    exact ih (Nat.le_of_succ_le le)

/-- The pass finds where all subtrees end. -/
theorem stops?_ofFn (ts : List (Tree α)) :
    (ofFn (sizeAll ts) (TreeIndex.ofForest ts).children).stops?
      = some (ofFn (sizeAll ts) (TreeIndex.ofForest ts).stop) := by
  have first : filled (sizeAll ts) 0 = stopsFrom ts (sizeAll ts) := by
    rw [filled_eq_ofFn]
    exact ofFn_congr fun id lt => (if_neg (not_le.2 lt)).symm
  have last : stopsFrom ts 0 = ofFn (sizeAll ts) (TreeIndex.ofForest ts).stop :=
    ofFn_congr fun id _ => if_pos (Nat.zero_le id)
  rw [stops?, entries_ofFn, size_ofFn, first, foldlM_noteStop? le_rfl, last]

end SideTable

/-! ### Views of a tree -/

namespace TreeIndex

/-- An index shows a tree as it is. Its numbers are the places of the nodes in preorder. The
children of a node are the numbers of its child trees, from left to right, and the parent of a node
is the one that has it as a child. The descendants of a node are the numbers of the nodes below it,
in preorder: those that it is above. -/
structure Shows (index : TreeIndex α) (t : Tree α) : Prop where
  ids : index.ids = List.range t.size
  label : ∀ id, index.label? id = t.subtrees[id]?.map (·.label)
  children : ∀ id u, t.subtrees[id]? = some u →
    (index.children id).map (fun c => t.subtrees[c]?) = u.children.map some
  ascending : ∀ id, (index.children id).Pairwise (· < ·)
  parent : ∀ id above, index.parent? id = some above ↔ id ∈ index.children above
  parent_lt : ∀ id above, index.parent? id = some above → above < id ∧ id < t.size
  orphan : ∀ id < t.size, index.parent? id = none ↔ id = 0
  descendants : ∀ id u, t.subtrees[id]? = some u →
    (index.descendants id).map (fun i => t.subtrees[i]?) = u.subtrees.tail.map some
  descendants_ascending : ∀ id, (index.descendants id).Pairwise (· < ·)
  mem_descendants : ∀ id i, i ∈ index.descendants id ↔ index.Above id i

theorem shows_ofTree (t : Tree α) : (ofTree t).Shows t where
  ids := ids_ofTree t
  label id := by
    rw [label?_ofTree, ← map_label_subtrees, List.getElem?_map]
  children id u root := by
    rw [← subtreesAll_singleton] at root ⊢
    rw [ofTree_eq_ofForest, map_children root]
  ascending id := by
    rw [ofTree_eq_ofForest]
    exact ascending_children id
  parent id above := mem_children_ofTree.symm
  parent_lt id above parent := parent?_lt parent
  orphan id lt := by
    constructor
    · intro none
      by_contra inner
      obtain ⟨above, parent⟩ := exists_parent? lt inner
      cases none.symm.trans parent
    · rintro rfl
      rw [Option.eq_none_iff_forall_ne_some]
      exact fun above parent => Nat.not_lt_zero above (parent?_lt parent).1
  descendants id u root := by
    rw [← subtreesAll_singleton] at root ⊢
    rw [ofTree_eq_ofForest, map_descendants root, subtrees_eq_cons, List.tail_cons]
  descendants_ascending id := List.pairwise_lt_range'
  mem_descendants id i := by
    rw [ofTree_eq_ofForest, mem_descendants_iff_above]

/-- An index shows its tree as it is. A walk with a stack passes the subtrees in the order of its
numbers and fills its tables, and the pass from the last number to the first finds where its
subtrees end. A pass that changes the nodes and carries a state comes to them in that order too. -/
theorem ofTree_shows_tree (t : Tree α) :
    let index := ofTree t
    index.Shows t ∧ walk [t] = t.subtrees ∧ t.subtrees.map (·.label) = t.preorder ∧
      Walk.ofTree? t = some ⟨.ofList t.subtrees, .ofFn t.size index.parent?,
        .ofFn t.size index.children⟩ ∧
      (SideTable.ofFn t.size index.children).stops? = some (.ofFn t.size index.stop) ∧
      ∀ (β σ : Type) (s : σ),
        (∀ f : σ → Tree α → β × σ, t.subtrees.mapM (m := StateM σ) (fun u s => f s u) s
          = ((t.forEach f s).1.preorder, (t.forEach f s).2)) ∧
        ∀ f : σ → α → β × σ, t.mapAccum f s = t.forEach (fun s u => f s u.label) s := by
  intro index
  refine ⟨shows_ofTree t, walk_singleton t, map_label_subtrees t, Walk.ofTree?_eq t, ?_,
    fun _ _ s => ⟨fun f => mapM_subtrees f t s, fun f => mapAccum_eq_forEach f t s⟩⟩
  have stops := SideTable.stops?_ofFn [t]
  rwa [sizeAll_singleton, ← ofTree_eq_ofForest] at stops

/-- The index of `a (b (c, d), e)`. -/
example :
    let index := ofTree (node 'a' [node 'b' [leaf 'c', leaf 'd'], leaf 'e'])
    index.ids.map index.parent? = [none, some 0, some 1, some 1, some 0] ∧
      index.children 0 = [1, 4] ∧ index.descendants 1 = [2, 3] ∧ index.descendants 4 = [] := by
  decide

end TreeIndex

end SureCode
