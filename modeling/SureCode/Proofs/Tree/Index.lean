import Mathlib
import SureCode.Tree.Index

/-!
# Numbers of a forest

The entries of a forest with their numbers, `numbered`, and what they say about an index: the path
from a node leads through its parent's path (`path_eq_cons`), and a node is on the path of another
exactly when its interval of numbers, from its own to its `stop`, has the other's number
(`mem_path_iff`). Its children are the nodes whose parent it is (`mem_children_iff`). Before that,
what the subtrees of a tree are: their labels are those of the tree (`mem_preorder_iff`), and they
are closed under children (`mem_subtrees_of_child`).
-/

namespace SureCode

namespace Tree

variable {α : Type}

/-- Induction on a forest: over the trees below its first root and over the other trees. -/
theorem forest_induction {motive : List (Tree α) → Prop} (nil : motive [])
    (cons : ∀ a us ts, motive us → motive ts → motive (node a us :: ts)) : ∀ ts, motive ts
  | [] => nil
  | node a us :: ts => cons a us ts (forest_induction nil cons us) (forest_induction nil cons ts)
termination_by ts => sizeAll ts
decreasing_by all_goals (simp only [sizeAll, size_node]; omega)

theorem length_entriesAll (ancestors : List Nat) (start : Nat) (ts : List (Tree α)) :
    (entriesAll ancestors start ts).length = sizeAll ts := by
  rw [← length_preorderAll, ← map_label_entriesAll ancestors start ts, List.length_map]

theorem preorderAll_append (ts us : List (Tree α)) :
    preorderAll (ts ++ us) = preorderAll ts ++ preorderAll us := by
  simp [preorderAll_eq_flatMap]

theorem forall_mem_preorderAll_cons {p : α → Prop} {a : α} {us ts : List (Tree α)} :
    (∀ b ∈ preorderAll (node a us :: ts), p b) ↔
      p a ∧ (∀ b ∈ preorderAll us, p b) ∧ ∀ b ∈ preorderAll ts, p b := by
  rw [preorderAll, preorder_node, List.forall_mem_append, List.forall_mem_cons, and_assoc]

theorem sizeAll_singleton (t : Tree α) : sizeAll [t] = t.size := by
  simp [sizeAll]

/-! ### Subtrees -/

section Subtrees

variable {ts : List (Tree α)} {t u v : Tree α} {a : α}

theorem map_label_subtreesAll (ts : List (Tree α)) :
    (subtreesAll ts).map label = preorderAll ts := by
  induction ts using forest_induction with
  | nil => rfl
  | cons a us ts below rest =>
    rw [subtreesAll, subtrees, List.map_append, List.map_cons, below, rest, preorderAll, preorder,
      label_node]

theorem map_label_subtrees (t : Tree α) : t.subtrees.map label = t.preorder := by
  cases t with
  | node a us => rw [subtrees, List.map_cons, map_label_subtreesAll, preorder, label_node]

theorem subtreesAll_append (ts us : List (Tree α)) :
    subtreesAll (ts ++ us) = subtreesAll ts ++ subtreesAll us := by
  induction ts with
  | nil => rfl
  | cons t ts ih => rw [List.cons_append, subtreesAll, ih, subtreesAll, List.append_assoc]

theorem mem_preorder_iff : a ∈ t.preorder ↔ ∃ u ∈ t.subtrees, u.label = a := by
  rw [← map_label_subtrees, List.mem_map]

theorem mem_subtrees_self (t : Tree α) : t ∈ t.subtrees := by
  cases t
  rw [subtrees]
  exact List.mem_cons_self

theorem mem_subtreesAll_of_mem (mem : t ∈ ts) : t ∈ subtreesAll ts := by
  induction ts with
  | nil => cases mem
  | cons u ts ih =>
    rw [subtreesAll, List.mem_append]
    rcases List.mem_cons.1 mem with rfl | mem
    · exact .inl (mem_subtrees_self t)
    · exact .inr (ih mem)

theorem mem_subtreesAll_of_child (mem : u ∈ subtreesAll ts) (child : v ∈ u.children) :
    v ∈ subtreesAll ts := by
  induction ts using forest_induction with
  | nil => cases mem
  | cons a us ts below rest =>
    rw [subtreesAll, subtrees, List.mem_append, List.mem_cons] at mem ⊢
    obtain (rfl | mem) | mem := mem
    · exact .inl (.inr (mem_subtreesAll_of_mem child))
    · exact .inl (.inr (below mem))
    · exact .inr (rest mem)

theorem mem_subtrees_of_child (mem : u ∈ t.subtrees) (child : v ∈ u.children) :
    v ∈ t.subtrees := by
  have within : u ∈ subtreesAll [t] := by simpa [subtreesAll] using mem
  simpa [subtreesAll] using mem_subtreesAll_of_child within child

end Subtrees

/-! ### Numbered entries -/

/-- The entries of sibling trees, each with its number. -/
def numbered (ancestors : List Nat) (start : Nat) (ts : List (Tree α)) : List (Entry α × Nat) :=
  (entriesAll ancestors start ts).zipIdx start

@[simp] theorem numbered_nil (ancestors : List Nat) (start : Nat) :
    numbered ancestors start ([] : List (Tree α)) = [] := by
  simp [numbered, entriesAll]

/-- The entry of a first root. -/
def rootEntry (ancestors : List Nat) (start : Nat) (a : α) (us : List (Tree α)) : Entry α :=
  ⟨a, ancestors, siblingNumbers (start + 1) us, start + 1 + sizeAll us⟩

theorem numbered_cons (ancestors : List Nat) (start : Nat) (a : α) (us ts : List (Tree α)) :
    numbered ancestors start (node a us :: ts) =
      (rootEntry ancestors start a us, start) ::
        (numbered (start :: ancestors) (start + 1) us ++
          numbered ancestors (start + 1 + sizeAll us) ts) := by
  have behind : start + (sizeAll us + 1) = start + 1 + sizeAll us := by omega
  simp only [numbered, rootEntry, entriesAll, entries, List.zipIdx_append, List.zipIdx_cons,
    List.length_cons, length_entriesAll, List.cons_append, behind]

theorem mem_numbered_cons {ancestors : List Nat} {start : Nat} {a : α} {us ts : List (Tree α)}
    {p : Entry α × Nat} :
    p ∈ numbered ancestors start (node a us :: ts) ↔
      p = (rootEntry ancestors start a us, start) ∨
        p ∈ numbered (start :: ancestors) (start + 1) us ∨
          p ∈ numbered ancestors (start + 1 + sizeAll us) ts := by
  rw [numbered_cons, List.mem_cons, List.mem_append]

theorem map_snd_numbered (ancestors : List Nat) (start : Nat) (ts : List (Tree α)) :
    (numbered ancestors start ts).map (·.2) = List.range' start (sizeAll ts) := by
  rw [numbered, List.zipIdx_map_snd, length_entriesAll]

theorem map_label_numbered (ancestors : List Nat) (start : Nat) (ts : List (Tree α)) :
    (numbered ancestors start ts).map (·.1.label) = preorderAll ts := by
  have fst : (numbered ancestors start ts).map (·.1) = entriesAll ancestors start ts :=
    List.zipIdx_map_fst ..
  rw [← map_label_entriesAll ancestors start ts, ← fst, List.map_map]
  rfl

theorem numbered_append (ancestors : List Nat) (start : Nat) (ts us : List (Tree α)) :
    numbered ancestors start (ts ++ us)
      = numbered ancestors start ts ++ numbered ancestors (start + sizeAll ts) us := by
  induction ts generalizing start with
  | nil => simp [sizeAll]
  | cons t ts ih =>
    cases t with
    | node a vs =>
      have behind :
          start + 1 + sizeAll vs + sizeAll ts = start + (sizeAll vs + 1 + sizeAll ts) := by
        omega
      simp only [List.cons_append, numbered_cons, ih, List.append_assoc, sizeAll, size_node, behind]

theorem numbered_bounds {ancestors : List Nat} {start : Nat} {ts : List (Tree α)}
    {p : Entry α × Nat} (mem : p ∈ numbered ancestors start ts) :
    start ≤ p.2 ∧ p.2 < start + sizeAll ts := by
  have : p.2 ∈ List.range' start (sizeAll ts) :=
    map_snd_numbered ancestors start ts ▸ List.mem_map_of_mem mem
  exact List.mem_range'_1.1 this

theorem exists_numbered (ancestors : List Nat) {start i : Nat} (ts : List (Tree α))
    (low : start ≤ i) (high : i < start + sizeAll ts) :
    ∃ e, (e, i) ∈ numbered ancestors start ts := by
  have : i ∈ (numbered ancestors start ts).map (·.2) := by
    rw [map_snd_numbered]
    exact List.mem_range'_1.2 ⟨low, high⟩
  obtain ⟨⟨e, j⟩, mem, rfl⟩ := List.mem_map.1 this
  exact ⟨e, mem⟩

/-- A subtree ends behind its root and within its forest. -/
theorem stop_bounds {ancestors : List Nat} {start : Nat} {ts : List (Tree α)} :
    ∀ p ∈ numbered ancestors start ts, p.2 < p.1.stop ∧ p.1.stop ≤ start + sizeAll ts := by
  induction ts using forest_induction generalizing ancestors start with
  | nil => simp
  | cons a us ts below rest =>
    intro p mem
    simp only [sizeAll, size_node]
    rcases mem_numbered_cons.1 mem with rfl | mem | mem
    · simp only [rootEntry]
      omega
    · have := below p mem
      omega
    · have := rest p mem
      omega

/-- What is above a forest is above each of its nodes. -/
theorem mem_ancestors_of_above {above : List Nat} {start : Nat} {ts : List (Tree α)} :
    ∀ p ∈ numbered above start ts, ∀ a ∈ above, a ∈ p.1.ancestors := by
  induction ts using forest_induction generalizing above start with
  | nil => simp
  | cons b us ts below rest =>
    intro p mem a above
    rcases mem_numbered_cons.1 mem with rfl | mem | mem
    · exact above
    · exact below p mem a (List.mem_cons_of_mem _ above)
    · exact rest p mem a above

/-- Above a node are what is above the forest and nodes of the forest with smaller numbers. -/
theorem mem_above_or_between {above : List Nat} {start : Nat} {ts : List (Tree α)} :
    ∀ p ∈ numbered above start ts, ∀ a ∈ p.1.ancestors, a ∈ above ∨ start ≤ a ∧ a < p.2 := by
  induction ts using forest_induction generalizing above start with
  | nil => simp
  | cons b us ts below rest =>
    intro p mem a ancestor
    rcases mem_numbered_cons.1 mem with rfl | mem | mem
    · exact .inl ancestor
    · have bounds := numbered_bounds mem
      rcases below p mem a ancestor with above | between
      · rcases List.mem_cons.1 above with rfl | above
        · exact .inr (by omega)
        · exact .inl above
      · exact .inr (by omega)
    · rcases rest p mem a ancestor with above | between
      · exact .inl above
      · exact .inr (by omega)

theorem ancestors_bounds {above : List Nat} {first start : Nat} {ts : List (Tree α)}
    (before : ∀ a ∈ above, a < first) {p : Entry α × Nat} (mem : p ∈ numbered above start ts)
    {a : Nat} (ancestor : a ∈ p.1.ancestors) : a < first ∨ start ≤ a ∧ a < p.2 :=
  (mem_above_or_between p mem a ancestor).imp_left (before a)

/-- What comes before a forest comes before the nodes below its first root, with the root, and before
the other trees. -/
theorem before_cons {above : List Nat} {start : Nat} (before : ∀ a ∈ above, a < start)
    (size : Nat) :
    (∀ a ∈ start :: above, a < start + 1) ∧ ∀ a ∈ above, a < start + 1 + size := by
  rw [List.forall_mem_cons]
  exact ⟨⟨Nat.lt_succ_self start, fun a mem => (before a mem).trans (by omega)⟩,
    fun a mem => (before a mem).trans (by omega)⟩

/-- The nodes above a node are those whose interval of numbers has its number. -/
theorem mem_ancestors_iff {above : List Nat} {start : Nat} {ts : List (Tree α)}
    (before : ∀ a ∈ above, a < start) :
    ∀ p ∈ numbered above start ts, ∀ q ∈ numbered above start ts,
      (p.2 ∈ q.1.ancestors ↔ p.2 < q.2 ∧ q.2 < p.1.stop) := by
  induction ts using forest_induction generalizing above start with
  | nil => simp
  | cons b us ts below rest =>
    intro p memp q memq
    obtain ⟨before_below, before_rest⟩ := before_cons before (sizeAll us)
    have boundp := numbered_bounds memp
    have boundq := numbered_bounds memq
    -- a node stands behind what is above it
    have behind (mem : p.2 ∈ q.1.ancestors) : p.2 < q.2 := by
      have := ancestors_bounds before memq mem
      omega
    rcases mem_numbered_cons.1 memq with rfl | memq | memq
    · refine ⟨fun mem => absurd (behind mem) ?_, fun between => ?_⟩ <;> simp only at * <;> omega
    · have insideq := numbered_bounds memq
      rcases mem_numbered_cons.1 memp with rfl | memp | memp
      · have := mem_ancestors_of_above q memq start List.mem_cons_self
        simp only [rootEntry, this, true_iff]
        omega
      · exact below before_below p memp q memq
      · have insidep := numbered_bounds memp
        refine ⟨fun mem => ?_, fun between => ?_⟩
        · have := behind mem
          omega
        · omega
    · have insideq := numbered_bounds memq
      -- what is above a later tree stands before the forest or in the later trees
      have later (mem : p.2 ∈ q.1.ancestors) : start + 1 + sizeAll us ≤ p.2 := by
        have := ancestors_bounds before memq mem
        omega
      rcases mem_numbered_cons.1 memp with rfl | memp | memp
      · refine ⟨fun mem => ?_, fun between => ?_⟩
        · have := later mem
          simp only at this
          omega
        · simp only [rootEntry] at between
          omega
      · have insidep := numbered_bounds memp
        have := stop_bounds p memp
        refine ⟨fun mem => ?_, fun between => ?_⟩
        · have := later mem
          omega
        · omega
      · exact rest before_rest p memp q memq

/-- The nodes above a node are its parent and the nodes above its parent. -/
theorem ancestors_eq {above : List Nat} {start : Nat} {ts : List (Tree α)} :
    ∀ q ∈ numbered above start ts,
      q.1.ancestors = above ∨
        ∃ p ∈ numbered above start ts, p.2 < q.2 ∧ q.1.ancestors = p.2 :: p.1.ancestors := by
  induction ts using forest_induction generalizing above start with
  | nil => simp
  | cons b us ts below rest =>
    intro q mem
    rcases mem_numbered_cons.1 mem with rfl | mem | mem
    · exact .inl rfl
    · refine .inr ?_
      rcases below q mem with top | ⟨p, memp, less, eq⟩
      · have := (numbered_bounds mem).1
        exact ⟨_, mem_numbered_cons.2 (.inl rfl), by simp only; omega, top⟩
      · exact ⟨p, mem_numbered_cons.2 (.inr (.inl memp)), less, eq⟩
    · rcases rest q mem with top | ⟨p, memp, less, eq⟩
      · exact .inl top
      · exact .inr ⟨p, mem_numbered_cons.2 (.inr (.inr memp)), less, eq⟩

/-! ### Children -/

/-- The roots of a forest are its nodes that have nothing above them but what is above the forest.
-/
theorem mem_siblingNumbers_iff {above : List Nat} {start c : Nat} {ts : List (Tree α)}
    (before : ∀ a ∈ above, a < start) :
    c ∈ siblingNumbers start ts ↔ ∃ e, (e, c) ∈ numbered above start ts ∧ e.ancestors = above := by
  induction ts generalizing start with
  | nil => simp [siblingNumbers]
  | cons t ts ih =>
    cases t with
    | node b us =>
      have behind : start + (node b us).size = start + 1 + sizeAll us := by
        rw [size_node]
        omega
      rw [siblingNumbers, List.mem_cons, behind, ih (before_cons before (sizeAll us)).2]
      constructor
      · rintro (rfl | ⟨e, mem, top⟩)
        · exact ⟨_, mem_numbered_cons.2 (.inl rfl), rfl⟩
        · exact ⟨e, mem_numbered_cons.2 (.inr (.inr mem)), top⟩
      · rintro ⟨e, mem, top⟩
        rcases mem_numbered_cons.1 mem with eq | mem | mem
        · exact .inl (congrArg Prod.snd eq)
        · have inside := mem_ancestors_of_above _ mem start List.mem_cons_self
          simp only [top] at inside
          exact absurd (before start inside) (lt_irrefl start)
        · exact .inr ⟨e, mem, top⟩

/-- The children of a node are the nodes that have the node and what is above it above them. -/
theorem mem_entry_children_iff {above : List Nat} {start c : Nat} {ts : List (Tree α)}
    (before : ∀ a ∈ above, a < start) :
    ∀ p ∈ numbered above start ts,
      (c ∈ p.1.children ↔
        ∃ e, (e, c) ∈ numbered above start ts ∧ e.ancestors = p.2 :: p.1.ancestors) := by
  induction ts using forest_induction generalizing above start with
  | nil => simp
  | cons b us ts below rest =>
    intro p memp
    obtain ⟨before_below, before_rest⟩ := before_cons before (sizeAll us)
    -- a node right below another has a number between that and its stop
    have between {e : Entry α} (mem : (e, c) ∈ numbered above start (node b us :: ts))
        (eq : e.ancestors = p.2 :: p.1.ancestors) : p.2 < c ∧ c < p.1.stop :=
      (mem_ancestors_iff before p memp (e, c) mem).1 (by simp [eq])
    rcases mem_numbered_cons.1 memp with rfl | memp | memp
    · rw [rootEntry, mem_siblingNumbers_iff before_below]
      refine exists_congr fun e => and_congr_left fun eq => ?_
      refine ⟨fun mem => mem_numbered_cons.2 (.inr (.inl mem)), fun mem => ?_⟩
      have := between mem eq
      simp only [rootEntry] at this
      rcases mem_numbered_cons.1 mem with root | mem | mem
      · have : c = start := congrArg Prod.snd root
        omega
      · exact mem
      · have : start + 1 + sizeAll us ≤ c := (numbered_bounds mem).1
        omega
    · rw [below before_below p memp]
      refine exists_congr fun e => and_congr_left fun eq => ?_
      refine ⟨fun mem => mem_numbered_cons.2 (.inr (.inl mem)), fun mem => ?_⟩
      have := between mem eq
      have := (numbered_bounds memp).1
      have := (stop_bounds p memp).2
      rcases mem_numbered_cons.1 mem with root | mem | mem
      · have : c = start := congrArg Prod.snd root
        omega
      · exact mem
      · have : start + 1 + sizeAll us ≤ c := (numbered_bounds mem).1
        omega
    · rw [rest before_rest p memp]
      refine exists_congr fun e => and_congr_left fun eq => ?_
      refine ⟨fun mem => mem_numbered_cons.2 (.inr (.inr mem)), fun mem => ?_⟩
      have := between mem eq
      have := (numbered_bounds memp).1
      rcases mem_numbered_cons.1 mem with root | mem | mem
      · have : c = start := congrArg Prod.snd root
        omega
      · have : c < start + 1 + sizeAll us := (numbered_bounds mem).2
        omega
      · exact mem

theorem pairwise_siblingNumbers (start : Nat) (ts : List (Tree α)) :
    (siblingNumbers start ts).Pairwise (· < ·) ∧ ∀ c ∈ siblingNumbers start ts, start ≤ c := by
  induction ts generalizing start with
  | nil => simp [siblingNumbers]
  | cons t ts ih =>
    obtain ⟨rising, low⟩ := ih (start + t.size)
    have := t.size_pos
    rw [siblingNumbers, List.pairwise_cons, List.forall_mem_cons]
    exact ⟨⟨fun c mem => by have := low c mem; omega, rising⟩, le_rfl,
      fun c mem => by have := low c mem; omega⟩

theorem pairwise_children {above : List Nat} {start : Nat} {ts : List (Tree α)} :
    ∀ p ∈ numbered above start ts, p.1.children.Pairwise (· < ·) := by
  induction ts using forest_induction generalizing above start with
  | nil => simp
  | cons b us ts below rest =>
    intro p mem
    rcases mem_numbered_cons.1 mem with rfl | mem | mem
    · exact (pairwise_siblingNumbers _ _).1
    · exact below p mem
    · exact rest p mem

/-- The index of a tree is that of the forest of the tree alone. -/
theorem ofTree_eq_ofForest (t : Tree α) : TreeIndex.ofTree t = .ofForest [t] := by
  simp [TreeIndex.ofTree, TreeIndex.ofForest, entriesAll]

end Tree

/-! ### The index of a forest -/

namespace TreeIndex

open SureCode.Tree

variable {α : Type} {ts : List (Tree α)}

theorem mem_numbered_iff {e : Entry α} {i : Nat} :
    (e, i) ∈ numbered [] 0 ts ↔ (ofForest ts).entries[i]? = some e := by
  simp [numbered, ofForest, List.mk_mem_zipIdx_iff_getElem?]

theorem exists_entry {i : Nat} (lt : i < sizeAll ts) : ∃ e, (e, i) ∈ numbered [] 0 ts :=
  exists_numbered [] ts (Nat.zero_le i) (by omega)

theorem entries_eq_none {i : Nat} (outside : sizeAll ts ≤ i) :
    (ofForest ts).entries[i]? = none := by
  simp [ofForest, length_entriesAll, outside]

theorem stop_of_le {i : Nat} (outside : sizeAll ts ≤ i) : (ofForest ts).stop i = i := by
  simp [stop, entries_eq_none outside]

theorem path_of_mem {e : Entry α} {i : Nat} (mem : (e, i) ∈ numbered [] 0 ts) :
    (ofForest ts).path i = i :: e.ancestors := by
  simp [path, mem_numbered_iff.1 mem]

theorem parent?_of_mem {e : Entry α} {i : Nat} (mem : (e, i) ∈ numbered [] 0 ts) :
    (ofForest ts).parent? i = e.ancestors.head? := by
  simp [parent?, mem_numbered_iff.1 mem]

theorem stop_of_mem {e : Entry α} {i : Nat} (mem : (e, i) ∈ numbered [] 0 ts) :
    (ofForest ts).stop i = e.stop := by
  simp [stop, mem_numbered_iff.1 mem]

theorem mem_path_self (i : Nat) : i ∈ (ofForest ts).path i := by
  simp [path]

theorem lt_of_parent?_eq_some {i p : Nat} (parent : (ofForest ts).parent? i = some p) :
    i < sizeAll ts := by
  by_contra outside
  simp [parent?, entries_eq_none (not_lt.1 outside)] at parent

/-- The path from a node is the node with the path from its parent. -/
theorem path_eq_cons {i : Nat} (lt : i < sizeAll ts) :
    (ofForest ts).path i = i :: ((ofForest ts).parent? i).elim [] (ofForest ts).path ∧
      ∀ p, (ofForest ts).parent? i = some p → p < i := by
  obtain ⟨e, mem⟩ := exists_entry lt
  rw [path_of_mem mem, parent?_of_mem mem]
  rcases ancestors_eq _ mem with top | ⟨⟨f, p⟩, memp, less, eq⟩
  · simp only at top
    simp [top]
  · simp only at eq less
    simp [eq, path_of_mem memp, less]

theorem bounds_of_parent? {i p : Nat} (parent : (ofForest ts).parent? i = some p) :
    p < i ∧ i < sizeAll ts := by
  have lt := lt_of_parent?_eq_some parent
  exact ⟨(path_eq_cons lt).2 p parent, lt⟩

/-- A node is on the path from another exactly when its interval has the other's number. -/
theorem mem_path_iff {a i : Nat} (lt : i < sizeAll ts) :
    a ∈ (ofForest ts).path i ↔ a ≤ i ∧ i < (ofForest ts).stop a := by
  obtain ⟨e, mem⟩ := exists_entry lt
  rw [path_of_mem mem, List.mem_cons]
  by_cases inside : a < sizeAll ts
  · obtain ⟨f, mema⟩ := exists_entry inside
    have above := mem_ancestors_iff (by simp) _ mema _ mem
    have := stop_bounds _ mema
    simp only at above this
    rw [stop_of_mem mema, above]
    omega
  · rw [stop_of_le (not_lt.1 inside)]
    constructor
    · rintro (rfl | above)
      · exact absurd lt inside
      · have := mem_above_or_between _ mem a above
        simp only [List.not_mem_nil, false_or] at this
        omega
    · omega

theorem mem_subtree_iff {a i : Nat} :
    i ∈ (ofForest ts).subtree a ↔ a ≤ i ∧ i < (ofForest ts).stop a := by
  rw [subtree, List.mem_range'_1]
  omega

theorem lt_of_mem_subtree {a i : Nat} (lt : a < sizeAll ts) (mem : i ∈ (ofForest ts).subtree a) :
    i < sizeAll ts := by
  obtain ⟨e, entry⟩ := exists_entry lt
  have last : e.stop ≤ 0 + sizeAll ts := (stop_bounds _ entry).2
  rw [mem_subtree_iff, stop_of_mem entry] at mem
  omega

theorem lt_of_mem_path {a i : Nat} (lt : i < sizeAll ts) (mem : a ∈ (ofForest ts).path i) :
    a < sizeAll ts := by
  have := (mem_path_iff lt).1 mem
  omega

/-- What is on the path of a node on a path is on that path. -/
theorem mem_path_trans {a b i : Nat} (lt : i < sizeAll ts) (ab : a ∈ (ofForest ts).path b)
    (bi : b ∈ (ofForest ts).path i) : a ∈ (ofForest ts).path i := by
  induction i using Nat.strong_induction_on with
  | _ i ih =>
    obtain ⟨path, smaller⟩ := path_eq_cons lt
    rw [path, List.mem_cons] at bi ⊢
    rcases bi with rfl | bi
    · rwa [path, List.mem_cons] at ab
    · refine .inr ?_
      cases parent : (ofForest ts).parent? i with
      | none => simp [parent] at bi
      | some p =>
        rw [parent] at bi
        have less := smaller p parent
        exact ih p less (by omega) bi

/-- The numbers on a path fall. -/
theorem pairwise_path {i : Nat} (lt : i < sizeAll ts) :
    ((ofForest ts).path i).Pairwise fun a b => b < a := by
  induction i using Nat.strong_induction_on with
  | _ i ih =>
    obtain ⟨path, smaller⟩ := path_eq_cons lt
    rw [path]
    cases parent : (ofForest ts).parent? i with
    | none => simp
    | some p =>
      have less := smaller p parent
      have inside : p < sizeAll ts := by omega
      refine List.pairwise_cons.2 ⟨fun a mem => ?_, ih p less inside⟩
      have := (mem_path_iff inside).1 mem
      omega

/-! ### Children by number -/

/-- The children of a node are the nodes whose parent it is. -/
theorem mem_children_iff {i c : Nat} :
    c ∈ (ofForest ts).children i ↔ (ofForest ts).parent? c = some i := by
  by_cases lt : i < sizeAll ts
  · obtain ⟨e, mem⟩ := exists_entry lt
    have children_eq : (ofForest ts).children i = e.children := by
      simp [children, mem_numbered_iff.1 mem]
    rw [children_eq, mem_entry_children_iff (by simp) (e, i) mem]
    constructor
    · rintro ⟨f, memc, eq⟩
      rw [parent?_of_mem memc, eq, List.head?_cons]
    · intro parent
      obtain ⟨f, memc⟩ := exists_entry (lt_of_parent?_eq_some parent)
      rw [parent?_of_mem memc] at parent
      refine ⟨f, memc, ?_⟩
      rcases ancestors_eq _ memc with top | ⟨⟨g, j⟩, memj, -, eq⟩
      · simp [show f.ancestors = [] from top] at parent
      · simp only at eq
        rw [eq, List.head?_cons, Option.some.injEq] at parent
        subst parent
        have : g = e := by
          rw [mem_numbered_iff] at mem memj
          exact Option.some.inj (memj.symm.trans mem)
        rw [eq, this]
  · refine iff_of_false (by simp [children, entries_eq_none (not_lt.1 lt)]) fun parent => ?_
    have := bounds_of_parent? parent
    omega

theorem ascending_children (i : Nat) : ((ofForest ts).children i).Pairwise (· < ·) := by
  unfold children
  cases entry : (ofForest ts).entries[i]? with
  | none => simp
  | some e => exact pairwise_children (e, i) (mem_numbered_iff.2 entry)

theorem nodup_children (i : Nat) : ((ofForest ts).children i).Nodup :=
  (ascending_children i).imp fun less => less.ne

/-- Below a node stand its children and what is below them. -/
theorem exists_child_of_mem_subtree {a i : Nat} (lt : i < sizeAll ts)
    (mem : i ∈ (ofForest ts).subtree a) (ne : i ≠ a) :
    ∃ c ∈ (ofForest ts).children a, i ∈ (ofForest ts).subtree c := by
  have on_path {a i : Nat} (lt : i < sizeAll ts) :
      i ∈ (ofForest ts).subtree a ↔ a ∈ (ofForest ts).path i := by
    rw [mem_subtree_iff, mem_path_iff lt]
  induction i using Nat.strong_induction_on with
  | _ i ih =>
    obtain ⟨path, smaller⟩ := path_eq_cons lt
    rw [on_path lt, path, List.mem_cons] at mem
    replace mem := mem.resolve_left (Ne.symm ne)
    cases parent : (ofForest ts).parent? i with
    | none => simp [parent] at mem
    | some p =>
      rw [parent] at mem
      have less := smaller p parent
      by_cases here : p = a
      · subst here
        exact ⟨i, mem_children_iff.2 parent, (on_path lt).2 (mem_path_self i)⟩
      · have inside : p < sizeAll ts := less.trans lt
        obtain ⟨c, child, mem⟩ := ih p less inside ((on_path inside).2 mem) here
        refine ⟨c, child, (on_path lt).2 ?_⟩
        rw [path, parent]
        exact List.mem_cons_of_mem i ((on_path inside).1 mem)

/-! ### The index of a tree -/

section OfTree

variable {t : Tree α} {above id : Nat}

theorem ids_ofTree (t : Tree α) : (ofTree t).ids = List.range t.size := by
  rw [ids, size_ofTree]

theorem label?_ofTree (t : Tree α) (id : Nat) : (ofTree t).label? id = t.preorder[id]? := by
  rw [← map_label_entries [] 0 t, List.getElem?_map, label?, ofTree, List.getElem?_toArray]

theorem parent?_lt (parent : (ofTree t).parent? id = some above) : above < id ∧ id < t.size := by
  rw [ofTree_eq_ofForest] at parent
  have bounds := bounds_of_parent? parent
  rwa [sizeAll_singleton] at bounds

theorem mem_children_ofTree :
    id ∈ (ofTree t).children above ↔ (ofTree t).parent? id = some above := by
  rw [ofTree_eq_ofForest, mem_children_iff]

end OfTree

end TreeIndex

end SureCode
