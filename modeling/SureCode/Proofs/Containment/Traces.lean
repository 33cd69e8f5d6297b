import Mathlib
import SureCode.Containment
import SureCode.Proofs.Exact
import SureCode.Proofs.Tree.Index
import SureCode.Pruning.Reconstruction

/-!
# Containment by traces

A trace of a tree is what stands on a way down from its root. In a shape siblings are distinct, so
a shape is found in another exactly when its traces are traces of the other
(`mismatchAll?_eq_none_iff`). A shape has no traces but those of its tree; it loses some where an
earlier sibling has something below it that a later one of the same signature lacks. What is left of
a tree after pruning has only traces of the tree, so it is found wherever the tree is, unless the
shape of the tree has lost one of them (`contained_pruned_tfae`). To be found in another is to have
no trace that the other lacks, so containment is a preorder (`isContained_preorder`).
-/

namespace SureCode

namespace Tree

variable {α β : Type}

/-- Whether some labels stand on a way down, from some siblings on. -/
def Traces (ts : List (Tree α)) : List α → Prop
  | [] => True
  | a :: path => ∃ t ∈ ts, t.label = a ∧ Traces t.children path

variable {t : Tree α} {ts us : List (Tree α)} {a : α} {path : List α}

theorem traces_nil (ts : List (Tree α)) : Traces ts [] := trivial

theorem traces_node : Traces [node a us] (a :: path) ↔ Traces us path := by
  simp [Traces]

theorem eq_of_traces_node {b : α} (trace : Traces [node a us] (b :: path)) :
    a = b ∧ Traces us path := by
  simpa [Traces] using trace

theorem Traces.mono {path : List α} (trace : Traces ts path) (sub : ∀ t ∈ ts, t ∈ us) :
    Traces us path := by
  cases path with
  | nil => trivial
  | cons a path =>
    obtain ⟨t, mem, rest⟩ := trace
    exact ⟨t, sub t mem, rest⟩

theorem traces_cons {path : List α} : Traces (t :: ts) path ↔ Traces [t] path ∨ Traces ts path := by
  cases path with
  | nil => simp [Traces]
  | cons a path => simp [Traces, or_and_right, exists_or]

/-- No way down is the only one without siblings. -/
theorem eq_nil_of_traces_nil {path : List α} (trace : Traces ([] : List (Tree α)) path) :
    path = [] := by
  cases path with
  | nil => rfl
  | cons a path => simp [Traces] at trace

/-- Siblings have distinct labels, on every level. -/
inductive Distinct : List (Tree α) → Prop
  | intro {ts : List (Tree α)} (labels : (ts.map label).Nodup)
    (below : ∀ t ∈ ts, Distinct t.children) : Distinct ts

theorem Distinct.labels (distinct : Distinct ts) : (ts.map label).Nodup := by
  cases distinct
  assumption

theorem Distinct.children (distinct : Distinct ts) (mem : t ∈ ts) : Distinct t.children := by
  cases distinct with
  | intro _ below => exact below t mem

theorem Distinct.eq {u : Tree α} (distinct : Distinct ts) (mem : t ∈ ts) (mem' : u ∈ ts)
    (same : t.label = u.label) : t = u :=
  List.inj_on_of_nodup_map distinct.labels mem mem' same

end Tree

open SureCode.Tree

/-! ### Shapes -/

namespace Shape

variable {t u : Shape} {us : List Shape} {path : List String}

theorem mem_place (mem : u ∈ place t us) : u = t ∨ u ∈ us := by
  induction us with
  | nil => exact .inl (by simpa [place] using mem)
  | cons v us ih =>
    rw [place] at mem
    split at mem
    · exact (List.mem_cons.1 mem).imp_right (List.mem_cons_of_mem v)
    · rcases List.mem_cons.1 mem with rfl | mem
      · exact .inr List.mem_cons_self
      · exact (ih mem).imp_right (List.mem_cons_of_mem v)

theorem map_label_place (t : Shape) (us : List Shape) :
    (place t us).map label
      = if t.label ∈ us.map label then us.map label else us.map label ++ [t.label] := by
  induction us with
  | nil => simp [place]
  | cons u us ih =>
    rw [place]
    by_cases same : u.label = t.label
    · simp [same]
    · rw [if_neg same, List.map_cons, ih]
      by_cases mem : t.label ∈ us.map label <;> simp [mem, Ne.symm same]

theorem place_of_not_mem (absent : t.label ∉ us.map label) : place t us = us ++ [t] := by
  induction us with
  | nil => rfl
  | cons u us ih =>
    rw [List.map_cons, List.mem_cons, not_or] at absent
    rw [place, if_neg (Ne.symm absent.1), ih absent.2, List.cons_append]

theorem distinct_place (distinct : Distinct us) (below : Distinct t.children) :
    Distinct (place t us) := by
  refine ⟨?_, fun u mem => ?_⟩
  · rw [map_label_place]
    split
    case isTrue => exact distinct.labels
    case isFalse absent =>
      rw [List.nodup_append]
      refine ⟨distinct.labels, List.nodup_singleton _, ?_⟩
      rintro a mem b last rfl
      exact absent (List.mem_singleton.1 last ▸ mem)
  · rcases mem_place mem with rfl | mem
    · exact below
    · exact distinct.children mem

theorem traces_of_place (trace : Traces (place t us) path) :
    Traces [t] path ∨ Traces us path :=
  traces_cons.1 (trace.mono fun _ mem => List.mem_cons.2 (mem_place mem))

theorem child?_eq_some {targets : List Shape} {signature : String}
    (found : child? targets signature = some t) : t ∈ targets ∧ t.label = signature :=
  ⟨List.mem_of_find?_eq_some found, by simpa using List.find?_some found⟩

theorem exists_child? {targets : List Shape} (mem : t ∈ targets) :
    ∃ u, child? targets t.label = some u := by
  rw [← Option.isSome_iff_exists, child?, List.find?_isSome]
  exact ⟨t, mem, by simp⟩

/-- Shapes are found among others exactly when the others have all their traces. -/
theorem mismatchAll?_eq_none_iff {targets ts : List Shape} (distinct : Distinct targets) :
    mismatchAll? targets ts = none ↔ ∀ path, Traces ts path → Traces targets path := by
  induction ts using forest_induction generalizing targets with
  | nil =>
    simp only [mismatchAll?, true_iff]
    intro path trace
    obtain rfl := eq_nil_of_traces_nil trace
    exact traces_nil targets
  | cons a us ts below rest =>
    rw [mismatchAll?, label_node]
    cases found : child? targets a with
    | none =>
      apply iff_of_false (by simp)
      intro all
      obtain ⟨t, mem, rfl, -⟩ := all [a] ⟨node a us, List.mem_cons_self, rfl, traces_nil us⟩
      obtain ⟨u, some⟩ := exists_child? mem
      simp [found] at some
    | some target =>
      obtain ⟨mem, rfl⟩ := child?_eq_some found
      have inside := below (distinct.children mem)
      simp only [mismatch?, ne_eq, not_true_eq_false, if_false, Option.or_eq_none_iff, inside,
        rest distinct]
      constructor
      · rintro ⟨first, others⟩ path trace
        rcases traces_cons.1 trace with trace | trace
        · cases path with
          | nil => exact traces_nil targets
          | cons b path =>
            obtain ⟨rfl, tail⟩ := eq_of_traces_node trace
            exact ⟨target, mem, rfl, first path tail⟩
        · exact others path trace
      · intro all
        refine ⟨fun path trace => ?_, fun path trace => all path (traces_cons.2 (.inr trace))⟩
        obtain ⟨u, mem', same, trace⟩ :=
          all (target.label :: path) (traces_cons.2 (.inl (traces_node.2 trace)))
        rwa [distinct.eq mem mem' same.symm]

end Shape

/-! ### Trees -/

namespace Node

variable {κ : Type} {source : List Char} {placed : List Shape} {us : List (Node κ)}
  {path : List String} {keep : Nat → Bool}

/-- The signatures of a tree where they stand. -/
def signed (source : List Char) (t : Node κ) : Tree String := t.map (·.signature source)

theorem signed_node (a : Construct κ) (us : List (Node κ)) :
    signed source (node a us) = node (a.signature source) (us.map (signed source)) :=
  map_node _ a us

theorem shape_node (a : Construct κ) (us : List (Node κ)) :
    shape source (node a us) = node (a.signature source) (shapes source [] us) := by
  rw [shape]

theorem distinct_shapes (distinct : Distinct placed) : Distinct (shapes source placed us) := by
  induction us using forest_induction generalizing placed with
  | nil => rwa [shapes]
  | cons a vs us below rest =>
    rw [shapes]
    split
    · exact rest distinct
    · refine rest (Shape.distinct_place distinct ?_)
      rw [shape_node]
      exact below ⟨by simp, by simp⟩

/-- A shape has no traces but those of its tree. -/
theorem traces_of_shapes (trace : Traces (shapes source placed us) path) :
    Traces placed path ∨ Traces (us.map (signed source)) path := by
  induction us using forest_induction generalizing placed path with
  | nil => exact .inl (by rwa [shapes] at trace)
  | cons a vs us below rest =>
    rw [shapes] at trace
    rw [List.map_cons, traces_cons]
    split at trace
    · exact (rest trace).imp_right .inr
    · rcases rest trace with trace | trace
      · rcases Shape.traces_of_place trace with trace | trace
        · refine .inr (.inl ?_)
          rw [shape_node] at trace
          rw [signed_node]
          cases path with
          | nil => exact traces_nil _
          | cons b path =>
            obtain ⟨rfl, tail⟩ := eq_of_traces_node trace
            refine traces_node.2 ?_
            rcases below tail with tail | tail
            · obtain rfl := eq_nil_of_traces_nil tail
              exact traces_nil _
            · exact tail
        · exact .inl trace
      · exact .inr (.inr trace)

/-- What is left after pruning has only traces of what was there. -/
theorem traces_of_retainedAllAt {start : Nat}
    (trace : Traces ((retainedAllAt keep start us).map (signed source)) path) :
    Traces (us.map (signed source)) path := by
  induction us using forest_induction generalizing start path with
  | nil => simpa [retainedAllAt] using trace
  | cons a vs us below rest =>
    rw [retainedAllAt, retainedAt] at trace
    rw [List.map_cons, traces_cons]
    split at trace
    · rw [Option.toList_some, List.singleton_append, List.map_cons, traces_cons] at trace
      refine trace.imp (fun trace => ?_) rest
      rw [signed_node] at trace ⊢
      cases path with
      | nil => exact traces_nil _
      | cons b path =>
        obtain ⟨rfl, tail⟩ := eq_of_traces_node trace
        exact traces_node.2 (below tail)
    · exact .inr (rest (by simpa using trace))

/-- Pruning looks at the numbers of the nodes only. -/
theorem retainedAllAt_congr {keep' : Nat → Bool} {start : Nat}
    (same : ∀ id, start ≤ id → id < start + sizeAll us → keep id = keep' id) :
    retainedAllAt keep start us = retainedAllAt keep' start us := by
  induction us using forest_induction generalizing start with
  | nil => simp [retainedAllAt]
  | cons a vs us below rest =>
    simp only [sizeAll, size_node] at same
    have root := same start le_rfl (by omega)
    have below : retainedAllAt keep (start + 1) vs = retainedAllAt keep' (start + 1) vs :=
      below fun id low high => same id (by omega) (by omega)
    have rest : retainedAllAt keep (start + (sizeAll vs + 1)) us
        = retainedAllAt keep' (start + (sizeAll vs + 1)) us :=
      rest fun id low high => same id (by omega) (by omega)
    simp only [retainedAllAt, retainedAt, root, below, size_node, rest]

/-- Keeping nothing. -/
theorem retainedAllAt_none {start : Nat}
    (none : ∀ id, start ≤ id → id < start + sizeAll us → keep id = false) :
    retainedAllAt keep start us = [] := by
  induction us using forest_induction generalizing start with
  | nil => simp [retainedAllAt]
  | cons a vs us below rest =>
    simp only [sizeAll, size_node] at none
    have root := none start le_rfl (by omega)
    have rest : retainedAllAt keep (start + (sizeAll vs + 1)) us = [] :=
      rest fun id low high => none id (by omega) (by omega)
    simp [retainedAllAt, retainedAt, root, rest]

/-- Every trace of a tree is one of the shape of what some pruning leaves: of one way down alone. -/
theorem exists_keep (start : Nat) (trace : Traces (us.map (signed source)) path) :
    ∃ keep, Traces (shapes source [] (retainedAllAt keep start us)) path := by
  induction path generalizing start us with
  | nil => exact ⟨fun _ => true, traces_nil _⟩
  | cons signature path ih =>
    induction us generalizing start with
    | nil => simp [Traces] at trace
    | cons u us next =>
      rw [List.map_cons, traces_cons] at trace
      cases u with
      | node a vs =>
        rcases trace with trace | trace
        · -- the way goes down here: nothing behind this tree is kept
          rw [signed_node] at trace
          obtain ⟨rfl, tail⟩ := eq_of_traces_node trace
          obtain ⟨keep, kept⟩ := ih (start + 1) tail
          let chain (id : Nat) : Bool :=
            id == start || (decide (id < start + 1 + sizeAll vs) && keep id)
          refine ⟨chain, ?_⟩
          have root : chain start = true := by simp [chain]
          have inside : retainedAllAt chain (start + 1) vs = retainedAllAt keep (start + 1) vs := by
            apply retainedAllAt_congr
            intro id low high
            have : id ≠ start := by omega
            simp [chain, this, high]
          have behind : retainedAllAt chain (start + (sizeAll vs + 1)) us = [] := by
            apply retainedAllAt_none
            intro id low _
            simp only [chain, Bool.or_eq_false_iff, beq_eq_false_iff_ne, Bool.and_eq_false_iff,
              decide_eq_false_iff_not]
            omega
          have left : retainedAllAt chain start (node a vs :: us)
              = [node (a.marked start false) (retainedAllAt keep (start + 1) vs)] := by
            simp [retainedAllAt, retainedAt, root, inside, behind]
          have same : (a.marked start false).signature source = a.signature source := rfl
          have retained : (a.marked start false).isDeleted = false := rfl
          rw [left]
          simpa [shapes, retained, Shape.place, shape_node, same, traces_node] using kept
        · -- the way goes down further on: this tree is dropped
          obtain ⟨keep, kept⟩ := next (start + (sizeAll vs + 1)) trace
          let later (id : Nat) : Bool := decide (start + (sizeAll vs + 1) ≤ id) && keep id
          refine ⟨later, ?_⟩
          have root : later start = false := by simp [later]
          have behind : retainedAllAt later (start + (sizeAll vs + 1)) us
              = retainedAllAt keep (start + (sizeAll vs + 1)) us :=
            retainedAllAt_congr fun id low _ => by simp [later, low]
          simpa [retainedAllAt, retainedAt, root, behind] using kept

/-! ### Pruned trees -/

/-- Every trace of a tree is one of its shape: no sibling hides something below an earlier one of
the same signature. -/
def Unshadowed (source : List Char) (t : Node κ) : Prop :=
  ∀ path, Traces (t.children.map (signed source)) path → Traces (t.shape source).children path

/-- Where siblings never share a signature and nothing is deleted, the shapes are the trees
themselves. -/
theorem shapes_of_distinct (distinct : Distinct (us.map (signed source)))
    (retained : ∀ a ∈ preorderAll us, a.isDeleted = false)
    (apart : ∀ u ∈ us, (signed source u).label ∉ placed.map label) :
    shapes source placed us = placed ++ us.map (signed source) := by
  induction us using forest_induction generalizing placed with
  | nil => simp [shapes]
  | cons a vs us below rest =>
    rw [List.map_cons] at distinct
    have labels := distinct.labels
    rw [List.map_cons, List.nodup_cons] at labels
    obtain ⟨root, retained_below, retained_rest⟩ := forall_mem_preorderAll_cons.1 retained
    rw [List.forall_mem_cons] at apart
    have inside : shapes source [] vs = vs.map (signed source) := by
      have children := distinct.children List.mem_cons_self
      rw [signed_node, children_node] at children
      exact (below children retained_below (by simp)).trans (List.nil_append _)
    have shape_eq : shape source (node a vs) = signed source (node a vs) := by
      rw [shape_node, signed_node, inside]
    rw [shapes, if_neg (by simp [root]), shape_eq, Shape.place_of_not_mem apart.1, List.map_cons]
    refine Eq.trans (rest ⟨labels.2, fun u mem => distinct.children (List.mem_cons_of_mem _ mem)⟩
      retained_rest fun u mem => ?_) (by simp)
    rw [List.map_append, List.mem_append, not_or]
    refine ⟨apart.2 u mem, fun same => labels.1 ?_⟩
    rw [← List.mem_singleton.1 same]
    exact List.mem_map_of_mem (List.mem_map_of_mem mem)

/-- A tree whose siblings never share a signature is not shadowed. -/
theorem unshadowed_of_distinct {t : Node κ} (distinct : Distinct (t.children.map (signed source)))
    (retained : ∀ a ∈ t.preorder, a.isDeleted = false) : t.Unshadowed source := by
  cases t with
  | node a us =>
    rw [children_node] at distinct
    rw [preorder_node, List.forall_mem_cons] at retained
    intro path trace
    rwa [shape_node, children_node, shapes_of_distinct distinct retained.2 (by simp)]

theorem distinct_shape (t : Node κ) : Distinct (t.shape source).children := by
  cases t
  rw [shape_node, children_node]
  exact distinct_shapes ⟨by simp, by simp⟩

end Node

section Pruned

variable {κ : Type} {targetSource source : List Char} {target t v : Node κ} {keep : Nat → Bool}

/-- A tree is found in a target when the roots agree and the target's shape has the traces of its
shape. -/
theorem isContained_iff :
    isContained targetSource target source (some v) = true ↔
      (target.shape targetSource).label = (v.shape source).label ∧
        ∀ path, Traces (v.shape source).children path →
          Traces (target.shape targetSource).children path := by
  rw [isContained, mismatch?, Option.bind_some, Option.isNone_iff_eq_none]
  cases shape : v.shape source with
  | node signature ts =>
    rw [Shape.mismatch?, label_node, children_node]
    split
    case isTrue differ => exact iff_of_false (by simp) fun same => differ same.1
    case isFalse same =>
      rw [Shape.mismatchAll?_eq_none_iff target.distinct_shape]
      exact (and_iff_right (not_not.1 same)).symm

/-- A tree is found in itself. -/
theorem isContained_self : isContained source t source (some t) = true :=
  isContained_iff.2 ⟨rfl, fun _ trace => trace⟩

variable [Scalar κ]

/-- Pruning keeps the signature of the root and only traces of the tree. -/
theorem traces_of_pruned (pruned : (t.reconstruct keep).pruned = some v) :
    (v.shape source).label = (t.shape source).label ∧
      ∀ path, Traces (v.shape source).children path →
        Traces (t.children.map (Node.signed source)) path := by
  cases t with
  | node a us =>
    simp only [Node.reconstruct, Node.retainedAt] at pruned
    split at pruned
    case isFalse => simp at pruned
    case isTrue =>
      obtain rfl := Option.some.inj pruned
      rw [Node.shape_node, Node.shape_node]
      refine ⟨rfl, fun path trace => ?_⟩
      rcases Node.traces_of_shapes trace with trace | trace
      · obtain rfl := eq_nil_of_traces_nil trace
        exact traces_nil _
      · exact Node.traces_of_retainedAllAt trace

/-- Some pruning leaves one way down. -/
theorem exists_pruned_trace {path : List String}
    (trace : Traces (t.children.map (Node.signed source)) path) :
    ∃ keep v, (t.reconstruct keep).pruned = some v ∧ Traces (v.shape source).children path := by
  cases t with
  | node a us =>
    obtain ⟨keep, kept⟩ := Node.exists_keep 1 trace
    let rooted (id : Nat) : Bool := id == 0 || keep id
    have below : Node.retainedAllAt rooted 1 us = Node.retainedAllAt keep 1 us := by
      apply Node.retainedAllAt_congr
      intro id low _
      have : id ≠ 0 := by omega
      simp [rooted, this]
    have pruned : (Node.reconstruct rooted (node a us)).pruned
        = some (node (a.marked 0 false) (Node.retainedAllAt rooted (0 + 1) us)) := by
      simp [Node.reconstruct, Node.retainedAt, rooted]
    refine ⟨rooted, _, pruned, ?_⟩
    rwa [Node.shape_node, children_node, Nat.zero_add, below]

/-- Pruning a tree never loses containment, and what is left of it is always found in itself,
exactly when its shape has all its traces. -/
theorem contained_pruned_tfae (source : List Char) (t : Node κ) :
    List.TFAE
      [∀ (targetSource : List Char) (target : Node κ) (keep : Nat → Bool),
        isContained targetSource target source (some t) = true →
          isContained targetSource target source (t.reconstruct keep).pruned = true,
      ∀ keep : Nat → Bool, isContained source t source (t.reconstruct keep).pruned = true,
      t.Unshadowed source] := by
  tfae_have 1 → 2 := fun stays keep => stays source t keep isContained_self
  tfae_have 2 → 3 := by
    intro found path trace
    obtain ⟨keep, v, pruned, kept⟩ := exists_pruned_trace trace
    have := found keep
    rw [pruned] at this
    exact (isContained_iff.1 this).2 path kept
  tfae_have 3 → 1 := by
    intro unshadowed targetSource target keep contained
    obtain ⟨root, traces⟩ := isContained_iff.1 contained
    cases pruned : (t.reconstruct keep).pruned with
    | none => exact isContained_none ..
    | some v =>
      obtain ⟨label, kept⟩ := traces_of_pruned pruned
      exact isContained_iff.2
        ⟨root.trans label.symm, fun path trace => traces path (unshadowed path (kept path trace))⟩
  tfae_finish

end Pruned

/-! ### A shadowed branch -/

section Negations

/-- A construct with one gap. -/
def gapped (kind : Kind) (code : String) (span gap : Span) : Construct Exact :=
  { kind, code, span, gaps := [gap] }

def negationsSource : List Char := "-x, -y".toList

/-- The tree of `-x, -y`, in which the two negations have the same signature. -/
def negations : Node Exact :=
  node (gapped .tuple "-x, -y" ⟨0, 6, by decide⟩ ⟨2, 4, by decide⟩)
    [node (gapped .unaryOp "-x" ⟨0, 2, by decide⟩ ⟨0, 1, by decide⟩)
      [node (gapped .ident "x" ⟨1, 2, by decide⟩ ⟨1, 2, by decide⟩) []],
     node (gapped .unaryOp "-y" ⟨4, 6, by decide⟩ ⟨4, 5, by decide⟩)
      [node (gapped .ident "y" ⟨5, 6, by decide⟩ ⟨5, 6, by decide⟩) []]]

/-- Without its second negation the tree is no longer found in itself. -/
theorem negations_pruned_not_contained :
    negations.preorder.all (fun a => !a.isDeleted) = true ∧
      isContained negationsSource negations negationsSource (some negations) = true ∧
        isContained negationsSource negations negationsSource
          (negations.reconstruct fun id => id < 3).pruned = false := by
  decide +kernel

end Negations

/-! ### Chains of containments -/

section Chains

variable {κ : Type} {source₁ source₂ source₃ : List Char} {t₁ t₂ t₃ : Node κ}

/-- What is found in a tree is found wherever the tree is. -/
theorem isContained_trans (outer : isContained source₁ t₁ source₂ (some t₂) = true)
    (inner : isContained source₂ t₂ source₃ (some t₃) = true) :
    isContained source₁ t₁ source₃ (some t₃) = true := by
  obtain ⟨root, traces⟩ := isContained_iff.1 outer
  obtain ⟨root', traces'⟩ := isContained_iff.1 inner
  exact isContained_iff.2 ⟨root.trans root', fun path trace => traces path (traces' path trace)⟩

/-- Containment is a preorder of trees on their sources, whatever is deleted in them and however
many siblings share a signature. -/
theorem isContained_preorder :
    (∀ (source : List Char) (t : Node κ), isContained source t source (some t) = true) ∧
      ∀ {source₁ source₂ source₃ : List Char} {t₁ t₂ t₃ : Node κ},
        isContained source₁ t₁ source₂ (some t₂) = true →
          isContained source₂ t₂ source₃ (some t₃) = true →
            isContained source₁ t₁ source₃ (some t₃) = true :=
  ⟨fun _ _ => isContained_self, isContained_trans⟩

/-- The tree of `-z, -y` with a deleted node in the place of `z`, under a negation that is not. -/
def negationsOfHole : Node Exact :=
  node (gapped .tuple "-z, -y" ⟨0, 6, by decide⟩ ⟨2, 4, by decide⟩)
    [node (gapped .unaryOp "-z" ⟨0, 2, by decide⟩ ⟨0, 1, by decide⟩)
      [node { gapped .ident "z" ⟨1, 2, by decide⟩ ⟨1, 2, by decide⟩ with deleted := some true } []],
     node (gapped .unaryOp "-y" ⟨4, 6, by decide⟩ ⟨4, 5, by decide⟩)
      [node (gapped .ident "y" ⟨5, 6, by decide⟩ ⟨5, 6, by decide⟩) []]]

/-- The tree of `-,`, where nothing is negated. -/
def negationOfNothing : Node Exact :=
  node (gapped .tuple "-," ⟨0, 2, by decide⟩ ⟨1, 2, by decide⟩)
    [node (gapped .unaryOp "-" ⟨0, 1, by decide⟩ ⟨0, 1, by decide⟩) []]

/-- A tree with a hole lies between a tree without holes and a tree of less. -/
theorem isContained_preorder_negations :
    isContained negationsSource negations "-z, -y".toList (some negationsOfHole) = true ∧
      isContained "-z, -y".toList negationsOfHole "-,".toList (some negationOfNothing) = true ∧
        isContained negationsSource negations "-,".toList (some negationOfNothing) = true := by
  have outer :
      isContained negationsSource negations "-z, -y".toList (some negationsOfHole) = true := by
    decide +kernel
  have inner :
      isContained "-z, -y".toList negationsOfHole "-,".toList (some negationOfNothing) = true := by
    decide +kernel
  exact ⟨outer, inner, isContained_preorder.2 outer inner⟩

end Chains

end SureCode
