import Mathlib
import SureCode.Proofs.Containment.Traces

/-!
# Containment by embeddings

An embedding of a tree in a target maps the nodes that are not deleted to such nodes of the target:
the root to the root, a child to a child of its parent's image, each to a node with its signature.
An embedding takes every trace of the tree to the target (`Embeds.traces`). A tree that is found in
a target need not be embedded in it, since a later sibling hides what stands below an earlier one of
the same signature; being found in a target always shows an embedding exactly for the trees in which
nothing is hidden (`forall_contained_embeds_iff`).
-/

namespace SureCode

open SureCode.Tree

/-- Traces can be looked for. -/
instance Tree.decidableTraces {α : Type} [DecidableEq α] :
    (ts : List (Tree α)) → (path : List α) → Decidable (Traces ts path)
  | _, [] => .isTrue trivial
  | ts, a :: path =>
    have (t : Tree α) : Decidable (t.label = a ∧ Traces t.children path) :=
      have := decidableTraces t.children path
      inferInstance
    List.decidableBEx _ ts

namespace Node

variable {κ : Type} {source targetSource : List Char} {t u w target : Node κ}
  {ts us ws : List (Node κ)} {f : List Nat → List Nat} {i : Nat} {place : List Nat}
  {signature : String} {path : List String}

/-! ### Embeddings -/

/-- The tree at a place, which lists the positions among siblings on the way down, if nothing on the
way is deleted. The root counts even if it is deleted. -/
def survivor? (t : Node κ) : List Nat → Option (Node κ)
  | [] => some t
  | i :: place =>
    (t.children[i]?).bind fun u => if u.label.isDeleted then none else survivor? u place

/-- A map from the places of a tree to those of a target that sends the root to the root, a child to
a child of its parent's image and every node that is not deleted to one with its signature. -/
structure Embeds (source : List Char) (t : Node κ) (targetSource : List Char) (target : Node κ)
    (f : List Nat → List Nat) : Prop where
  root : f [] = []
  child : ∀ {place i}, (t.survivor? (place ++ [i])).isSome → ∃ j, f (place ++ [i]) = f place ++ [j]
  signature : ∀ {place u}, t.survivor? place = some u →
    ∃ w : Node κ, target.survivor? (f place) = some w ∧
      w.label.signature targetSource = u.label.signature source

theorem survivor?_cons_eq_some :
    t.survivor? (i :: place) = some w ↔
      ∃ u : Node κ, t.children[i]? = some u ∧ u.label.isDeleted = false ∧
        u.survivor? place = some w := by
  rw [survivor?, Option.bind_eq_some_iff]
  refine exists_congr fun u => and_congr_right fun _ => ?_
  cases u.label.isDeleted <;> simp

theorem survivor?_append (t : Node κ) (place place' : List Nat) :
    t.survivor? (place ++ place') = (t.survivor? place).bind fun u => survivor? u place' := by
  induction place generalizing t with
  | nil => rfl
  | cons i place ih =>
    rw [List.cons_append, survivor?, survivor?, Option.bind_assoc]
    refine Option.bind_congr fun u _ => ?_
    split
    · rfl
    · exact ih u

theorem isSome_survivor?_of_append {place' : List Nat}
    (survives : (t.survivor? (place ++ place')).isSome) : (t.survivor? place).isSome := by
  rw [survivor?_append] at survives
  exact Option.isSome_of_isSome_bind survives

/-- Embeddings of the children in children of a target make up one of the whole tree. -/
theorem exists_embeds_of_children
    (same : target.label.signature targetSource = t.label.signature source)
    (children : ∀ (i : Nat) (u : Node κ), t.children[i]? = some u → u.label.isDeleted = false →
      ∃ (j : Nat) (w : Node κ), target.children[j]? = some w ∧ w.label.isDeleted = false ∧
        ∃ f, Embeds source u targetSource w f) :
    ∃ f, Embeds source t targetSource target f := by
  have images (i : Nat) : ∃ (j : Nat) (f : List Nat → List Nat),
      ∀ u : Node κ, t.children[i]? = some u → u.label.isDeleted = false →
        ∃ w : Node κ, target.children[j]? = some w ∧ w.label.isDeleted = false ∧
          Embeds source u targetSource w f := by
    by_cases survives : ∃ u, t.children[i]? = some u ∧ u.label.isDeleted = false
    · obtain ⟨u, at_child, alive⟩ := survives
      obtain ⟨j, w, at_image, alive_image, f, embeds⟩ := children i u at_child alive
      refine ⟨j, f, fun u' at_child' _ => ⟨w, at_image, alive_image, ?_⟩⟩
      rwa [← Option.some.inj (at_child.symm.trans at_child')]
    · exact ⟨0, id, fun u at_child alive => absurd ⟨u, at_child, alive⟩ survives⟩
  choose position below spec using images
  let map : List Nat → List Nat
    | [] => []
    | i :: place => position i :: below i place
  refine ⟨map, rfl, fun {place i} survives => ?_, fun {place u} survives => ?_⟩
  · cases place with
    | nil =>
      obtain ⟨u, survives⟩ := Option.isSome_iff_exists.1 survives
      obtain ⟨v, at_child, alive, -⟩ := survivor?_cons_eq_some.1 survives
      obtain ⟨w, -, -, embeds⟩ := spec i v at_child alive
      exact ⟨position i, congrArg (fun image => position i :: image) embeds.root⟩
    | cons k place =>
      obtain ⟨u, survives⟩ := Option.isSome_iff_exists.1 survives
      obtain ⟨v, at_child, alive, survives⟩ := survivor?_cons_eq_some.1 survives
      obtain ⟨w, -, -, embeds⟩ := spec k v at_child alive
      obtain ⟨j, eq⟩ := embeds.child (Option.isSome_iff_exists.2 ⟨u, survives⟩)
      exact ⟨j, congrArg (fun image => position k :: image) eq⟩
  · cases place with
    | nil =>
      obtain rfl := Option.some.inj survives
      exact ⟨target, rfl, same⟩
    | cons k place =>
      obtain ⟨v, at_child, alive, survives⟩ := survivor?_cons_eq_some.1 survives
      obtain ⟨w, at_image, alive_image, embeds⟩ := spec k v at_child alive
      obtain ⟨x, at_place, same⟩ := embeds.signature survives
      exact ⟨x, survivor?_cons_eq_some.2 ⟨w, at_image, alive_image, at_place⟩, same⟩

/-- An embedding maps everything below a child below the image of the child. -/
theorem Embeds.exists_child (embeds : Embeds source t targetSource target f)
    (at_child : t.children[i]? = some u) (alive : u.label.isDeleted = false) :
    ∃ (j : Nat) (w : Node κ), target.children[j]? = some w ∧ w.label.isDeleted = false ∧
      w.label.signature targetSource = u.label.signature source ∧
        Embeds source u targetSource w fun place => (f (i :: place)).tail := by
  have below {place : List Nat} : t.survivor? (i :: place) = u.survivor? place := by
    simp [survivor?, at_child, alive]
  obtain ⟨j, image⟩ : ∃ j, f [i] = [j] := by
    have first : ∃ j, f ([] ++ [i]) = f [] ++ [j] :=
      embeds.child (by rw [List.nil_append, below]; rfl)
    rwa [embeds.root] at first
  -- every image below begins with the position of the child's image
  have inside {place : List Nat} (survives : (u.survivor? place).isSome) :
      f (i :: place) = j :: (f (i :: place)).tail := by
    induction place using List.reverseRecOn with
    | nil => rw [image, List.tail_cons]
    | append_singleton place k ih =>
      obtain ⟨l, eq⟩ : ∃ l, f (i :: place ++ [k]) = f (i :: place) ++ [l] :=
        embeds.child (by rwa [List.cons_append, below])
      rw [← List.cons_append, eq, ih (isSome_survivor?_of_append survives)]
      rfl
  have lifted {place : List Nat} {x : Node κ} (survives : u.survivor? place = some x) :
      ∃ w : Node κ, target.children[j]? = some w ∧ w.label.isDeleted = false ∧
        ∃ y : Node κ, w.survivor? (f (i :: place)).tail = some y ∧
          y.label.signature targetSource = x.label.signature source := by
    obtain ⟨y, at_image, same⟩ := embeds.signature (below.trans survives)
    rw [inside (Option.isSome_iff_exists.2 ⟨x, survives⟩)] at at_image
    obtain ⟨w, at_child, alive, at_image⟩ := survivor?_cons_eq_some.1 at_image
    exact ⟨w, at_child, alive, y, at_image, same⟩
  obtain ⟨w, at_image, alive_image, y, at_root, same⟩ := lifted (show u.survivor? [] = some u from rfl)
  rw [image] at at_root
  obtain rfl := Option.some.inj at_root
  refine ⟨j, w, at_image, alive_image, same, ⟨by rw [image, List.tail_cons], ?_, ?_⟩⟩
  · intro place k survives
    obtain ⟨l, eq⟩ : ∃ l, f (i :: place ++ [k]) = f (i :: place) ++ [l] :=
      embeds.child (by rwa [List.cons_append, below])
    refine ⟨l, ?_⟩
    rw [← List.cons_append, eq, inside (isSome_survivor?_of_append survives)]
    rfl
  · intro place x survives
    obtain ⟨w', at_child', -, below_image⟩ := lifted survives
    rwa [Option.some.inj (at_image.symm.trans at_child')]

/-! ### Survivors -/

mutual

/-- A tree without what is deleted below its root. -/
def survivors : Node κ → Node κ
  | node a ts => node a (survivorsAll ts)

/-- The sibling trees that are not deleted, without what is deleted in them. -/
def survivorsAll : List (Node κ) → List (Node κ)
  | [] => []
  | t :: ts => if t.label.isDeleted then survivorsAll ts else survivors t :: survivorsAll ts

end

theorem survivors_eq (t : Node κ) : t.survivors = node t.label (survivorsAll t.children) := by
  cases t
  rw [survivors, label_node, children_node]

theorem mem_survivorsAll :
    u ∈ survivorsAll ts ↔ ∃ t ∈ ts, t.label.isDeleted = false ∧ u = t.survivors := by
  induction ts with
  | nil => simp [survivorsAll]
  | cons t ts ih =>
    rw [survivorsAll, List.exists_mem_cons_iff, ← ih]
    cases t.label.isDeleted <;> simp

/-- What is deleted leaves nothing in a shape. -/
theorem shapes_survivorsAll (placed : List Shape) :
    shapes source placed (survivorsAll us) = shapes source placed us := by
  induction us using forest_induction generalizing placed with
  | nil => rw [survivorsAll]
  | cons a vs us below rest =>
    rw [survivorsAll, survivors, label_node, shapes, label_node]
    split
    · exact rest placed
    · rename_i alive
      rw [shapes, label_node, if_neg alive, rest, shape_node, shape_node, below]

theorem shape_survivors (t : Node κ) : t.survivors.shape source = t.shape source := by
  cases t
  rw [survivors, shape_node, shape_node, shapes_survivorsAll]

theorem label_signed (t : Node κ) : (signed source t).label = t.label.signature source := by
  cases t
  rw [signed_node, label_node, label_node]

theorem children_signed (t : Node κ) :
    (signed source t).children = t.children.map (signed source) := by
  cases t
  rw [signed_node, children_node, children_node]

theorem traces_survivorsAll_cons :
    Traces ((survivorsAll ts).map (signed source)) (signature :: path) ↔
      ∃ t ∈ ts, t.label.isDeleted = false ∧ t.label.signature source = signature ∧
        Traces ((survivorsAll t.children).map (signed source)) path := by
  constructor
  · rintro ⟨s, mem_signed, rfl, trace⟩
    obtain ⟨u, mem_survivors, rfl⟩ := List.mem_map.1 mem_signed
    obtain ⟨t, mem, alive, rfl⟩ := mem_survivorsAll.1 mem_survivors
    rw [children_signed, survivors_eq, children_node] at trace
    exact ⟨t, mem, alive, by rw [label_signed, survivors_eq, label_node], trace⟩
  · rintro ⟨t, mem, alive, rfl, trace⟩
    refine ⟨signed source t.survivors,
      List.mem_map_of_mem (mem_survivorsAll.2 ⟨t, mem, alive, rfl⟩), ?_, ?_⟩
    · rw [label_signed, survivors_eq, label_node]
    · rwa [children_signed, survivors_eq, children_node]

/-- What is deleted has only traces of its own. -/
theorem traces_of_survivorsAll (trace : Traces ((survivorsAll ts).map (signed source)) path) :
    Traces (ts.map (signed source)) path := by
  induction path generalizing ts with
  | nil => exact traces_nil _
  | cons signature path ih =>
    obtain ⟨t, mem, -, rfl, below⟩ := traces_survivorsAll_cons.1 trace
    refine ⟨signed source t, List.mem_map_of_mem mem, label_signed t, ?_⟩
    rw [children_signed]
    exact ih below

/-- An embedding takes the traces of what is not deleted to the target. -/
theorem Embeds.traces (embeds : Embeds source t targetSource target f)
    (trace : Traces ((survivorsAll t.children).map (signed source)) path) :
    Traces ((survivorsAll target.children).map (signed targetSource)) path := by
  induction path generalizing t target f with
  | nil => exact traces_nil _
  | cons signature path ih =>
    obtain ⟨u, mem, alive, rfl, below⟩ := traces_survivorsAll_cons.1 trace
    obtain ⟨i, at_child⟩ := List.getElem?_of_mem mem
    obtain ⟨j, w, at_image, alive_image, same, embeds_child⟩ := embeds.exists_child at_child alive
    exact traces_survivorsAll_cons.2
      ⟨w, List.mem_of_getElem? at_image, alive_image, same, ih embeds_child below⟩

/-! ### What a shape shows -/

/-- A tree stands for its signature among siblings: it is not deleted, and nor is any later one with
its signature. -/
def Stands (source : List Char) (ts : List (Node κ)) (t : Node κ) : Prop :=
  ∃ before after, ts = before ++ t :: after ∧ t.label.isDeleted = false ∧
    ∀ u ∈ after, u.label.isDeleted = false → u.label.signature source ≠ t.label.signature source

theorem Stands.mem (stands : Stands source ts t) : t ∈ ts := by
  obtain ⟨before, after, rfl, -⟩ := stands
  simp

theorem Stands.alive (stands : Stands source ts t) : t.label.isDeleted = false := by
  obtain ⟨-, -, -, alive, -⟩ := stands
  exact alive

theorem not_stands_nil : ¬ Stands source [] t := by
  rintro ⟨before, after, eq, -⟩
  simp at eq

theorem stands_cons :
    Stands source (u :: ts) t ↔
      (t = u ∧ u.label.isDeleted = false ∧ ∀ w ∈ ts, w.label.isDeleted = false →
        w.label.signature source ≠ u.label.signature source) ∨ Stands source ts t := by
  constructor
  · rintro ⟨before, after, eq, alive, last⟩
    cases before with
    | nil =>
      obtain ⟨rfl, rfl⟩ := List.cons.inj eq
      exact .inl ⟨rfl, alive, last⟩
    | cons w before =>
      obtain ⟨rfl, rfl⟩ := List.cons.inj eq
      exact .inr ⟨before, after, rfl, alive, last⟩
  · rintro (⟨rfl, alive, last⟩ | ⟨before, after, rfl, alive, last⟩)
    · exact ⟨[], ts, rfl, alive, last⟩
    · exact ⟨u :: before, after, rfl, alive, last⟩

theorem label_shape (t : Node κ) : (t.shape source).label = t.label.signature source := by
  cases t
  rw [shape_node, label_node, label_node]

theorem children_shape (t : Node κ) :
    (t.shape source).children = shapes source [] t.children := by
  cases t
  rw [shape_node, children_node, children_node]

theorem mem_place_iff {s c : Shape} {placed : List Shape} (labels : (placed.map label).Nodup) :
    c ∈ s.place placed ↔ c = s ∨ c ∈ placed ∧ c.label ≠ s.label := by
  induction placed with
  | nil => simp [Shape.place]
  | cons d placed ih =>
    rw [List.map_cons, List.nodup_cons] at labels
    rw [Shape.place]
    split
    case isTrue same =>
      have apart : c ∈ placed → c.label ≠ s.label := fun mem eq =>
        labels.1 (same ▸ eq ▸ List.mem_map_of_mem mem)
      rw [List.mem_cons, List.mem_cons]
      constructor
      · exact Or.imp_right fun mem => ⟨.inr mem, apart mem⟩
      · rintro (rfl | ⟨rfl | mem, differ⟩)
        · exact .inl rfl
        · exact absurd same differ
        · exact .inr mem
    case isFalse differ =>
      rw [List.mem_cons, ih labels.2, List.mem_cons]
      constructor
      · rintro (rfl | rfl | ⟨mem, apart⟩)
        · exact .inr ⟨.inl rfl, differ⟩
        · exact .inl rfl
        · exact .inr ⟨.inr mem, apart⟩
      · rintro (rfl | ⟨rfl | mem, apart⟩)
        · exact .inr (.inl rfl)
        · exact .inl rfl
        · exact .inr (.inr ⟨mem, apart⟩)

/-- A shape shows the trees that stand for their signatures. -/
theorem mem_shapes {c : Shape} {placed : List Shape} (distinct : Distinct placed) :
    c ∈ shapes source placed ts ↔
      (∃ t, Stands source ts t ∧ c = t.shape source) ∨
        c ∈ placed ∧ ∀ t ∈ ts, t.label.isDeleted = false → t.label.signature source ≠ c.label := by
  induction ts generalizing placed with
  | nil => simp [shapes, not_stands_nil]
  | cons u ts ih =>
    rw [shapes]
    split
    case isTrue deleted =>
      rw [ih distinct, List.forall_mem_cons]
      simp [stands_cons, deleted]
    case isFalse alive =>
      rw [Bool.not_eq_true] at alive
      have placed_distinct : Distinct ((u.shape source).place placed) :=
        Shape.distinct_place distinct u.distinct_shape
      rw [ih placed_distinct, mem_place_iff distinct.labels, label_shape, List.forall_mem_cons]
      constructor
      · rintro (⟨t, stands, rfl⟩ | ⟨rfl | ⟨mem, apart⟩, last⟩)
        · exact .inl ⟨t, stands_cons.2 (.inr stands), rfl⟩
        · rw [label_shape] at last
          exact .inl ⟨u, stands_cons.2 (.inl ⟨rfl, alive, last⟩), rfl⟩
        · exact .inr ⟨mem, fun _ => Ne.symm apart, last⟩
      · rintro (⟨t, stands, rfl⟩ | ⟨mem, apart, last⟩)
        · rcases stands_cons.1 stands with ⟨rfl, -, last⟩ | stands
          · exact .inr ⟨.inl rfl, by rwa [label_shape]⟩
          · exact .inl ⟨t, stands, rfl⟩
        · exact .inr ⟨.inr ⟨mem, (apart alive).symm⟩, last⟩

theorem distinct_nil : Distinct ([] : List Shape) := ⟨by simp, by simp⟩

theorem mem_shapes_nil {c : Shape} :
    c ∈ shapes source [] ts ↔ ∃ t, Stands source ts t ∧ c = t.shape source := by
  simp [mem_shapes distinct_nil]

/-- A tree whose survivors have only traces of a target's shape is embedded in the target. -/
theorem exists_embeds
    (same : target.label.signature targetSource = t.label.signature source)
    (traces : ∀ path, Traces ((survivorsAll t.children).map (signed source)) path →
      Traces (shapes targetSource [] target.children) path) :
    ∃ f, Embeds source t targetSource target f := by
  refine exists_embeds_of_children same ?_
  revert traces
  generalize t.children = us
  generalize target.children = ws
  induction us using forest_induction generalizing ws with
  | nil => simp
  | cons a vs us below rest =>
    intro traces i u at_child alive
    have cons_iff (path : List String) :
        Traces ((survivorsAll (node a vs :: us)).map (signed source)) path ↔
          (a.isDeleted = false ∧ Traces [signed source (survivors (node a vs))] path) ∨
            Traces ((survivorsAll us).map (signed source)) path := by
      rw [survivorsAll, label_node]
      cases a.isDeleted with
      | true => simp
      | false => simpa using traces_cons
    cases i with
    | succ i =>
      refine rest ws (fun path trace => ?_) i u at_child alive
      exact traces path ((cons_iff path).2 (.inr trace))
    | zero =>
      obtain rfl := Option.some.inj at_child
      rw [label_node] at alive
      have first (path : List String)
          (trace : Traces ((survivorsAll vs).map (signed source)) path) :
          Traces (shapes targetSource [] ws) (a.signature source :: path) := by
        refine traces _ ((cons_iff _).2 (.inl ⟨alive, ?_⟩))
        rwa [survivors, signed_node, traces_node]
      obtain ⟨c, mem, label_eq, -⟩ := first [] (traces_nil _)
      obtain ⟨w, stands, rfl⟩ := mem_shapes_nil.1 mem
      obtain ⟨j, at_image⟩ := List.getElem?_of_mem stands.mem
      rw [label_shape] at label_eq
      refine ⟨j, w, at_image, stands.alive, exists_embeds_of_children label_eq ?_⟩
      refine below w.children fun path trace => ?_
      -- siblings of a shape are distinct, so the way down leads through the same child
      obtain ⟨d, mem', label_eq', trace⟩ := first path trace
      have : d = w.shape targetSource := (distinct_shapes distinct_nil).eq mem' mem
        (by rw [label_eq', label_shape, label_eq])
      rwa [this, children_shape] at trace

mutual

/-- A tree without what its shape does not show. -/
def shown (source : List Char) : Node κ → Node κ
  | node a ts => node a (shownAll source ts)

/-- The sibling trees that stand for their signatures, without what their shapes do not show. -/
def shownAll (source : List Char) : List (Node κ) → List (Node κ)
  | [] => []
  | t :: ts =>
    if t.label.isDeleted || ts.any fun u =>
        !u.label.isDeleted && u.label.signature source == t.label.signature source then
      shownAll source ts
    else shown source t :: shownAll source ts

end

theorem shown_eq (t : Node κ) : t.shown source = node t.label (shownAll source t.children) := by
  cases t
  rw [shown, label_node, children_node]

/-- The first of some trees is shown when it is retained and no later one has its signature. -/
theorem shownAll_cons_cases (source : List Char) (t : Node κ) (ts : List (Node κ)) :
    (t.label.isDeleted = false ∧ ∀ u ∈ ts, u.label.isDeleted = false →
        u.label.signature source ≠ t.label.signature source) ∧
      shownAll source (t :: ts) = t.shown source :: shownAll source ts ∨
    ¬ (t.label.isDeleted = false ∧ ∀ u ∈ ts, u.label.isDeleted = false →
        u.label.signature source ≠ t.label.signature source) ∧
      shownAll source (t :: ts) = shownAll source ts := by
  rw [shownAll]
  split
  case isTrue hidden => exact .inr ⟨fun here => absurd hidden (by simpa using here), rfl⟩
  case isFalse here => exact .inl ⟨by simpa using here, rfl⟩

theorem mem_shownAll : u ∈ shownAll source ts ↔ ∃ t, Stands source ts t ∧ u = t.shown source := by
  induction ts with
  | nil => simp [shownAll, not_stands_nil]
  | cons t ts ih =>
    rcases shownAll_cons_cases source t ts with ⟨here, eq⟩ | ⟨hidden, eq⟩
    · rw [eq, List.mem_cons, ih]
      constructor
      · rintro (rfl | ⟨w, stands, rfl⟩)
        · exact ⟨t, stands_cons.2 (.inl ⟨rfl, here⟩), rfl⟩
        · exact ⟨w, stands_cons.2 (.inr stands), rfl⟩
      · rintro ⟨w, stands, rfl⟩
        rcases stands_cons.1 stands with ⟨rfl, -⟩ | stands
        · exact .inl rfl
        · exact .inr ⟨w, stands, rfl⟩
    · rw [eq, ih]
      refine exists_congr fun w => and_congr_left fun _ => ?_
      rw [stands_cons]
      exact (or_iff_right fun ⟨_, here⟩ => hidden here).symm

/-- What a shape shows has the traces of the shape. -/
theorem traces_shownAll :
    Traces ((shownAll source ts).map (signed source)) path ↔
      Traces (shapes source [] ts) path := by
  induction path generalizing ts with
  | nil => exact iff_of_true (traces_nil _) (traces_nil _)
  | cons signature path ih =>
    constructor
    · rintro ⟨s, mem_signed, rfl, trace⟩
      obtain ⟨u, mem_shown, rfl⟩ := List.mem_map.1 mem_signed
      obtain ⟨t, stands, rfl⟩ := mem_shownAll.1 mem_shown
      refine ⟨t.shape source, mem_shapes_nil.2 ⟨t, stands, rfl⟩, ?_, ?_⟩
      · rw [label_shape, label_signed, shown_eq, label_node]
      · rwa [children_signed, shown_eq, children_node, ih, ← children_shape] at trace
    · rintro ⟨s, mem, rfl, trace⟩
      obtain ⟨t, stands, rfl⟩ := mem_shapes_nil.1 mem
      refine ⟨signed source (t.shown source),
        List.mem_map_of_mem (mem_shownAll.2 ⟨t, stands, rfl⟩), ?_, ?_⟩
      · rw [label_shape, label_signed, shown_eq, label_node]
      · rwa [children_signed, shown_eq, children_node, ih, ← children_shape]

theorem distinct_shownAll (source : List Char) (us : List (Node κ)) :
    Distinct ((shownAll source us).map (signed source)) := by
  induction us using forest_induction with
  | nil => exact ⟨by simp [shownAll], by simp [shownAll]⟩
  | cons a vs us below rest =>
    rcases shownAll_cons_cases source (node a vs) us with ⟨here, eq⟩ | ⟨-, eq⟩
    · rw [label_node] at here
      rw [eq, List.map_cons, shown, signed_node]
      constructor
      · rw [List.map_cons, List.nodup_cons, label_node]
        refine ⟨fun mem => ?_, rest.labels⟩
        obtain ⟨s, mem_signed, label_eq⟩ := List.mem_map.1 mem
        obtain ⟨u, mem_shown, rfl⟩ := List.mem_map.1 mem_signed
        obtain ⟨t, stands, rfl⟩ := mem_shownAll.1 mem_shown
        rw [label_signed, shown_eq, label_node] at label_eq
        exact here.2 t stands.mem stands.alive label_eq
      · rw [List.forall_mem_cons, children_node]
        exact ⟨below, fun s mem => rest.children mem⟩
    · rw [eq]
      exact rest

theorem isDeleted_shownAll (source : List Char) (us : List (Node κ)) :
    ∀ a ∈ preorderAll (shownAll source us), a.isDeleted = false := by
  induction us using forest_induction with
  | nil => simp [shownAll, preorderAll]
  | cons a vs us below rest =>
    rcases shownAll_cons_cases source (node a vs) us with ⟨here, eq⟩ | ⟨-, eq⟩
    · rw [label_node] at here
      rw [eq, shown]
      exact forall_mem_preorderAll_cons.2 ⟨here.1, below, rest⟩
    · rw [eq]
      exact rest

/-- What a shape shows is its own shape. -/
theorem shapes_shownAll (source : List Char) (us : List (Node κ)) :
    shapes source [] (shownAll source us) = (shownAll source us).map (signed source) := by
  have : shapes source [] (shownAll source us) = [] ++ (shownAll source us).map (signed source) :=
    shapes_of_distinct (distinct_shownAll source us) (isDeleted_shownAll source us) (by simp)
  rwa [List.nil_append] at this

end Node

/-! ### Passing checks -/

section Soundness

variable {κ : Type} {source targetSource : List Char} {t target : Node κ}

/-- A tree is found in what its shape shows of it. -/
theorem isContained_shown : isContained source (t.shown source) source (some t) = true := by
  rw [isContained_iff, Node.label_shape, Node.label_shape, Node.children_shape, Node.children_shape,
    Node.shown_eq, label_node, children_node, Node.shapes_shownAll]
  exact ⟨rfl, fun path trace => Node.traces_shownAll.2 trace⟩

/-- A tree is embedded in every target that it is found in exactly when its shape has all traces of
what is not deleted in it. -/
theorem forall_contained_embeds_iff (source : List Char) (t : Node κ) :
    (∀ (targetSource : List Char) (target : Node κ),
        isContained targetSource target source (some t) = true →
          ∃ f, Node.Embeds source t targetSource target f) ↔
      t.survivors.Unshadowed source := by
  have survivors (path : List String) :
      Traces (t.survivors.children.map (Node.signed source)) path ↔
        Traces ((Node.survivorsAll t.children).map (Node.signed source)) path := by
    rw [Node.survivors_eq, children_node]
  constructor
  · intro sound path trace
    obtain ⟨f, embeds⟩ := sound source (t.shown source) isContained_shown
    have shown := Node.traces_of_survivorsAll (embeds.traces ((survivors path).1 trace))
    rw [Node.shown_eq, children_node, Node.traces_shownAll] at shown
    rwa [Node.shape_survivors, Node.children_shape]
  · intro unshadowed targetSource target contained
    obtain ⟨root, traces⟩ := isContained_iff.1 contained
    rw [Node.label_shape, Node.label_shape] at root
    refine Node.exists_embeds root fun path trace => ?_
    have shape := unshadowed path ((survivors path).2 trace)
    rw [Node.shape_survivors] at shape
    rw [← Node.children_shape]
    exact traces path shape

end Soundness

/-! ### A hidden branch -/

section Negations

def otherNegationsSource : List Char := "-z, -y".toList

/-- The span between two offsets. -/
def spanning (a b : Nat) : Span := (Span.empty a).cover (.empty b)

/-- The tree of `-z, -y`, which differs from that of `-x, -y` below the first negation. -/
def otherNegations : Node Exact :=
  node (gapped .tuple "-z, -y" (spanning 0 6) (spanning 2 4))
    [node (gapped .unaryOp "-z" (spanning 0 2) (spanning 0 1))
      [node (gapped .ident "z" (spanning 1 2) (spanning 1 2)) []],
     node (gapped .unaryOp "-y" (spanning 4 6) (spanning 4 5))
      [node (gapped .ident "y" (spanning 5 6) (spanning 5 6)) []]]

/-- The tree of `-x, -y` is found in that of `-z, -y`, and no node of that can be the image of `x`.
-/
theorem negations_contained_not_embedded :
    isContained otherNegationsSource otherNegations negationsSource (some negations) = true ∧
      ¬ ∃ f, Node.Embeds negationsSource negations otherNegationsSource otherNegations f := by
  refine ⟨by decide +kernel, ?_⟩
  rintro ⟨f, embeds⟩
  have trace : Traces ((Node.survivorsAll negations.children).map (Node.signed negationsSource))
      ["-", "x"] := by
    decide +kernel
  have image := embeds.traces trace
  revert image
  decide +kernel

end Negations

end SureCode
