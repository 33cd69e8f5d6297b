import Mathlib
import SureCode.Proofs.Pruning.Engines

/-!
# Steps of the greedy engine

A run for a threshold goes from state to state. In a state it may be offered a candidate
(`State.Offers`), and removing that leads to the next state (`Removal.Step`). Every state reached is
consistent and stays within the hole budget (`Reached.consistent`), so its holes are the maximal
subtrees of which nothing is left, and what is offered can be removed without any count falling
below zero (`Reached.safe`). A run ends in a state reached that offers nothing
(`Node.exists_reached`), which gives the answer its properties (`pruneGreedy_sound`).
-/

namespace SureCode

open SureCode.Tree Exact

/-! ### Maximal dropped subtrees -/

namespace Node

section Dropped

variable {κ : Type} {t : Node κ} {keep : Nat → Bool} {id : Nat}

/-- Whether nothing of the subtree at a node is kept. -/
def dropsSubtree (t : Node κ) (keep : Nat → Bool) (id : Nat) : Bool :=
  ((TreeIndex.ofTree t).subtree id).all fun i => !keep i

/-- The roots of the maximal subtrees of which nothing is kept. -/
def droppedSubtrees (t : Node κ) (keep : Nat → Bool) : List Nat :=
  (List.range t.size).filter fun id =>
    t.dropsSubtree keep id && !((TreeIndex.ofTree t).parent? id).any (t.dropsSubtree keep)

/-- A closed selection drops the whole subtree of what it drops. -/
theorem dropsSubtree_eq (closed : ClosedOn keep (numbered [] 0 [t])) (lt : id < t.size) :
    t.dropsSubtree keep id = !keep id := by
  have inside : id < sizeAll [t] := by rwa [sizeAll_singleton]
  cases keeps : keep id with
  | true =>
    have mem : id ∈ (TreeIndex.ofTree t).subtree id := by
      rw [ofTree_eq_ofForest, TreeIndex.mem_subtree_iff, ← TreeIndex.mem_path_iff inside]
      exact TreeIndex.mem_path_self id
    rw [dropsSubtree, Bool.not_true, List.all_eq_false]
    exact ⟨id, mem, by simp [keeps]⟩
  | false =>
    rw [dropsSubtree, Bool.not_false, List.all_eq_true]
    intro i mem
    rw [ofTree_eq_ofForest] at mem
    have lt_i := TreeIndex.lt_of_mem_subtree inside mem
    rw [TreeIndex.mem_subtree_iff, ← TreeIndex.mem_path_iff lt_i] at mem
    by_contra kept
    have := closedOn_iff_path.1 closed i lt_i (by simpa using kept) id mem
    rw [keeps] at this
    exact Bool.false_ne_true this

/-- The maximal dropped subtrees of a closed selection are its holes. -/
theorem length_droppedSubtrees (closed : ClosedOn keep (numbered [] 0 [t])) :
    (t.droppedSubtrees keep).length = holesOn keep (numbered [] 0 [t]) := by
  rw [holesOn_eq_countP, droppedSubtrees, ← List.countP_eq_length_filter]
  apply List.countP_congr
  intro id mem
  rw [dropsSubtree_eq closed (List.mem_range.1 mem)]
  cases parent : (TreeIndex.ofTree t).parent? id with
  | none => simp
  | some above =>
    have lt := TreeIndex.parent?_lt parent
    simp [dropsSubtree_eq closed (lt.1.trans lt.2)]

end Dropped

end Node

/-! ### Steps -/

namespace Removal

open Node

variable {κ : Type} [Scalar κ]

/-- A state in which the cost does not fit yet offers the next candidate, with what is left in the
queues behind it. -/
structure State.Offers (maxHoles : HoleBudget) (maxCost : κ) (s : State κ) (a : Candidate κ)
    (rest : State κ) : Prop where
  unfit : fits maxCost s.retained = false
  next : s.next (onlyExtending maxHoles s) = some (a, rest)

/-- What is offered is removed. -/
def Step (r : Removal κ) (maxHoles : HoleBudget) (maxCost : κ) (s s' : State κ) : Prop :=
  ∃ a rest, s.Offers maxHoles maxCost a rest ∧ r.remove rest a = .ok s'

/-- The states that a run for a threshold goes through. -/
def Reached (r : Removal κ) (maxHoles : HoleBudget) (maxCost : κ) (s : State κ) : Prop :=
  Relation.ReflTransGen (r.Step maxHoles maxCost) r.start s

section Steps

variable {t : Node κ} {s rest s' : State κ} {a : Candidate κ} {maxHoles : HoleBudget}
  {maxCost : κ} {steps : Nat}

/-- One step keeps a state consistent and within the hole budget. -/
theorem State.Offers.remove (offers : s.Offers maxHoles maxCost a rest) (consistent : Consistent t s)
    (allows : maxHoles.Allows s.holes) (ok : (ofNode t).remove rest a = .ok s') :
    Consistent t s' ∧ maxHoles.Allows s'.holes ∧ s'.kept = without s.kept a.id := by
  obtain ⟨-, bears, next, ok', consistent', kept, holes⟩ := consistent.remove offers.next
  obtain rfl : next = s' := Except.ok.inj (ok'.symm.trans ok)
  have bears (extending : onlyExtending maxHoles s = true) :
      ((TreeIndex.ofTree t).children a.id).length ≠ 0 := by
    simpa using bears extending
  exact ⟨consistent', allows_remove allows bears holes, kept⟩

theorem Reached.consistent (reached : Reached (ofNode t) maxHoles maxCost s) :
    Consistent t s ∧ maxHoles.Allows s.holes := by
  induction reached with
  | refl => exact ⟨consistent_start t, fun _ _ => Nat.zero_le _⟩
  | tail _ step ih =>
    obtain ⟨a, rest, offers, ok⟩ := step
    obtain ⟨consistent, allows, -⟩ := offers.remove ih.1 ih.2 ok
    exact ⟨consistent, allows⟩

theorem Reached.holes (reached : Reached (ofNode t) maxHoles maxCost s) :
    s.holes = (t.droppedSubtrees s.kept).length := by
  have consistent := reached.consistent.1
  rw [length_droppedSubtrees consistent.closed]
  exact consistent.holes

/-- Removing what is offered subtracts no more than there is, neither from the holes nor from the
children that are left of the parent. -/
theorem Reached.safe (reached : Reached (ofNode t) maxHoles maxCost s)
    (offers : s.Offers maxHoles maxCost a rest) :
    ((TreeIndex.ofTree t).children a.id).length ≤ s.holes + 1 ∧
      (∃ above left, (TreeIndex.ofTree t).parent? a.id = some above ∧
        s.liveChildren.get? above = some (left + 1)) ∧
      ∃ s', (ofNode t).remove rest a = .ok s' := by
  have consistent := reached.consistent.1
  obtain ⟨removable, -, s', ok, -, -, holes⟩ := consistent.remove offers.next
  obtain ⟨above, parent⟩ := TreeIndex.exists_parent? removable.inside removable.inner
  -- the candidate itself is a child that is left
  have pos : 0 < ((TreeIndex.ofTree t).children above).countP s.kept :=
    List.countP_pos_iff.2 ⟨a.id, TreeIndex.mem_children_ofTree.2 parent, removable.kept⟩
  obtain ⟨left, eq⟩ := Nat.exists_eq_succ_of_ne_zero pos.ne'
  have lt := TreeIndex.parent?_lt parent
  have live := consistent.live above (lt.1.trans lt.2)
  rw [eq] at live
  exact ⟨by omega, ⟨above, left, parent, live⟩, s', ok⟩

/-- A run that goes on from a state reached ends in one. -/
theorem Reached.descend (reached : Reached (ofNode t) maxHoles maxCost s)
    (run : (ofNode t).descend maxHoles maxCost steps s = .ok s') :
    Reached (ofNode t) maxHoles maxCost s' := by
  induction steps generalizing s with
  | zero =>
    obtain rfl : s = s' := Except.ok.inj run
    exact reached
  | succ steps ih =>
    rw [descend_succ] at run
    split at run
    case isTrue =>
      obtain rfl : s = s' := Except.ok.inj run
      exact reached
    case isFalse unfit =>
      rw [Bool.not_eq_true] at unfit
      cases next : s.next (onlyExtending maxHoles s) with
      | none =>
        rw [next] at run
        obtain rfl : s = s' := Except.ok.inj run
        exact reached
      | some pair =>
        obtain ⟨a, rest⟩ := pair
        have offers : s.Offers maxHoles maxCost a rest := ⟨unfit, next⟩
        obtain ⟨-, -, after, ok⟩ := reached.safe offers
        simp only [next, ok, Except.bind] at run
        exact ih (reached.tail ⟨a, rest, offers, ok⟩) run

end Steps

end Removal

/-! ### Answers -/

namespace Node

section Answers

variable {κ : Type} [Scalar κ] {t : Node κ} {maxHoles : HoleBudget} {maxCost : κ}

/-- Greedy pruning answers with what is left in a state reached that offers nothing. -/
theorem exists_reached (t : Node κ) (maxHoles : HoleBudget)
    (number : Scalar.isNaN maxCost = false) :
    ∃ s, Removal.Reached (Removal.ofNode t) maxHoles maxCost s ∧
      (∀ a rest, ¬ s.Offers maxHoles maxCost a rest) ∧
      t.pruneGreedy maxHoles maxCost = .ok ((t.reconstruct s.kept).toPruning maxCost
        (if fits maxCost s.retained then .sat else .unsat)) := by
  obtain ⟨s, run, -, -, ended, answer⟩ := t.exists_greedy_run maxHoles number
  refine ⟨s, Removal.Reached.descend .refl run, fun a rest offers => ?_, answer⟩
  obtain fit | next := ended
  · rw [offers.unfit] at fit
    exact Bool.false_ne_true fit
  · rw [offers.next] at next
    exact Option.some_ne_none _ next

/-- What a greedy answer retains of a tree, read off its marked tree: the root, and each node only
with its parent, with no more holes than allowed. -/
structure Remainder (t : Node κ) (maxHoles : HoleBudget) (p : Pruning κ) (u : Node κ) : Prop where
  annotated : p.annotated = some u
  whole : u.map Construct.bare = t.map Construct.bare
  root : u.retains 0 = true
  parent : ∀ id above, (TreeIndex.ofTree t).parent? id = some above → u.retains id = true →
    u.retains above = true
  allows : maxHoles.Allows u.holes
  charge : p.errorOfTree = t.keptCharge u.retains
  pruned : ∃ v, p.pruned = some v ∧ v.preorder = u.preorder.filter fun a => !a.isDeleted

/-- What is left in a consistent state within the hole budget. -/
theorem remainder_of_consistent {s : Removal.State κ} (consistent : Removal.Consistent t s)
    (allows : maxHoles.Allows s.holes) (check : Check) :
    t.Remainder maxHoles ((t.reconstruct s.kept).toPruning maxCost check)
      (t.reconstruct s.kept).annotated := by
  have closed := consistent.closed
  have retains {id : Nat} (lt : id < t.size) := retains_annotated closed lt
  obtain ⟨v, pruned⟩ := exists_pruned (t := t) consistent.root
  refine ⟨rfl, map_bare_annotated _ t, ?_, fun id above parent keeps => ?_, ?_, ?_,
    v, pruned, preorder_pruned closed pruned⟩
  · rw [retains t.size_pos]
    exact consistent.root
  · have lt := TreeIndex.parent?_lt parent
    rw [retains lt.2] at keeps
    rw [retains (lt.1.trans lt.2)]
    exact keep_parent closed keeps parent
  · rw [holes_annotated closed, ← consistent.holes]
    exact allows
  · exact (errorOfTree_reconstruct closed).trans (keptCharge_annotated closed).symm

end Answers

/-- For a threshold that is a number greedy pruning answers. In every state on the way the holes
are the maximal subtrees of which nothing is left, and what is offered can be removed without any
count falling below zero. Whether or not it fits, the answer retains the root and each node only
with its parent, within the hole budget, and is charged for what it retains. Over exact scalars it
is satisfied exactly when that charge fits. -/
theorem pruneGreedy_sound (maxHoles : HoleBudget) :
    (∀ {κ : Type} [Scalar κ] (t : Node κ) (maxCost : κ), Scalar.isNaN maxCost = false →
      (∀ s, Removal.Reached (Removal.ofNode t) maxHoles maxCost s →
        s.holes = (t.droppedSubtrees s.kept).length ∧
        ∀ a rest, s.Offers maxHoles maxCost a rest →
          ((TreeIndex.ofTree t).children a.id).length ≤ s.holes + 1 ∧
          (∃ above left, (TreeIndex.ofTree t).parent? a.id = some above ∧
            s.liveChildren.get? above = some (left + 1)) ∧
          ∃ s', (Removal.ofNode t).remove rest a = .ok s') ∧
      ∃ s p u, Removal.Reached (Removal.ofNode t) maxHoles maxCost s ∧
        (∀ a rest, ¬ s.Offers maxHoles maxCost a rest) ∧
        t.pruneGreedy maxHoles maxCost = .ok p ∧ t.Remainder maxHoles p u ∧
        ∀ id < t.size, u.retains id = s.kept id) ∧
    ∀ (t : Node Exact) (maxCost : Exact) (p : Pruning Exact),
      t.pruneGreedy maxHoles maxCost = .ok p →
        (p.check = .sat ↔ p.errorOfTree ≤ maxCost + slack) := by
  constructor
  · intro κ _ t maxCost number
    refine ⟨fun s reached => ⟨reached.holes, fun a rest offers => reached.safe offers⟩, ?_⟩
    obtain ⟨s, reached, ended, answer⟩ := t.exists_reached maxHoles number
    obtain ⟨consistent, allows⟩ := reached.consistent
    exact ⟨s, _, _, reached, ended, answer, remainder_of_consistent consistent allows _,
      fun id lt => retains_annotated consistent.closed lt⟩
  · intro t maxCost p answer
    have number := isNaN_of_pruneGreedy answer
    obtain ⟨s, reached, -, answer'⟩ := t.exists_reached maxHoles number
    obtain ⟨consistent, -⟩ := reached.consistent
    obtain rfl := Except.ok.inj (answer.symm.trans answer')
    have charge : ((t.reconstruct s.kept).toPruning maxCost
        (if fits maxCost s.retained then .sat else .unsat)).errorOfTree = s.retained := by
      rw [consistent.retained]
      exact errorOfTree_reconstruct consistent.closed
    rw [charge, ← fits_iff]
    change (if fits maxCost s.retained then Check.sat else .unsat) = .sat ↔ _
    split <;> simp_all

/-- With one hole allowed the dearest leaf opens it, and then nothing else can go. -/
theorem pruneGreedy_sound_uneven :
    ∃ p u, uneven.pruneGreedy (some 1) (number 4) = .ok p ∧ uneven.Remainder (some 1) p u ∧
      p.errorOfTree = number 6 ∧ p.check = .unsat := by
  obtain ⟨answers, checks⟩ := pruneGreedy_sound (some 1)
  obtain ⟨-, s, p, u, -, -, answer, remainder, -⟩ := answers uneven (number 4) rfl
  have charge : (uneven.pruneGreedy (some 1) (number 4)).toOption.map (·.errorOfTree)
      = some (number 6) := by
    cbv
  rw [answer] at charge
  have charge : p.errorOfTree = number 6 := Option.some.inj charge
  have unfit : ¬ p.check = .sat := by
    rw [checks _ _ _ answer, charge, slack_eq_number, number_add_number, number_le_number]
    norm_num [slackValue]
  refine ⟨p, u, answer, remainder, charge, ?_⟩
  cases check : p.check with
  | sat => exact absurd check unfit
  | unsat => rfl

end Node

end SureCode
