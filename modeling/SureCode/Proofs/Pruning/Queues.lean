import Mathlib
import SureCode.Proofs.Pruning.Steps
import SureCode.Proofs.Scalar

/-!
# The queues of the greedy engine

Without its queues greedy pruning is a plain search: of all nodes that may go, remove the one that
goes first (`Node.GoesNext`). The queues never lose their order (`Removal.Ordered`), and in a
consistent state all nodes that may go are in the queue that is asked. So the first entry that is
not passed over outranks everything else that may go (`Offers.goesNext`), and an empty queue means
that nothing may go (`not_eligible_of_next_eq_none`). Hence the engine is the plain search
(`pruneGreedy_goesNext`).
-/

namespace SureCode

open SureCode.Tree Exact

/-! ### The plain search -/

namespace Node

section Plain

variable {κ : Type} [Scalar κ]

/-- What the whole subtree at a node is charged, whatever has been removed of it. -/
def subtreeCharge (t : Node κ) (id : Nat) : κ :=
  (t.subtrees[id]?.map totalCharge).getD Scalar.zero

/-- Whether one node goes before another: the dearer one, else the one with the dearer subtree, else
the one that comes first in preorder. -/
def Outranks (t : Node κ) (id other : Nat) : Prop :=
  Scalar.totalLt (t.chargeAt other) (t.chargeAt id) = true ∨
    t.chargeAt id = t.chargeAt other ∧
      (Scalar.totalLt (t.subtreeCharge other) (t.subtreeCharge id) = true ∨
        t.subtreeCharge id = t.subtreeCharge other ∧ id < other)

/-- A node may go when it is removable and, once the hole budget is spent, has children whose holes
it joins. -/
structure Eligible (t : Node κ) (maxHoles : HoleBudget) (keep : Nat → Bool) (id : Nat) : Prop where
  removable : t.Removable keep id
  joins : ∀ most, maxHoles = some most → most ≤ (t.droppedSubtrees keep).length →
    (TreeIndex.ofTree t).children id ≠ []

/-- The first of all nodes that may go. -/
structure GoesNext (t : Node κ) (maxHoles : HoleBudget) (keep : Nat → Bool) (id : Nat) : Prop where
  eligible : t.Eligible maxHoles keep id
  first : ∀ other, t.Eligible maxHoles keep other → other ≠ id → t.Outranks id other

end Plain

end Node

/-! ### The order of candidates -/

namespace Candidate

variable {κ : Type} [Scalar κ] [LawfulScalar κ] {a b c : Candidate κ}

theorem precedes_iff :
    a.precedes b = true ↔ Scalar.totalLt b.cost a.cost = true ∨ a.cost = b.cost ∧
      (Scalar.totalLt b.subtreeCost a.subtreeCost = true ∨
        a.subtreeCost = b.subtreeCost ∧ a.id ≤ b.id) := by
  simp [precedes]

theorem precedes_trans (ab : a.precedes b = true) (bc : b.precedes c = true) :
    a.precedes c = true := by
  rw [precedes_iff] at ab bc ⊢
  obtain dearer | ⟨cost, ab⟩ := ab
  · left
    obtain dearer' | ⟨cost', -⟩ := bc
    · exact Scalar.totalLt_trans dearer' dearer
    · rwa [← cost']
  · rw [cost]
    refine bc.imp_right fun ⟨cost', bc⟩ => ⟨cost', ?_⟩
    obtain dearer | ⟨subtree, le⟩ := ab
    · left
      obtain dearer' | ⟨subtree', -⟩ := bc
      · exact Scalar.totalLt_trans dearer' dearer
      · rwa [← subtree']
    · rw [subtree]
      exact bc.imp_right fun ⟨subtree', le'⟩ => ⟨subtree', le.trans le'⟩

theorem precedes_total (a b : Candidate κ) : a.precedes b = true ∨ b.precedes a = true := by
  rw [precedes_iff, precedes_iff]
  obtain less | cost | less := Scalar.totalLt_trichotomy a.cost b.cost
  · exact .inr (.inl less)
  · obtain less | subtree | less := Scalar.totalLt_trichotomy a.subtreeCost b.subtreeCost
    · exact .inr (.inr ⟨cost.symm, .inl less⟩)
    · exact (le_total a.id b.id).imp (fun le => .inr ⟨cost, .inr ⟨subtree, le⟩⟩)
        fun le => .inr ⟨cost.symm, .inr ⟨subtree.symm, le⟩⟩
    · exact .inl (.inr ⟨cost, .inl less⟩)
  · exact .inl (.inl less)

theorem pairwise_enqueue {queue : List (Candidate κ)}
    (sorted : queue.Pairwise fun a b => a.precedes b = true) (a : Candidate κ) :
    (a.enqueue queue).Pairwise fun a b => a.precedes b = true := by
  induction queue with
  | nil => exact List.pairwise_singleton _ a
  | cons b queue ih =>
    rw [List.pairwise_cons] at sorted
    rw [enqueue]
    split
    case isTrue before =>
      refine .cons (fun c mem => ?_) (.cons sorted.1 sorted.2)
      obtain rfl | mem := List.mem_cons.1 mem
      · exact before
      · exact precedes_trans before (sorted.1 c mem)
    case isFalse behind =>
      refine .cons (fun c mem => ?_) (ih sorted.2)
      obtain rfl | mem := Removal.mem_enqueue.1 mem
      · exact (precedes_total c b).resolve_left behind
      · exact sorted.1 c mem

end Candidate

/-! ### Ordered queues -/

namespace Removal

open Node

/-- A queue is in order when its entries are, and each entry is the candidate of its node. -/
structure Ordered {κ : Type} [Scalar κ] (t : Node κ) (queue : List (Candidate κ)) : Prop where
  sorted : queue.Pairwise fun a b => a.precedes b = true
  candidate : ∀ a ∈ queue, a = (ofNode t).candidate a.id

section Queues

variable {κ : Type} [Scalar κ] {t : Node κ} {s s' rest : State κ} {a b : Candidate κ}
  {queue queue' : List (Candidate κ)} {extendOnly : Bool} {id other : Nat}

theorem Ordered.sublist (ordered : Ordered t queue) (sub : queue'.Sublist queue) :
    Ordered t queue' :=
  ⟨ordered.sorted.sublist sub, fun a mem => ordered.candidate a (sub.subset mem)⟩

omit [Scalar κ] in
/-- Asking for the next candidate only shortens the queues. -/
theorem sublist_of_next (next : s.next extendOnly = some (a, rest)) (which : Bool) :
    (rest.queue which).Sublist (s.queue which) := by
  obtain ⟨passed, later, split, -, -, rfl⟩ := next_cases next
  have sub : later.Sublist (s.queue extendOnly) := by
    rw [split]
    exact (List.sublist_cons_self a later).trans (List.sublist_append_right passed _)
  cases extendOnly <;> cases which
  · exact sub
  · exact List.Sublist.refl _
  · exact List.Sublist.refl _
  · exact sub

/-- The next candidate is in the queue that is asked and goes before all else in it that is left. -/
theorem precedes_of_next (next : s.next extendOnly = some (a, rest))
    (ordered : Ordered t (s.queue extendOnly)) :
    a = (ofNode t).candidate a.id ∧
      ∀ b ∈ s.queue extendOnly, s.kept b.id = true → b ≠ a →
        a.precedes b = true := by
  obtain ⟨passed, later, split, dropped, -, -⟩ := next_cases next
  rw [split] at ordered ⊢
  refine ⟨ordered.candidate a (List.mem_append_right _ List.mem_cons_self), fun b mem kept ne => ?_⟩
  have sorted := ordered.sorted
  rw [List.pairwise_append, List.pairwise_cons] at sorted
  rw [List.mem_append, List.mem_cons] at mem
  obtain passed | rfl | behind := mem
  · rw [dropped b passed] at kept
    exact absurd kept Bool.false_ne_true
  · exact absurd rfl ne
  · exact sorted.2.1.1 b behind

variable [LawfulScalar κ]

theorem Ordered.enqueue (ordered : Ordered t queue) (id : Nat) :
    Ordered t (((ofNode t).candidate id).enqueue queue) := by
  refine ⟨Candidate.pairwise_enqueue ordered.sorted _, fun a mem => ?_⟩
  obtain rfl | mem := mem_enqueue.1 mem
  · rfl
  · exact ordered.candidate a mem

theorem ordered_start (t : Node κ) (which : Bool) : Ordered t ((ofNode t).start.queue which) := by
  cases which with
  | true => exact ⟨.nil, nofun⟩
  | false =>
    refine ⟨?_, fun a mem => ?_⟩
    · apply List.pairwise_mergeSort
      · exact fun a b c ab bc => Candidate.precedes_trans ab bc
      · intro a b
        rw [Bool.or_eq_true]
        exact Candidate.precedes_total a b
    · simp only [State.queue, start, Bool.false_eq_true, if_false, List.mem_mergeSort,
        List.mem_map] at mem
      obtain ⟨id, -, rfl⟩ := mem
      rfl

/-- A removal puts at most the parent into the queues, in its place. -/
theorem ordered_of_remove (ok : (ofNode t).remove s a = .ok s')
    (ordered : ∀ which, Ordered t (s.queue which)) (which : Bool) :
    Ordered t (s'.queue which) := by
  unfold remove at ok
  split at ok
  · cases ok
  · rename_i above parent
    obtain rfl := Except.ok.inj ok
    have queued (freed : Bool) : Ordered t
        (if freed then ((ofNode t).candidate above).enqueue (s.queue which) else s.queue which) := by
      split
      case isTrue => exact (ordered which).enqueue above
      case isFalse => exact ordered which
    cases which <;> exact queued _

theorem Reached.ordered {maxHoles : HoleBudget} {maxCost : κ}
    (reached : Reached (ofNode t) maxHoles maxCost s) (which : Bool) :
    Ordered t (s.queue which) := by
  induction reached generalizing which with
  | refl => exact ordered_start t which
  | tail _ step ih =>
    obtain ⟨a, rest, offers, ok⟩ := step
    exact ordered_of_remove ok (fun which => (ih which).sublist (sublist_of_next offers.next which))
      which

/-- Of different nodes the one whose candidate goes first outranks the other. -/
theorem outranks_of_precedes
    (precedes : ((ofNode t).candidate id).precedes ((ofNode t).candidate other) = true)
    (ne : other ≠ id) : t.Outranks id other := by
  have cost (i : Nat) : ((ofNode t).candidate i).cost = t.chargeAt i := getD_costs t i
  have subtreeCost (i : Nat) : ((ofNode t).candidate i).subtreeCost = t.subtreeCharge i := by
    rw [subtreeCharge, ← List.getElem?_map, ← List.getElem?_toArray]
    rfl
  rw [Candidate.precedes_iff, cost, cost, subtreeCost, subtreeCost] at precedes
  refine precedes.imp_right (And.imp_right (Or.imp_right (And.imp_right fun le => ?_)))
  exact lt_of_le_of_ne le ne.symm

end Queues

/-! ### What may go -/

section Eligible

variable {κ : Type} [Scalar κ] {t : Node κ} {s rest : State κ} {a : Candidate κ}
  {maxHoles : HoleBudget} {maxCost : κ} {id : Nat}

/-- What may go is in the queue that is asked. -/
theorem exists_mem_of_eligible (consistent : Consistent t s)
    (eligible : t.Eligible maxHoles s.kept id) :
    ∃ b ∈ s.queue (onlyExtending maxHoles s), b.id = id := by
  have removable := eligible.removable
  unfold State.queue
  split
  case isTrue spent =>
    refine (consistent.extending id removable.kept).2 ⟨removable, ?_⟩
    cases maxHoles with
    | none => exact absurd spent Bool.false_ne_true
    | some most =>
      apply eligible.joins most rfl
      rw [length_droppedSubtrees consistent.closed, ← consistent.holes]
      exact of_decide_eq_true spent
  case isFalse => exact (consistent.leaves id removable.kept).2 removable

/-- Where the queue that is asked is empty nothing may go. -/
theorem not_eligible_of_next_eq_none (consistent : Consistent t s)
    (next : s.next (onlyExtending maxHoles s) = none) : ¬ t.Eligible maxHoles s.kept id := by
  intro eligible
  obtain ⟨b, mem, rfl⟩ := exists_mem_of_eligible consistent eligible
  have gone := next_eq_none next b mem
  rw [eligible.removable.kept] at gone
  exact Bool.false_ne_true gone.symm

theorem eligible_of_next (consistent : Consistent t s)
    (next : s.next (onlyExtending maxHoles s) = some (a, rest)) :
    t.Eligible maxHoles s.kept a.id := by
  obtain ⟨removable, bears, -⟩ := consistent.remove next
  refine ⟨removable, ?_⟩
  rintro most rfl spent
  rw [length_droppedSubtrees consistent.closed, ← consistent.holes] at spent
  exact bears (decide_eq_true spent)

/-- What is offered is the first of all that may go. -/
theorem State.Offers.goesNext [LawfulScalar κ] (offers : s.Offers maxHoles maxCost a rest)
    (reached : Reached (ofNode t) maxHoles maxCost s) : t.GoesNext maxHoles s.kept a.id := by
  have consistent := reached.consistent.1
  refine ⟨eligible_of_next consistent offers.next, fun other eligible ne => ?_⟩
  have ordered := reached.ordered (onlyExtending maxHoles s)
  obtain ⟨candidate, first⟩ := precedes_of_next offers.next ordered
  obtain ⟨b, mem, rfl⟩ := exists_mem_of_eligible consistent eligible
  have precedes := first b mem eligible.removable.kept fun eq => ne (congrArg _ eq)
  rw [candidate, ordered.candidate b mem] at precedes
  exact outranks_of_precedes precedes ne

end Eligible

end Removal

/-! ### Runs -/

namespace Node

/-- Greedy pruning is the plain search. In every state on the way to its answer what is removed is
the first of all nodes that may go, and it alone is removed, so that a run that ends before the cost
fits has left nothing that may go. -/
theorem pruneGreedy_goesNext {κ : Type} [Scalar κ] [LawfulScalar κ] (t : Node κ)
    (maxHoles : HoleBudget) (maxCost : κ) (number : Scalar.isNaN maxCost = false) :
    (∀ s, Removal.Reached (Removal.ofNode t) maxHoles maxCost s →
      ∀ a rest, s.Offers maxHoles maxCost a rest →
        t.GoesNext maxHoles s.kept a.id ∧
        ∃ s', (Removal.ofNode t).remove rest a = .ok s' ∧ s'.kept = without s.kept a.id) ∧
    ∃ s, Removal.Reached (Removal.ofNode t) maxHoles maxCost s ∧
      t.pruneGreedy maxHoles maxCost = .ok ((t.reconstruct s.kept).toPruning maxCost
        (if fits maxCost s.retained then .sat else .unsat)) ∧
      (fits maxCost s.retained = false → ∀ id, ¬ t.Eligible maxHoles s.kept id) := by
  constructor
  · intro s reached a rest offers
    obtain ⟨consistent, allows⟩ := reached.consistent
    obtain ⟨-, -, s', ok⟩ := reached.safe offers
    exact ⟨offers.goesNext reached, s', ok, (offers.remove consistent allows ok).2.2⟩
  · obtain ⟨s, reached, ended, answer⟩ := t.exists_reached maxHoles number
    refine ⟨s, reached, answer, fun unfit id => ?_⟩
    apply Removal.not_eligible_of_next_eq_none reached.consistent.1
    rw [Option.eq_none_iff_forall_not_mem]
    rintro ⟨a, rest⟩ next
    exact ended a rest ⟨unfit, next⟩

/-- The leaf of cost three goes before the cheaper one in front of it, whatever the dear node above
that costs. -/
theorem pruneGreedy_goesNext_uneven : uneven.GoesNext none (fun _ => true) 3 := by
  have steps := (pruneGreedy_goesNext uneven none (number 4) rfl).1
  have offered : ((Removal.ofNode uneven).start.next false).map (·.1.id) = some 3 := by
    cbv
  obtain ⟨⟨a, rest⟩, next, here⟩ := Option.map_eq_some_iff.1 offered
  have unfit : fits (number 4) (Removal.ofNode uneven).start.retained = false := by
    cbv
  have goes := (steps _ .refl a rest ⟨unfit, next⟩).1
  rwa [here, funext Removal.kept_start] at goes

end Node

end SureCode
