import Mathlib
import SureCode.Node.Record
import SureCode.Proofs.Except

/-!
# Records of nodes

Storing a node and reading a record are inverse to each other, as far as a record can hold what a
node can and the other way round (`toNode_ofNode`, `ofNode_of_toNode`). What a record can hold and a
node cannot are faults. They are listed node by node in preorder, and reading fails with the first
of them (`failsFirst_toNode`).
-/

namespace SureCode

open SureCode.Tree

variable {κ : Type}

/-! ### Faults -/

/-- The fault of a range whose ends are out of order. -/
def rangeFaults (start stop : Nat) : List RecordFault :=
  if stop < start then [.invertedRange start stop] else []

theorem rangeFaults_ne_nil_iff {start stop : Nat} : rangeFaults start stop ≠ [] ↔ stop < start := by
  unfold rangeFaults
  split <;> simp_all

namespace RecordFields

/-- The faults of one stored node in the order in which it is checked: its range, its gaps from the
first to the last, the number of its log-probabilities. -/
def faults (r : RecordFields κ) : List RecordFault :=
  rangeFaults r.start r.stop ++ (r.gaps.flatMap (fun gap => rangeFaults gap.1 gap.2)
    ++ if r.tokens.length ≠ r.logprobs.length then
      [.tokenCount r.tokens.length r.logprobs.length] else [])

/-- A stored node has a range or a gap with its ends out of order, or not as many tokens as
log-probabilities. -/
def IsFaulty (r : RecordFields κ) : Prop :=
  r.stop < r.start ∨ (∃ gap ∈ r.gaps, gap.2 < gap.1) ∨ r.tokens.length ≠ r.logprobs.length

theorem faults_ne_nil_iff (r : RecordFields κ) : r.faults ≠ [] ↔ r.IsFaulty := by
  have gaps : r.gaps.flatMap (fun gap => rangeFaults gap.1 gap.2) ≠ []
      ↔ ∃ gap ∈ r.gaps, gap.2 < gap.1 := by
    simp only [ne_eq, List.flatMap_eq_nil_iff, not_forall, exists_prop]
    exact exists_congr fun gap => and_congr_right fun _ => rangeFaults_ne_nil_iff
  have count : (if r.tokens.length ≠ r.logprobs.length then
      [RecordFault.tokenCount r.tokens.length r.logprobs.length] else []) ≠ []
      ↔ r.tokens.length ≠ r.logprobs.length := by
    split <;> simp_all
  rw [IsFaulty, ← rangeFaults_ne_nil_iff, ← gaps, ← count, faults]
  simp only [ne_eq, List.append_eq_nil_iff, not_and_or]

end RecordFields

namespace Record

/-- The faults of a stored tree, node by node in preorder. -/
def faults (r : Record κ) : List RecordFault := r.preorder.flatMap RecordFields.faults

theorem faults_ne_nil_iff (r : Record κ) : r.faults ≠ [] ↔ ∃ fields ∈ r.preorder, fields.IsFaulty := by
  simp only [faults, ne_eq, List.flatMap_eq_nil_iff, not_forall, exists_prop]
  exact exists_congr fun fields => and_congr_right fun _ => fields.faults_ne_nil_iff

/-! ### Reading -/

theorem failsFirst_spanOf (start stop : Nat) :
    FailsFirst (spanOf start stop) (rangeFaults start stop) := by
  unfold spanOf rangeFaults
  cases ends : Span.ofEnds? start stop with
  | none =>
    rw [if_pos (Span.ofEnds?_eq_none_iff.1 ends)]
    exact .error _ []
  | some span =>
    rw [if_neg fun inverted => by simp [Span.ofEnds?_eq_none_iff.2 inverted] at ends]
    exact .ok span

theorem failsFirst_toConstruct (r : RecordFields κ) : FailsFirst (toConstruct r) r.faults := by
  refine (failsFirst_spanOf r.start r.stop).bind fun span _ => ?_
  refine (FailsFirst.mapM fun gap _ => failsFirst_spanOf gap.1 gap.2).bind fun gaps _ => ?_
  split
  · exact .error _ []
  · exact .ok _

mutual

/-- Reading a record fails with its first fault. -/
theorem failsFirst_toNode (r : Record κ) : FailsFirst (toNode r) r.faults := by
  match r with
  | node fields rs =>
    rw [toNode, faults, preorder_node, List.flatMap_cons]
    exact (failsFirst_toConstruct fields).bind fun a _ =>
      (failsFirst_toNodes rs).map (node a)

theorem failsFirst_toNodes (rs : List (Record κ)) :
    FailsFirst (toNodes rs) ((preorderAll rs).flatMap RecordFields.faults) := by
  match rs with
  | [] =>
    rw [toNodes]
    exact .ok []
  | r :: rs =>
    rw [toNodes, preorderAll, List.flatMap_append]
    exact (failsFirst_toNode r).bind fun t _ => (failsFirst_toNodes rs).map (t :: ·)

end

/-! ### Storing and reading -/

section Storing

variable [Scalar κ]

theorem spanOf_ends (span : Span) : spanOf span.start span.stop = .ok span := by
  rw [spanOf, Span.ofEnds?_self]

theorem ends_of_spanOf {start stop : Nat} {span : Span} (ok : spanOf start stop = .ok span) :
    (span.start, span.stop) = (start, stop) := by
  unfold spanOf Span.ofEnds? at ok
  by_cases ordered : start ≤ stop
  · rw [dif_pos ordered] at ok
    obtain rfl := Except.ok.inj ok
    rfl
  · rw [dif_neg ordered] at ok
    cases ok

/-- What is left of a construct when it is stored: all but a likelihood that is not finite. -/
def storable (a : Construct κ) : Construct κ := { a with nll := a.nll.filter Scalar.isFinite }

theorem toConstruct_ofConstruct {a : Construct κ} (paired : a.tokens.length = a.logprobs.length) :
    toConstruct (ofConstruct a) = .ok (storable a) := by
  have gaps : (ofConstruct a).gaps.mapM (fun gap => spanOf gap.1 gap.2) = .ok a.gaps := by
    have steps := mapM_eq_ok_map (g := id) fun gap (_ : gap ∈ a.gaps) => spanOf_ends gap
    rw [List.map_id] at steps
    rw [ofConstruct, List.mapM_map]
    exact steps
  have range : spanOf (ofConstruct a).start (ofConstruct a).stop = .ok a.span := spanOf_ends a.span
  rw [toConstruct, range, gaps]
  exact if_neg (not_not.2 paired)

theorem ofConstruct_of_toConstruct {fields : RecordFields κ} {a : Construct κ}
    (finite : ∀ x, fields.nll = some x → Scalar.isFinite x = true)
    (ok : toConstruct fields = .ok a) : ofConstruct a = fields := by
  obtain ⟨span, range, ok⟩ := bind_eq_ok_iff.1 ok
  obtain ⟨gaps, ranges, ok⟩ := bind_eq_ok_iff.1 ok
  have ends : gaps.map (fun gap => (gap.start, gap.stop)) = fields.gaps := by
    have all := forall₂_of_mapM_eq_ok ranges
    rw [← List.forall₂_eq_eq_eq, List.forall₂_map_left_iff]
    exact (all.imp fun gap span ok => (ends_of_spanOf ok)).flip
  have nll : fields.nll.filter Scalar.isFinite = fields.nll := by
    cases stored : fields.nll with
    | none => rfl
    | some x => simp [finite x stored]
  split at ok
  · cases ok
  · obtain rfl := Except.ok.inj ok
    obtain ⟨start, stop⟩ := Prod.mk.inj (ends_of_spanOf range)
    rw [ofConstruct, start, stop, ends, nll]

mutual

theorem toNode_ofNode {t : Node κ}
    (paired : ∀ a ∈ t.preorder, a.tokens.length = a.logprobs.length) :
    toNode (t.map ofConstruct) = .ok (t.map storable) := by
  match t with
  | node a ts =>
    rw [preorder, List.forall_mem_cons] at paired
    rw [Tree.map, toNode, toConstruct_ofConstruct paired.1, toNodes_ofNodes paired.2, Tree.map]
    rfl

theorem toNodes_ofNodes {ts : List (Node κ)}
    (paired : ∀ a ∈ preorderAll ts, a.tokens.length = a.logprobs.length) :
    toNodes (mapAll ofConstruct ts) = .ok (mapAll storable ts) := by
  match ts with
  | [] => rfl
  | t :: ts =>
    rw [preorderAll, List.forall_mem_append] at paired
    rw [mapAll, toNodes, toNode_ofNode paired.1, toNodes_ofNodes paired.2]
    rfl

end

mutual

theorem ofNode_of_toNode {r : Record κ} {t : Node κ}
    (finite : ∀ fields ∈ r.preorder, ∀ x, fields.nll = some x → Scalar.isFinite x = true)
    (ok : toNode r = .ok t) : t.map ofConstruct = r := by
  match r with
  | node fields rs =>
    rw [preorder, List.forall_mem_cons] at finite
    rw [toNode] at ok
    obtain ⟨a, here, ok⟩ := bind_eq_ok_iff.1 ok
    obtain ⟨ts, below, ok⟩ := bind_eq_ok_iff.1 ok
    obtain rfl : node a ts = t := Except.ok.inj ok
    rw [Tree.map, ofConstruct_of_toConstruct finite.1 here, ofNodes_of_toNodes finite.2 below]

theorem ofNodes_of_toNodes {rs : List (Record κ)} {ts : List (Node κ)}
    (finite : ∀ fields ∈ preorderAll rs, ∀ x, fields.nll = some x → Scalar.isFinite x = true)
    (ok : toNodes rs = .ok ts) : mapAll ofConstruct ts = rs := by
  match rs with
  | [] =>
    rw [toNodes] at ok
    obtain rfl : [] = ts := Except.ok.inj ok
    rfl
  | r :: rs =>
    rw [preorderAll, List.forall_mem_append] at finite
    rw [toNodes] at ok
    obtain ⟨t, first, ok⟩ := bind_eq_ok_iff.1 ok
    obtain ⟨us, rest, ok⟩ := bind_eq_ok_iff.1 ok
    obtain rfl : t :: us = ts := Except.ok.inj ok
    rw [mapAll, ofNode_of_toNode finite.1 first, ofNodes_of_toNodes finite.2 rest]

end

/-- Records and nodes hold the same. A tree with as many tokens as log-probabilities at every node
comes back from its record, less the likelihoods that are not finite. A record without such
likelihoods that can be read is that of the node it gives. Reading fails for just the records with a
faulty node, and then with the first fault of the first such node in preorder. -/
theorem toNode_inverts :
    (∀ t : Node κ, (∀ a ∈ t.preorder, a.tokens.length = a.logprobs.length) →
      toNode (ofNode t) = .ok (t.map storable)) ∧
    (∀ r : Record κ, (∀ fields ∈ r.preorder, ∀ x, fields.nll = some x → Scalar.isFinite x = true) →
      ∀ t, toNode r = .ok t → ofNode t = r) ∧
    (∀ r : Record κ, (∃ e, toNode r = .error e) ↔ ∃ fields ∈ r.preorder, fields.IsFaulty) ∧
    ∀ (r : Record κ) (e : RecordFault), toNode r = .error e ↔ r.faults.head? = some e := by
  refine ⟨fun t => toNode_ofNode, fun r finite t => ofNode_of_toNode finite, fun r => ?_,
    failsFirst_toNode⟩
  rw [(failsFirst_toNode r).exists_error_iff, r.faults_ne_nil_iff]

end Storing

/-- A sum inside a line, of which the first operand is infinitely unlikely. -/
def unlikelySum : Node Float :=
  node { kind := .binOp, code := "x+1", span := ⟨7, 10, by decide⟩, gaps := [⟨8, 9, by decide⟩],
         tokens := ["+"], logprobs := [-0.5], nll := some 0.5 }
    [leaf { kind := .ident, code := "x", span := ⟨7, 8, by decide⟩, tokens := ["x"],
            logprobs := [-1 / 0], nll := some (1 / 0) },
     leaf { kind := .constant, code := "1", span := ⟨9, 10, by decide⟩ }]

/-- A record with a faulty leaf before another one. The first leaf has a gap whose ends are out of
order and a token without log-probability. -/
def faultyLeaves : Record Float :=
  node { code := "x+1", start := 0, stop := 3 }
    [leaf { code := "x", start := 0, stop := 1, gaps := [(0, 1), (1, 0)], tokens := ["x"] },
     leaf { code := "1", start := 3, stop := 2 }]

/-- The infinite likelihood does not come back, all else does. Of three faults the gap is reported. -/
theorem toNode_inverts_unlikelySum :
    (∀ a ∈ unlikelySum.preorder, a.tokens.length = a.logprobs.length) ∧
      toNode (ofNode unlikelySum) = .ok (unlikelySum.map storable) ∧
      (∀ fields ∈ (ofNode unlikelySum).preorder, ∀ x, fields.nll = some x →
        Scalar.isFinite x = true) ∧
      ofNode (unlikelySum.map storable) = ofNode unlikelySum ∧
      (unlikelySum.map storable).preorder.map (·.nll) = [some 0.5, none, none] ∧
      toNode faultyLeaves = .error (.invertedRange 1 0) := by
  have paired : ∀ a ∈ unlikelySum.preorder, a.tokens.length = a.logprobs.length := by
    decide +kernel
  have finite : ∀ fields ∈ (ofNode unlikelySum).preorder, ∀ x, fields.nll = some x →
      Scalar.isFinite x = true := by
    have all : ∀ fields ∈ (ofNode unlikelySum).preorder,
        fields.nll.all Scalar.isFinite = true := by decide +kernel
    exact fun fields mem x stored => by simpa [stored] using all fields mem
  obtain ⟨reads, stores, -, fails⟩ := toNode_inverts (κ := Float)
  have read := reads unlikelySum paired
  exact ⟨paired, read, finite, stores _ finite _ read, by decide +kernel,
    (fails faultyLeaves _).2 (by decide +kernel)⟩

end Record

end SureCode
