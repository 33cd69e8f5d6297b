import Mathlib
import SureCode.Proofs.Costs
import SureCode.Proofs.Doubles.Addition
import SureCode.Proofs.Pruning.Steps

/-!
# Greedy pruning under two budgets

The threshold decides where a run stops and nothing else: each step under a loose threshold is one
under every tighter threshold as well (`Removal.Step.tighten`), and a state has one step at most. So
the run for the tighter threshold passes through all states of the run for the looser one and may go
on from there (`Reached.leads`). What is removed under a loose threshold is removed under every
tighter one, and a loose threshold fits where a tighter one does (`pruneGreedy_antitone`). All that is
used of the costs is in `OrderedBudgets` and `OrderedCosts`; exact costs and doubles both have it.
-/

namespace SureCode

open SureCode.Tree Exact

/-! ### Budgets -/

/-- Scalars in which looser budgets allow for more. -/
class OrderedBudgets (κ : Type) [Scalar κ] : Prop where
  le_trans (a b c : κ) : a ≤ b → b ≤ c → a ≤ c
  add_slack_le (a b : κ) : a ≤ b → a + slack ≤ b + slack

instance : OrderedBudgets Exact where
  le_trans _ _ _ := Exact.le_trans
  add_slack_le a b le := by
    change Exact.le a b = true at le
    rw [slack_eq_number]
    change Exact.le (Exact.add a (number slackValue)) (Exact.add b (number slackValue)) = true
    cases a <;> cases b <;> simp_all [Exact.le, Exact.add]

instance : OrderedBudgets Float where
  le_trans _ _ _ := double_le_trans
  add_slack_le _ _ le := by
    have finite : (slack : Float).isFinite = true := by decide +kernel
    exact double_add_le_add_right le finite

namespace OrderedBudgets

/-- What fits a budget fits every looser one. -/
theorem fits_of_le {κ : Type} [Scalar κ] [OrderedBudgets κ] {tight loose cost : κ}
    (le : tight ≤ loose) (fit : fits tight cost = true) : fits loose cost = true := by
  simp only [fits, decide_eq_true_eq] at fit ⊢
  exact le_trans _ _ _ fit (add_slack_le _ _ le)

/-- What costs no more than something that fits a budget fits it too. -/
theorem fits_of_cost_le {κ : Type} [Scalar κ] [OrderedBudgets κ] {budget cheap dear : κ}
    (le : cheap ≤ dear) (fit : fits budget dear = true) : fits budget cheap = true := by
  simp only [fits, decide_eq_true_eq] at fit ⊢
  exact le_trans _ _ _ le fit

end OrderedBudgets

/-- Scalars in which sums of values from zero on grow with their terms, and some budget is too tight
for all of them. -/
class OrderedCosts (κ : Type) [Scalar κ] : Prop extends LawfulCosts κ, OrderedBudgets κ where
  zero_le_neutral : (Scalar.zero : κ) ≤ Scalar.neutral
  le_self (a : κ) : Scalar.zero ≤ a → a ≤ a
  le_add (a b : κ) : Scalar.zero ≤ a → Scalar.zero ≤ b → a ≤ a + b
  add_le_add (a b c : κ) : Scalar.zero ≤ a → a ≤ b → Scalar.zero ≤ c → a + c ≤ b + c
  exists_tight : ∃ budget : κ, Scalar.isNaN budget = false ∧ ¬ Scalar.zero ≤ budget + slack

instance : OrderedCosts Exact where
  zero_le_neutral := zero_le_iff.2 (.inr ⟨0, le_rfl, zero_eq_number⟩)
  le_self a := by
    rw [zero_le_iff]
    rintro (rfl | ⟨x, -, rfl⟩)
    · rfl
    · exact number_le_number.2 (le_refl x)
  le_add a b := by
    rw [zero_le_iff, zero_le_iff]
    rintro (rfl | ⟨x, -, rfl⟩) (rfl | ⟨y, nonneg, rfl⟩)
    · rfl
    · rfl
    · rfl
    · exact number_le_number.2 (le_add_of_nonneg_right nonneg)
  add_le_add a b c nonneg le nonneg' := by
    change Exact.le a b = true at le
    change Exact.le (Exact.add a c) (Exact.add b c) = true
    rw [zero_le_iff] at nonneg nonneg'
    obtain rfl | ⟨x, -, rfl⟩ := nonneg <;> obtain rfl | ⟨z, -, rfl⟩ := nonneg' <;> cases b <;>
      simp_all [Exact.le, Exact.add]
  exists_tight := ⟨number (-1), rfl, by
    rw [slack_eq_number, number_add_number, zero_eq_number, number_le_number]
    norm_num [slackValue]⟩

instance : OrderedCosts Float where
  zero_le_neutral := by decide +kernel
  le_self a nonneg := double_le_iff.2 <| by
    have number := (double_le_iff.1 nonneg).2.1
    exact ⟨number, number, le_refl _⟩
  le_add _ _ := double_le_add
  add_le_add _ _ _ := double_add_le_add
  exists_tight := ⟨-1.0, by decide +kernel, by decide +kernel⟩

namespace OrderedCosts

variable {κ : Type} [Scalar κ] [OrderedCosts κ]

/-- A sum of some of the terms is no greater than the sum of all. -/
theorem foldl_le_foldl {xs ys : List κ} {a b : κ} (some : xs.Sublist ys)
    (nonneg : ∀ y ∈ ys, Scalar.zero ≤ y) (a_nonneg : Scalar.zero ≤ a) (le : a ≤ b) :
    xs.foldl (· + ·) a ≤ ys.foldl (· + ·) b := by
  induction some generalizing a b with
  | slnil => exact le
  | cons y _ ih =>
    rw [List.forall_mem_cons] at nonneg
    have b_nonneg := OrderedBudgets.le_trans _ _ _ a_nonneg le
    exact ih nonneg.2 a_nonneg (OrderedBudgets.le_trans _ _ _ le (le_add b y b_nonneg nonneg.1))
  | cons_cons y _ ih =>
    rw [List.forall_mem_cons] at nonneg
    exact ih nonneg.2 (LawfulCosts.add_nonneg a y a_nonneg nonneg.1)
      (add_le_add a b y a_nonneg le nonneg.1)

theorem sum_nonneg {xs : List κ} (nonneg : ∀ x ∈ xs, Scalar.zero ≤ x) :
    Scalar.zero ≤ Scalar.sum xs :=
  OrderedBudgets.le_trans _ _ _ zero_le_neutral
    (foldl_le_foldl (List.nil_sublist xs) nonneg zero_le_neutral (le_self _ zero_le_neutral))

/-- No cost from zero on fits a budget that is too tight. -/
theorem fits_eq_false_of_tight {budget cost : κ} (tight : ¬ Scalar.zero ≤ budget + slack)
    (nonneg : Scalar.zero ≤ cost) : fits budget cost = false := by
  rw [fits, decide_eq_false_iff_not]
  exact fun fit => tight (OrderedBudgets.le_trans _ _ _ nonneg fit)

end OrderedCosts

theorem Construct.charge_nonneg {κ : Type} [Scalar κ] [LawfulCosts κ] (a : Construct κ) :
    Scalar.zero ≤ a.charge := by
  rw [charge]
  cases usable : a.cost? with
  | none => exact LawfulCosts.zero_le_zero
  | some cost => exact LawfulCosts.cost?_nonneg a cost usable

namespace Node

variable {κ : Type} [Scalar κ] {t : Node κ} {keep less : Nat → Bool}

theorem chargeAt_nonneg [LawfulCosts κ] (t : Node κ) (id : Nat) : Scalar.zero ≤ t.chargeAt id := by
  rw [chargeAt]
  cases (TreeIndex.ofTree t).label? id with
  | none => exact LawfulCosts.zero_le_zero
  | some a => exact a.charge_nonneg

/-- What keeps less costs no more. -/
theorem keptSum_le [OrderedCosts κ] (fewer : ∀ id, less id = true → keep id = true) :
    t.keptSum less ≤ t.keptSum keep := by
  have neutral : (Scalar.zero : κ) ≤ Scalar.neutral := OrderedCosts.zero_le_neutral
  refine OrderedCosts.foldl_le_foldl ?_ ?_ neutral (OrderedCosts.le_self _ neutral)
  · exact (List.monotone_filter_right _ fewer).map _
  · rintro _ mem
    obtain ⟨id, -, rfl⟩ := List.mem_map.1 mem
    exact t.chargeAt_nonneg id

theorem keptSum_nonneg [OrderedCosts κ] (t : Node κ) (keep : Nat → Bool) :
    Scalar.zero ≤ t.keptSum keep := by
  refine OrderedCosts.sum_nonneg ?_
  rintro _ mem
  obtain ⟨id, -, rfl⟩ := List.mem_map.1 mem
  exact t.chargeAt_nonneg id

theorem totalCharges_nonneg [OrderedCosts κ] (ts : List (Node κ)) :
    ∀ cost ∈ totalCharges ts, Scalar.zero ≤ cost := by
  induction ts using forest_induction with
  | nil => exact nofun
  | cons a us ts below rest =>
    rw [totalCharges, totalCharge, List.forall_mem_cons]
    exact ⟨LawfulCosts.add_nonneg _ _ a.charge_nonneg (OrderedCosts.sum_nonneg below), rest⟩

theorem totalCharge_nonneg [OrderedCosts κ] (t : Node κ) : Scalar.zero ≤ t.totalCharge :=
  totalCharges_nonneg [t] _ (List.mem_singleton_self _)

end Node

/-! ### Runs of different length -/

namespace Removal

open Node Relation

section Runs

variable {κ : Type} [Scalar κ] {r : Removal κ} {t : Node κ} {s s' : State κ}
  {maxHoles : HoleBudget} {tight loose maxCost : κ}

/-- What does not fit a loose threshold does not fit a tighter one, so the step is the same. -/
theorem Step.tighten [OrderedBudgets κ] (le : tight ≤ loose) (step : r.Step maxHoles loose s s') :
    r.Step maxHoles tight s s' := by
  obtain ⟨a, rest, ⟨unfit, next⟩, ok⟩ := step
  refine ⟨a, rest, ⟨?_, next⟩, ok⟩
  by_contra fit
  rw [Bool.not_eq_false] at fit
  rw [OrderedBudgets.fits_of_le le fit] at unfit
  exact Bool.noConfusion unfit

theorem Reached.tighten [OrderedBudgets κ] (le : tight ≤ loose)
    (reached : Reached r maxHoles loose s) : Reached r maxHoles tight s :=
  ReflTransGen.mono (fun _ _ step => Step.tighten le step) _ _ reached

theorem rightUnique_step : Relator.RightUnique (r.Step maxHoles maxCost) := by
  rintro s s₁ s₂ ⟨a, rest, offers, ok⟩ ⟨a', rest', offers', ok'⟩
  obtain ⟨rfl, rfl⟩ := Prod.mk.inj (Option.some.inj (offers.next.symm.trans offers'.next))
  exact Except.ok.inj (ok.symm.trans ok')

/-- All states reached lead to one that offers nothing. -/
theorem Reached.leads (reached : Reached r maxHoles maxCost s)
    (reached' : Reached r maxHoles maxCost s')
    (ended : ∀ a rest, ¬ s'.Offers maxHoles maxCost a rest) :
    ReflTransGen (r.Step maxHoles maxCost) s s' := by
  obtain leads | back := ReflTransGen.total_of_right_unique rightUnique_step reached reached'
  · exact leads
  · obtain rfl | ⟨_, ⟨a, rest, offers, -⟩, -⟩ := ReflTransGen.cases_head back
    · exact .refl
    · exact absurd offers (ended a rest)

/-- What is left later was left before. -/
theorem Reached.kept_of_leads (reached : Reached (ofNode t) maxHoles maxCost s)
    (leads : ReflTransGen ((ofNode t).Step maxHoles maxCost) s s') (id : Nat)
    (kept : s'.kept id = true) : s.kept id = true := by
  induction leads with
  | refl => exact kept
  | tail leads step ih =>
    obtain ⟨a, rest, offers, ok⟩ := step
    obtain ⟨consistent, allows⟩ := Reached.consistent (ReflTransGen.trans reached leads)
    rw [(offers.remove consistent allows ok).2.2, without_eq_true] at kept
    exact ih kept.1

end Runs

end Removal

/-! ### Answers -/

namespace Node

/-- What greedy pruning deletes for a threshold it deletes for every tighter one, and where it is
satisfied for the tighter one it is so for the looser one. -/
theorem pruneGreedy_antitone {κ : Type} [Scalar κ] [OrderedBudgets κ] (t : Node κ)
    (maxHoles : HoleBudget) {tight loose : κ} (number : Scalar.isNaN tight = false)
    (number' : Scalar.isNaN loose = false) (le : tight ≤ loose) :
    ∃ p q u v, t.pruneGreedy maxHoles loose = .ok p ∧ p.annotated = some u ∧
      t.pruneGreedy maxHoles tight = .ok q ∧ q.annotated = some v ∧
      (∀ id < t.size, u.retains id = false → v.retains id = false) ∧
      (q.check = .sat → p.check = .sat) := by
  obtain ⟨s, reached, ended, answer⟩ := t.exists_reached maxHoles number'
  obtain ⟨s', reached', ended', answer'⟩ := t.exists_reached maxHoles number
  have leads := (reached.tighten le).leads reached' ended'
  refine ⟨_, _, _, _, answer, rfl, answer', rfl, fun id lt => ?_, ?_⟩
  · rw [retains_annotated reached.consistent.1.closed lt,
      retains_annotated reached'.consistent.1.closed lt]
    contrapose
    simp only [Bool.not_eq_false]
    exact (reached.tighten le).kept_of_leads leads id
  · change (if fits tight s'.retained then Check.sat else .unsat) = .sat →
      (if fits loose s.retained then Check.sat else .unsat) = .sat
    cases fit : fits loose s.retained with
    | true => exact fun _ => rfl
    | false =>
      -- nothing was left to remove, so the run for the tighter threshold ends here as well
      obtain rfl | ⟨_, ⟨a, rest, offers, -⟩, -⟩ := Relation.ReflTransGen.cases_head leads
      · cases fit' : fits tight s.retained with
        | true =>
          rw [OrderedBudgets.fits_of_le le fit'] at fit
          exact Bool.noConfusion fit
        | false => exact id
      · exact absurd ⟨fit, offers.next⟩ (ended a rest)

/-- The dearest leaf goes for both thresholds, everything else below the root for the tighter one. -/
theorem pruneGreedy_antitone_uneven :
    ∃ p q u v, uneven.pruneGreedy none (number 7) = .ok p ∧ p.annotated = some u ∧
      uneven.pruneGreedy none (number 4) = .ok q ∧ q.annotated = some v ∧
      (∀ id < 4, u.retains id = false → v.retains id = false) ∧
      u.retains 3 = false ∧ q.check = .sat ∧ p.check = .sat := by
  have le : number 4 ≤ number 7 := number_le_number.2 (by norm_num)
  obtain ⟨p, q, u, v, loose, marked, tight, marked', deleted, sat⟩ :=
    pruneGreedy_antitone uneven none rfl rfl le
  have gone : (uneven.pruneGreedy none (number 7)).toOption.map (·.retains 3) = some false := by
    cbv
  have fit : (uneven.pruneGreedy none (number 4)).toOption.map (·.check) = some .sat := by
    cbv
  rw [loose] at gone
  rw [tight] at fit
  have gone : p.annotated.any (·.retains 3) = false := Option.some.inj gone
  rw [marked, Option.any_some] at gone
  have fit : q.check = .sat := Option.some.inj fit
  exact ⟨p, q, u, v, loose, marked, tight, marked', deleted, gone, fit, sat fit⟩

end Node

end SureCode
