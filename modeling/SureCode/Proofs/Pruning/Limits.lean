import Mathlib
import SureCode.Proofs.Pruning.Exact
import SureCode.Proofs.Pruning.Expansion

/-!
# The search limit

The limit bounds the expansions of a search and has no other part in it. A visit that ends within
one limit ends in the same way within every greater one (`visit_of_le`). Each branch has fewer
undecided statuses, so a visit with `n` of them expands fewer than `2 ^ (n + 1)` times
(`exists_visit_eq_ok`), and no greater depth makes a difference (`visit_eq_visit`). Under one budget
there is no conflict and one expansion is enough. The main statement is `pruneExact_limit`.
-/

namespace SureCode

open SureCode.Tree

namespace Search

variable {κ : Type} [Scalar κ] {s : Search κ} {fixed : List Decisions} {p p' : Progress}
  {limit depth : Nat}

/-! ### Greater limits -/

theorem visit_eq_error {e : PruneError κ} (failed : s.visit depth fixed p = .error e) :
    e = .searchLimitExceeded s.limit := by
  induction depth generalizing fixed p with
  | zero => cases failed
  | succ depth ih =>
    have branch {branch : Option (List Decisions)} {p : Progress}
        (failed : s.visitBranch depth branch p = .error e) : e = .searchLimitExceeded s.limit := by
      cases branch with
      | none => cases failed
      | some fixed => exact ih failed
    rw [visit_succ] at failed
    split at failed
    · exact (Except.error.inj failed).symm
    · split at failed
      · cases failed
      · obtain failed | ⟨_, -, failed⟩ := bind_eq_error_iff.1 failed
        · exact branch failed
        · exact branch failed

/-- A visit that ends within the limit ends in the same way within a greater one. -/
theorem visit_of_le (le : s.limit ≤ limit) (ok : s.visit depth fixed p = .ok p') :
    ({ s with limit } : Search κ).visit depth fixed p = .ok p' := by
  induction depth generalizing fixed p p' with
  | zero => exact ok
  | succ depth ih =>
    have branch {branch : Option (List Decisions)} {p p' : Progress}
        (ok : s.visitBranch depth branch p = .ok p') :
        ({ s with limit } : Search κ).visitBranch depth branch p = .ok p' := by
      cases branch with
      | none => exact ok
      | some fixed => exact ih ok
    have same : ({ s with limit } : Search κ).expand fixed p = s.expand fixed p := rfl
    rw [visit_succ] at ok ⊢
    split at ok
    case isTrue => cases ok
    case isFalse within =>
      rw [if_neg fun reached => within (le.trans reached), same]
      rcases expanded : s.expand fixed p with ⟨p₁, _ | c⟩
      · rwa [expanded] at ok
      · rw [expanded] at ok
        obtain ⟨p₂, first, second⟩ := bind_eq_ok_iff.1 ok
        exact bind_eq_ok_iff.2 ⟨p₂, branch first, branch second⟩

/-- The decisions that a search starts from. -/
def start (s : Search κ) : List Decisions := s.budgets.map fun _ => .filled s.items .free

/-- The depth at which a run cuts its visits off. -/
def cutoff (s : Search κ) : Nat := s.items * s.budgets.length + 1

/-- The first visit of a run, with visits cut off at some depth. -/
def firstVisit (s : Search κ) (depth : Nat) : Except (PruneError κ) Progress :=
  s.visit depth s.start ⟨0, none⟩

/-- A run fails where its first visit does, or for want of any levels. -/
theorem eq_of_run_eq_error {e : PruneError κ} (failed : s.run = .error e) :
    s.firstVisit s.cutoff = .error e ∨ e = .unsolved := by
  unfold run at failed
  split at failed
  · cases failed
  · obtain failed | ⟨p, -, failed⟩ := bind_eq_error_iff.1 failed
    · exact .inl failed
    · split at failed
      · cases failed
      · exact .inr (Except.error.inj failed).symm

theorem run_ne_searchLimitExceeded {n : Nat}
    (visited : s.firstVisit s.cutoff = .ok p) : s.run ≠ .error (.searchLimitExceeded n) := by
  intro exceeded
  obtain failed | ⟨⟨⟩⟩ := eq_of_run_eq_error exceeded
  rw [visited] at failed
  cases failed

/-- A run that does not reach its limit comes out the same within a greater one. -/
theorem run_of_le (le : s.limit ≤ limit) (within : s.run ≠ .error (.searchLimitExceeded s.limit)) :
    ({ s with limit } : Search κ).run = s.run := by
  unfold run at within ⊢
  split at within
  case isTrue empty =>
    rw [if_pos empty, if_pos empty]
    rfl
  case isFalse nonempty =>
    rw [if_neg nonempty, if_neg nonempty]
    change s.firstVisit s.cutoff >>= _ ≠ _ at within
    change ({ s with limit } : Search κ).firstVisit s.cutoff >>= _ = s.firstVisit s.cutoff >>= _
    cases visited : s.firstVisit s.cutoff with
    | error e =>
      obtain rfl := visit_eq_error visited
      rw [visited] at within
      exact absurd rfl within
    | ok p =>
      have visited' : ({ s with limit } : Search κ).firstVisit s.cutoff = .ok p :=
        visit_of_le le visited
      rw [visited']

/-! ### One budget -/

theorem firstConflict?_of_length_le {items : Nat} {selections : List Selection}
    (one : selections.length ≤ 1) : firstConflict? items selections = none := by
  rw [firstConflict?, List.drop_eq_nil_of_le one, List.zip_nil_right]
  rfl

/-- One selection has no conflict, so the first expansion is the last. -/
theorem exists_visit_of_length_le (one : fixed.length ≤ 1) (within : p.expansions < s.limit)
    (depth : Nat) : ∃ p', s.visit (depth + 1) fixed p = .ok p' := by
  rw [visit_succ, if_neg (Nat.not_le.2 within)]
  rcases expanded : s.expand fixed p with ⟨p₁, _ | c⟩
  · exact ⟨p₁, rfl⟩
  · obtain ⟨selections, solved, first⟩ := exists_of_expand expanded
    have length_le : selections.length ≤ 1 := by
      rw [(getElem?_of_mapM solved).1, List.length_zip]
      omega
    rw [firstConflict?_of_length_le length_le] at first
    cases first

/-! ### Enough expansions -/

section Lawful

variable [LawfulCosts κ] (itemized : Itemized 0 s.knapsack.forest) (indexed : s.Indexed)

include itemized indexed

/-- A visit ends within the limit if that leaves fewer than `2 ^ free` expansions and fewer than
`free` statuses are undecided. The induction is on this number, for each branch has fewer. -/
theorem exists_visit_eq_ok {free : Nat} (coherent : s.Coherent fixed)
    (few : s.undecided fixed < free) (deep : s.undecided fixed < depth)
    (within : p.expansions + 2 ^ free ≤ s.limit + 1) :
    ∃ p', s.visit depth fixed p = .ok p' ∧ p'.expansions + 1 ≤ p.expansions + 2 ^ free := by
  induction free generalizing depth fixed p with
  | zero => exact absurd few (Nat.not_lt_zero _)
  | succ free ih =>
    obtain ⟨depth, rfl⟩ := Nat.exists_eq_succ_of_ne_zero (Nat.ne_zero_of_lt deep)
    have double : 2 ^ (free + 1) = 2 ^ free + 2 ^ free := by rw [pow_succ, mul_two]
    have pos : 0 < 2 ^ free := Nat.two_pow_pos free
    rw [visit_succ, if_neg (by omega)]
    rcases expanded : s.expand fixed p with ⟨p₁, _ | c⟩
    · have counted := expansions_of_expand expanded
      exact ⟨p₁, rfl, by omega⟩
    · have counted := expansions_of_expand expanded
      obtain ⟨kept, dropped, branches⟩ :=
        exists_branches_of_expand itemized indexed coherent expanded
      have kept_lt := branches.kept_lt
      have dropped_lt := branches.dropped_lt
      obtain ⟨p₂, first, spent⟩ : ∃ p₂, s.visit depth kept p₁ = .ok p₂ ∧
          p₂.expansions + 1 ≤ p₁.expansions + 2 ^ free :=
        ih branches.kept_coherent (by omega) (by omega) (by omega)
      obtain ⟨p₃, second, spent'⟩ : ∃ p₃, s.visit depth dropped p₂ = .ok p₃ ∧
          p₃.expansions + 1 ≤ p₂.expansions + 2 ^ free :=
        ih branches.dropped_coherent (by omega) (by omega) (by omega)
      refine ⟨p₃, ?_, by omega⟩
      dsimp only
      rw [branches.visitBranches_eq, first]
      exact second

/-- A depth above the number of undecided statuses cuts nothing off. -/
theorem visit_eq_visit {depth' : Nat} (coherent : s.Coherent fixed)
    (deep : s.undecided fixed < depth) (deep' : s.undecided fixed < depth') :
    s.visit depth fixed p = s.visit depth' fixed p := by
  induction depth generalizing depth' fixed p with
  | zero => exact absurd deep (Nat.not_lt_zero _)
  | succ depth ih =>
    obtain ⟨depth', rfl⟩ := Nat.exists_eq_succ_of_ne_zero (Nat.ne_zero_of_lt deep')
    rw [visit_succ, visit_succ]
    rcases expanded : s.expand fixed p with ⟨p₁, _ | c⟩
    · rfl
    · obtain ⟨kept, dropped, branches⟩ :=
        exists_branches_of_expand itemized indexed coherent expanded
      have kept_lt := branches.kept_lt
      have dropped_lt := branches.dropped_lt
      have first : s.visit depth kept p₁ = s.visit depth' kept p₁ :=
        ih branches.kept_coherent (by omega) (by omega)
      dsimp only
      rw [branches.visitBranches_eq, branches.visitBranches_eq, first]
      congr 2
      funext p₂
      exact ih branches.dropped_coherent (by omega) (by omega)

end Lawful

end Search

/-! ### Exact pruning -/

section Thresholds

variable {κ : Type} [Scalar κ]

theorem checkThresholds_ne_searchLimitExceeded (thresholds : List κ) (limit : Nat) :
    checkThresholds thresholds ≠ .error (.searchLimitExceeded limit) := by
  intro exceeded
  unfold checkThresholds at exceeded
  split at exceeded
  · cases exceeded
  · split at exceeded <;> cases exceeded

theorem length_feasible_le (outline : Outline κ) (maxHoles : HoleBudget) (thresholds : List κ) :
    (outline.feasible maxHoles thresholds).length ≤ thresholds.length := by
  unfold Outline.feasible
  split
  · exact (List.takeWhile_sublist _).length_le
  · exact Nat.zero_le _

end Thresholds

namespace Node

variable {κ : Type} [Scalar κ] {t : Node κ} {maxHoles : HoleBudget} {limit n : Nat}
  {thresholds : List κ}

/-- The limit of exact pruning is that of its search only. -/
theorem pruneExact_eq (t : Node κ) (maxHoles : HoleBudget) (thresholds : List κ) :
    ∃ answer : Levels → List (Pruning κ), ∀ limit, t.pruneExact maxHoles limit thresholds
      = checkThresholds thresholds >>= fun _ =>
          (t.exactSearch maxHoles limit thresholds).run >>= fun levels => .ok (answer levels) :=
  ⟨_, fun _ => rfl⟩

/-- Exact pruning fails where the thresholds or the search do. -/
theorem of_pruneExact_eq_error {e : PruneError κ}
    (failed : t.pruneExact maxHoles limit thresholds = .error e) :
    checkThresholds thresholds = .error e ∨
      (t.exactSearch maxHoles limit thresholds).run = .error e := by
  obtain ⟨answer, eq⟩ := t.pruneExact_eq maxHoles thresholds
  rw [eq] at failed
  obtain unusable | ⟨_, -, failed⟩ := bind_eq_error_iff.1 failed
  · exact .inl unusable
  · obtain failed | ⟨levels, -, answered⟩ := bind_eq_error_iff.1 failed
    · exact .inr failed
    · cases answered

theorem run_of_pruneExact
    (exceeded : t.pruneExact maxHoles limit thresholds = .error (.searchLimitExceeded n)) :
    (t.exactSearch maxHoles limit thresholds).run = .error (.searchLimitExceeded n) :=
  (of_pruneExact_eq_error exceeded).resolve_left
    (checkThresholds_ne_searchLimitExceeded thresholds n)

/-- For usable thresholds there are two ways to fail. -/
theorem eq_of_pruneExact_eq_error {e : PruneError κ} (usable : checkThresholds thresholds = .ok ())
    (failed : t.pruneExact maxHoles limit thresholds = .error e) :
    e = .searchLimitExceeded limit ∨ e = .unsolved := by
  obtain unusable | failed := of_pruneExact_eq_error failed
  · rw [usable] at unusable
    cases unusable
  · exact (Search.eq_of_run_eq_error failed).imp_left Search.visit_eq_error

/-- Whatever comes out other than that the limit is exceeded comes out under a greater limit. -/
theorem pruneExact_of_le {limit' : Nat} (le : limit ≤ limit')
    (within : t.pruneExact maxHoles limit thresholds ≠ .error (.searchLimitExceeded limit)) :
    t.pruneExact maxHoles limit' thresholds = t.pruneExact maxHoles limit thresholds := by
  obtain ⟨answer, eq⟩ := t.pruneExact_eq maxHoles thresholds
  rw [eq] at within
  rw [eq, eq]
  cases usable : checkThresholds thresholds with
  | error e => rfl
  | ok _ =>
    rw [usable] at within
    have run_within : (t.exactSearch maxHoles limit thresholds).run
        ≠ .error (.searchLimitExceeded limit) := by
      intro exceeded
      rw [exceeded] at within
      exact within rfl
    have same : (t.exactSearch maxHoles limit' thresholds).run
        = (t.exactSearch maxHoles limit thresholds).run :=
      Search.run_of_le (s := t.exactSearch maxHoles limit thresholds) le run_within
    rw [same]

theorem items_exactSearch_le : (t.exactSearch maxHoles limit thresholds).items ≤ t.size := by
  have items_eq : (t.exactSearch maxHoles limit thresholds).items
      = sizeAll (itemsAllFrom 0 t.children) := rfl
  cases t with
  | node a ts =>
    rw [items_eq, children_node, sizeAll_itemsAllFrom, size_node, ← length_preorderAll]
    exact List.countP_le_length.trans (Nat.le_succ _)

theorem length_budgets_exactSearch_le :
    (t.exactSearch maxHoles limit thresholds).budgets.length ≤ thresholds.length :=
  length_budgets_exactSearch.trans_le (length_feasible_le _ maxHoles thresholds)

/-- Under one threshold the search ends with its first expansion. -/
theorem pruneExact_ne_of_length_le (one : thresholds.length ≤ 1) (pos : 1 ≤ limit) :
    t.pruneExact maxHoles limit thresholds ≠ .error (.searchLimitExceeded n) := by
  intro exceeded
  have one_start : (t.exactSearch maxHoles limit thresholds).start.length ≤ 1 :=
    (List.length_map _).trans_le (length_budgets_exactSearch_le.trans one)
  obtain ⟨p, visited⟩ :=
    Search.exists_visit_of_length_le (s := t.exactSearch maxHoles limit thresholds)
      (p := ⟨0, none⟩) one_start pos
      ((t.exactSearch maxHoles limit thresholds).items
        * (t.exactSearch maxHoles limit thresholds).budgets.length)
  exact Search.run_ne_searchLimitExceeded visited (run_of_pruneExact exceeded)

section Lawful

variable [LawfulCosts κ]

theorem pruneExact_ne_of_le (enough : 2 ^ (t.size * thresholds.length + 1) ≤ limit) :
    t.pruneExact maxHoles limit thresholds ≠ .error (.searchLimitExceeded n) := by
  intro exceeded
  let s := t.exactSearch maxHoles limit thresholds
  have few : s.undecided s.start < s.cutoff := Nat.lt_succ_of_le Search.undecided_le
  have le : s.cutoff ≤ t.size * thresholds.length + 1 :=
    Nat.succ_le_succ (Nat.mul_le_mul items_exactSearch_le length_budgets_exactSearch_le)
  have within : 0 + 2 ^ s.cutoff ≤ s.limit + 1 := by
    rw [Nat.zero_add]
    exact ((Nat.pow_le_pow_right Nat.two_pos le).trans enough).trans (Nat.le_succ limit)
  obtain ⟨p, visited, -⟩ := Search.exists_visit_eq_ok (s := s) (p := ⟨0, none⟩)
    (itemized_itemsAllFrom 0 t.children) rfl Search.coherent_start few few within
  exact Search.run_ne_searchLimitExceeded visited (run_of_pruneExact exceeded)

/-- The search limit turns answers into errors and does nothing else: what comes out within one limit
comes out within every greater one. There is a limit, by the size of the tree and the number
of thresholds, from which on it is never exceeded, and a single threshold stays within any limit
from one on. The depth to which the search is cut plays no part in this. -/
theorem pruneExact_limit (t : Node κ) (maxHoles : HoleBudget) (thresholds : List κ) :
    (∀ limit limit', limit ≤ limit' →
      t.pruneExact maxHoles limit thresholds ≠ .error (.searchLimitExceeded limit) →
        t.pruneExact maxHoles limit' thresholds = t.pruneExact maxHoles limit thresholds) ∧
    (∀ limit n, 2 ^ (t.size * thresholds.length + 1) ≤ limit →
      t.pruneExact maxHoles limit thresholds ≠ .error (.searchLimitExceeded n)) ∧
    (∀ limit n, thresholds.length ≤ 1 → 1 ≤ limit →
      t.pruneExact maxHoles limit thresholds ≠ .error (.searchLimitExceeded n)) ∧
    ∀ limit depth, (t.exactSearch maxHoles limit thresholds).cutoff ≤ depth →
      (t.exactSearch maxHoles limit thresholds).firstVisit depth
        = (t.exactSearch maxHoles limit thresholds).firstVisit
            (t.exactSearch maxHoles limit thresholds).cutoff := by
  refine ⟨fun _ _ => pruneExact_of_le, fun _ _ => pruneExact_ne_of_le,
    fun _ _ => pruneExact_ne_of_length_le, fun limit depth deep => ?_⟩
  let s := t.exactSearch maxHoles limit thresholds
  have few : s.undecided s.start < s.cutoff := Nat.lt_succ_of_le Search.undecided_le
  exact Search.visit_eq_visit (s := s) (itemized_itemsAllFrom 0 t.children) rfl
    Search.coherent_start (few.trans_le deep) few

end Lawful

/-! ### Thresholds in conflict -/

/-- A construct with a negative log-likelihood. -/
def weighing (nll : Float) : Construct Float :=
  { kind := default, code := "", span := default, nll := some nll }

/-- A root that costs nothing, with a dear node above three free ones, and two cheap leaves. -/
def tradeOff : Node Float :=
  node (weighing 0)
    [node (weighing 5) [leaf (weighing 0), leaf (weighing 0), leaf (weighing 0)],
     leaf (weighing 1), leaf (weighing 1)]

/-- A loose threshold alone prefers the dear node and a tight one the leaves. It takes five
expansions to find that out. -/
theorem pruneExact_limit_tradeOff :
    tradeOff.pruneExact none 4 [5, 2] = .error (.searchLimitExceeded 4) ∧
      ∃ results, tradeOff.pruneExact none 5 [5, 2] = .ok results ∧
        results.map (·.check) = [.sat, .sat] ∧
          ∀ limit, 5 ≤ limit → tradeOff.pruneExact none limit [5, 2] = .ok results := by
  have exceeds : (match tradeOff.pruneExact none 4 [5, 2] with
      | .error (.searchLimitExceeded limit) => some limit
      | _ => none) = some 4 := by
    decide +kernel
  have checks : (tradeOff.pruneExact none 5 [5, 2]).toOption.map
      (fun results => results.map (·.check)) = some [.sat, .sat] := by
    decide +kernel
  constructor
  · split at exceeds
    case h_1 limit failed => rw [failed, Option.some.inj exceeds]
    case h_2 => cases exceeds
  · cases ok : tradeOff.pruneExact none 5 [5, 2] with
    | error e =>
      rw [ok] at checks
      cases checks
    | ok results =>
      rw [ok] at checks
      refine ⟨results, rfl, Option.some.inj checks, fun limit le => ?_⟩
      rw [← ok]
      exact (pruneExact_limit tradeOff none [5, 2]).1 5 limit le (by rw [ok]; nofun)

end Node

end SureCode
