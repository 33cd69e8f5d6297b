import Mathlib
import SureCode.Proofs.Grammar.Reading

/-!
# Precedence

What reads as one operand, and where. A kind binds to the operand before it with some rank (`binds`)
and opens an operand of some rank (`opening`). Kinds read as an operand of a rank (`Reads`) if the
rules of this rank and of every lower one take over exactly these kinds, before whatever binds
looser. For the levels of binary operators, which group to the left, the rules go on from there
(`Continues`).
-/

namespace SureCode.Grammar

open Program Rule State

/-- How tightly a kind binds to the operand before it; nothing if it does not. -/
def binds : Kind → Nat
  | .ifKw => 1
  | .orKw => 2
  | .andKw => 3
  | .less | .greater | .lessEqual | .greaterEqual | .equalEqual | .notEqual | .inKw | .notKw
  | .isKw => 5
  | .pipe => 6
  | .caret => 7
  | .ampersand => 8
  | .shiftLeft | .shiftRight => 9
  | .plus | .minus => 10
  | .star | .slash | .doubleSlash | .percent | .atSign => 11
  | .doubleStar => 13
  | .dot | .leftParen | .leftBracket => 14
  | _ => 0

/-- The highest rank of the operands that a kind opens; nothing if it opens none of them. -/
def opening : Kind → Nat
  | .notKw => 4
  | .plus | .minus | .tilde => 12
  | .name | .intNumber | .leftParen => 14
  | _ => 0

section Kinds

variable {kinds : List Kind} {k : Kind} {rank : Nat}

theorem contains_of_binds (lt : binds k < rank) (all : ∀ j ∈ kinds, rank ≤ binds j) :
    kinds.contains k = false := by
  by_contra mem
  rw [Bool.not_eq_false, List.contains_iff_mem] at mem
  have := all k mem
  omega

theorem contains_of_opening (le : rank ≤ opening k) (all : ∀ j ∈ kinds, opening j < rank) :
    kinds.contains k = false := by
  by_contra mem
  rw [Bool.not_eq_false, List.contains_iff_mem] at mem
  have := all k mem
  omega

/-- No kind binds as tightly as a sign, which stands before its operand. -/
theorem binds_lt_of_le (le : binds k ≤ 12) : binds k < 12 := by
  have differs : binds k ≠ 12 := by cases k <;> decide
  omega

end Kinds

/-! ### Operands -/

/-- A rule takes over exactly some kinds as some marks, before whatever binds looser than a rank. -/
def Takes (rule : Rule) (rank : Nat) (ks : List Kind) (ms : List Mark) : Prop :=
  ∀ k rest kind built, binds k < rank →
    Runs rule (.facing (ks ++ k :: rest) kind built)
      (.facing (k :: rest) kind (ms.reverse ++ built))

/-- The rank of the operators of a level. -/
def Level.rank (level : Level) : Nat := 6 + level.ctorIdx

theorem Level.le_rank (level : Level) : 6 ≤ level.rank := Nat.le_add_right _ _

theorem Level.rank_le (level : Level) : level.rank ≤ 12 := by cases level <;> decide

/-- The rules of a level and of looser ones go on behind some kinds as behind one mark. -/
def Continues (level : Level) (ks : List Kind) (m : Mark) : Prop :=
  ∀ p k rest kind built t, Level.rank p ≤ level.rank → binds k ≤ level.rank →
    Runs (.binaryTail p) (.facing (k :: rest) kind (m :: built)) t →
      Runs (.binary p) (.facing (ks ++ k :: rest) kind built) t

/-- The rule for the operands of a rank. -/
def ruleAt : Nat → Rule
  | 0 | 1 => .expr
  | 2 => .disjunction
  | 3 => .conjunction
  | 4 => .inversion
  | 5 => .comparison
  | 6 => .binary .bitOr
  | 7 => .binary .bitXor
  | 8 => .binary .bitAnd
  | 9 => .binary .shift
  | 10 => .binary .sum
  | 11 => .binary .product
  | 12 => .factor
  | 13 => .power
  | _ => .primary

/-- Kinds read as an operand of a rank, and so as one of every lower rank. -/
structure Reads (rank : Nat) (ks : List Kind) (m : Mark) : Prop where
  opens : ∃ k rest, ks = k :: rest ∧ rank ≤ opening k
  plain : .walrus ∉ ks
  takes : ∀ r ≤ rank, Takes (ruleAt r) r ks [m]
  continues : ∀ level : Level, level.rank ≤ rank → Continues level ks m

variable {ks : List Kind} {m : Mark} {rank : Nat} {k : Kind} {rest : List Kind} {kind : Kind}
  {built : List Mark}

/-- Where a kind binds looser than all that is asked for, the last program runs. -/
theorem does_choose_of_binds {cases_ : List (List Kind × Program Rule)} {p : Program Rule}
    {t : State} (looser : binds k < rank) (all : ∀ entry ∈ cases_, ∀ j ∈ entry.1, rank ≤ binds j)
    (does : Does p (.facing (k :: rest) kind built) t) :
    Does (choose cases_ p) (.facing (k :: rest) kind built) t := by
  refine .choose ?_
  rw [List.find?_eq_none.2 fun entry mem =>
    Bool.eq_false_iff.1 (contains_of_binds looser (all entry mem))]
  exact does

/-- The rules of a level stop before what binds looser. -/
theorem runs_binaryTail {level : Level} (looser : binds k < level.rank) :
    Runs (.binaryTail level) (.facing (k :: rest) kind built) (.facing (k :: rest) kind built) := by
  have tighter : ∀ entry ∈ level.operators, ∀ j ∈ entry.1, level.rank ≤ binds j := by
    cases level <;> decide
  exact .intro (does_choose_of_binds looser (List.forall_mem_map.2 tighter) (.done _))

/-- Nothing follows an atom before what binds looser. -/
theorem runs_trailers (looser : binds k < 14) :
    Runs .trailers (.facing (k :: rest) kind built) (.facing (k :: rest) kind built) := by
  exact .intro (does_choose_of_binds looser (by simp [binds]) (.done _))

theorem Continues.takes {level : Level} (continues : Continues level ks m) :
    Takes (.binary level) level.rank ks [m] := fun k rest kind built looser =>
  continues level k rest kind built _ le_rfl looser.le (runs_binaryTail looser)

/-- What is taken over as a factor is an operand of all binary operators. -/
theorem Takes.continues (takes : Takes .factor 12 ks [m]) (level : Level) : Continues level ks m :=
  fun p k rest kind built t le looser runs => by
    have unary := binds_lt_of_le (looser.trans level.rank_le)
    exact .intro (.seq (takes k rest kind built unary) (.call runs))

/-- An operand of a rank below the binary operators is one of the next lower rank. -/
theorem Takes.pred {r : Nat} (below : r < 6) (opens : ∃ k rest, ks = k :: rest ∧ r + 1 ≤ opening k)
    (takes : Takes (ruleAt (r + 1)) (r + 1) ks [m]) : Takes (ruleAt r) r ks [m] := by
  obtain ⟨first, others, rfl, le⟩ := opens
  intro k rest kind built looser
  have here := takes k rest kind built (by omega)
  match r, below with
  | 0, _ => omega
  | 1, _ =>
    exact .intro (.no (contains_of_opening le (by decide))
      (.seq (.require here) (.skip (contains_of_binds looser (by decide)))))
  | 2, _ => exact .intro (.seq (.require here) (.skip (contains_of_binds looser (by decide))))
  | 3, _ => exact .intro (.seq (.require here) (.skip (contains_of_binds looser (by decide))))
  | 4, _ => exact .intro (.no (contains_of_opening le (by decide)) (.require here))
  | 5, _ =>
    have unnegated :
        (facing (k :: rest) kind (m :: built)).sees ⟨[.notKw], some [.inKw]⟩ = false := by
      rw [sees_facing, contains_of_binds looser (by decide), Bool.false_and]
    exact .intro (.seq (.require (.intro (.require here)))
      (.branch unnegated (.skip (contains_of_binds looser (by decide)))))

/-- The rank of a binary operator is that of a level. -/
theorem exists_level {r : Nat} (least : 6 ≤ r) (most : r ≤ 11) :
    ∃ level : Level, level.rank = r ∧ ruleAt r = .binary level := by
  interval_cases r
  exacts [⟨.bitOr, rfl, rfl⟩, ⟨.bitXor, rfl, rfl⟩, ⟨.bitAnd, rfl, rfl⟩, ⟨.shift, rfl, rfl⟩,
    ⟨.sum, rfl, rfl⟩, ⟨.product, rfl, rfl⟩]

namespace Reads

variable {level : Level}

theorem mono {r : Nat} (reads : Reads rank ks m) (le : r ≤ rank) : Reads r ks m where
  opens := by
    obtain ⟨k, rest, eq, opens⟩ := reads.opens
    exact ⟨k, rest, eq, le.trans opens⟩
  plain := reads.plain
  takes r' le' := reads.takes r' (le'.trans le)
  continues level le' := reads.continues level (le'.trans le)

/-- What is taken over below the binary operators. -/
theorem of_low (opens : ∃ k rest, ks = k :: rest ∧ rank ≤ opening k) (plain : .walrus ∉ ks)
    (low : rank ≤ 6) (takes : Takes (ruleAt rank) rank ks [m])
    (continues : ∀ level : Level, level.rank ≤ rank → Continues level ks m) : Reads rank ks m where
  opens := opens
  plain := plain
  continues := continues
  takes r le := by
    obtain ⟨k, rest, eq, le_opening⟩ := opens
    exact Nat.decreasingInduction'
      (fun r lt _ above => above.pred (by omega) ⟨k, rest, eq, by omega⟩) le takes

/-- What is taken over by the binary operators of a level. -/
theorem of_continues (opens : ∃ k rest, ks = k :: rest ∧ level.rank ≤ opening k)
    (plain : .walrus ∉ ks) (below : level.rank ≤ 11) (continues : Continues level ks m) :
    Reads level.rank ks m := by
  have levels (p : Level) (le : p.rank ≤ level.rank) : Continues p ks m :=
    fun q k rest kind built t le' looser =>
      continues q k rest kind built t (le'.trans le) (looser.trans le)
  have low : Reads 6 ks m := by
    obtain ⟨k, rest, eq, le⟩ := opens
    exact of_low ⟨k, rest, eq, level.le_rank.trans le⟩ plain le_rfl
      (levels .bitOr level.le_rank).takes fun p le => levels p (le.trans level.le_rank)
  refine ⟨opens, plain, fun r le => ?_, levels⟩
  rcases Nat.le_total r 6 with small | large
  · exact low.takes r small
  · obtain ⟨p, rfl, rule⟩ := exists_level large (le.trans below)
    rw [rule]
    exact (levels p le).takes

/-- An operand of a rank that the rule of the next rank takes over is one of that rank. -/
theorem succ (looser : Reads rank ks m)
    (opens : ∃ k rest, ks = k :: rest ∧ rank + 1 ≤ opening k)
    (takes : Takes (ruleAt (rank + 1)) (rank + 1) ks [m])
    (continues : ∀ level : Level, level.rank = rank + 1 → Continues level ks m) :
    Reads (rank + 1) ks m where
  opens := opens
  plain := looser.plain
  takes r le := by
    rcases le.eq_or_lt with rfl | lt
    · exact takes
    · exact looser.takes r (Nat.le_of_lt_succ lt)
  continues level le := by
    rcases le.eq_or_lt with eq | lt
    · exact continues level eq
    · exact looser.continues level (Nat.le_of_lt_succ lt)

theorem of_factor (opens : ∃ k rest, ks = k :: rest ∧ 12 ≤ opening k) (plain : .walrus ∉ ks)
    (takes : Takes .factor 12 ks [m]) : Reads 12 ks m := by
  have products : Reads 11 ks m := by
    obtain ⟨k, rest, eq, le⟩ := opens
    have loose : Level.product.rank ≤ opening k := Nat.le_of_lt le
    exact of_continues ⟨k, rest, eq, loose⟩ plain le_rfl (takes.continues .product)
  exact products.succ opens takes fun level _ => takes.continues level

theorem of_power (opens : ∃ k rest, ks = k :: rest ∧ 13 ≤ opening k) (plain : .walrus ∉ ks)
    (takes : Takes .power 13 ks [m]) : Reads 13 ks m := by
  have factor : Reads 12 ks m := by
    obtain ⟨first, others, rfl, le⟩ := opens
    refine of_factor ⟨first, others, rfl, Nat.le_of_lt le⟩ plain fun k rest kind built looser => ?_
    exact .intro (.no (contains_of_opening le (by decide))
      (.require (takes k rest kind built (looser.trans (Nat.lt_succ_self 12)))))
  exact factor.succ opens takes fun level eq => absurd eq (level.rank_le.trans_lt (by decide)).ne

theorem of_primary (opens : ∃ k rest, ks = k :: rest ∧ 14 ≤ opening k) (plain : .walrus ∉ ks)
    (takes : Takes .primary 14 ks [m]) : Reads 14 ks m := by
  have power : Reads 13 ks m := by
    obtain ⟨first, others, rfl, le⟩ := opens
    refine of_power ⟨first, others, rfl, Nat.le_of_lt le⟩ plain fun k rest kind built looser => ?_
    exact .intro (.seq (.require (takes k rest kind built (looser.trans (Nat.lt_succ_self 13))))
      (.skip (contains_of_binds looser (by decide))))
  exact power.succ opens takes fun level eq => absurd eq (level.rank_le.trans_lt (by decide)).ne

end Reads

end SureCode.Grammar
