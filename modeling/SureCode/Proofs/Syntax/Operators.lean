import Mathlib
import SureCode.Proofs.Syntax.Expression
import SureCode.Proofs.Syntax.Precedence

/-!
# Operators

How every kind of expression reads, given how its operands do: one lemma for each operator, with the
rank it has and the ranks its operands must have.
-/

namespace SureCode

open Grammar

/-! ### Levels of binary operators -/

namespace Operator

/-- The level of an operator. -/
def level : Operator → Level
  | bitOr => .bitOr
  | bitXor => .bitXor
  | bitAnd => .bitAnd
  | shiftLeft | shiftRight => .shift
  | add | subtract => .sum
  | multiply | divide | floorDivide | remainder | matrixMultiply => .product

/-- The level of its right operand. -/
def next : Operator → Level
  | bitOr => .bitXor
  | bitXor => .bitAnd
  | bitAnd => .shift
  | shiftLeft | shiftRight => .sum
  | add | subtract => .product
  | multiply | divide | floorDivide | remainder | matrixMultiply => .unary

theorem rank_level (o : Operator) : o.level.rank = o.rank := by cases o <;> rfl

theorem rank_next (o : Operator) : o.next.rank = o.rank + 1 := by cases o <;> rfl

theorem binds_kind (o : Operator) : binds o.word.kind = o.rank := by cases o <;> rfl

/-- The rules of all levels that are no tighter know an operator. -/
theorem find?_operators (o : Operator) {p : Level} (le : p.rank ≤ o.rank) :
    ∃ group, p.operators.find? (·.1.contains o.word.kind) = some (group, o.next) := by
  cases o <;> cases p <;> first | exact ⟨_, rfl⟩ | exact absurd le (by decide)

end Operator

/-- The kinds of a comparison. -/
def Comparison.kinds (c : Comparison) : List Kind := c.words.map (·.kind)

/-! ### Rules of chains -/

namespace Junction

/-- The rule for the operands of a chain. -/
def operandRule : Junction → Rule
  | or => .conjunction
  | and => .inversion

/-- The rule for the operands of a chain behind the first. -/
def tailRule : Junction → Rule
  | or => .orTail
  | and => .andTail

variable (j : Junction)

theorem ruleAt_succ : ruleAt (j.rank + 1) = j.operandRule := by cases j <;> rfl

theorem binds_kind : binds j.word.kind = j.rank := by cases j <;> rfl

theorem rank_le : j.rank ≤ 6 := by cases j <;> decide

theorem lexeme : j.word.kind ≠ .eof ∧ j.word.kind ≠ .walrus := by cases j <;> decide

theorem program_ruleAt :
    (ruleAt j.rank).program = Rule.chain j.word.kind j.operandRule j.tailRule := by
  cases j <;> rfl

theorem program_tailRule :
    j.tailRule.program = Rule.chainTail j.word.kind j.operandRule j.tailRule := by
  cases j <;> rfl

end Junction

namespace Grammar

open Program Rule State

variable {ks ls rest : List Kind} {m n : Mark} {rank : Nat} {k op kind : Kind} {built : List Mark}
  {t : State}

theorem exists_opening_append (opens : ∃ k rest, ks = k :: rest ∧ rank ≤ opening k) :
    ∃ k rest, ks ++ ls = k :: rest ∧ rank ≤ opening k := by
  obtain ⟨k, rest, rfl, le⟩ := opens
  exact ⟨k, rest ++ ls, rfl, le⟩

theorem walrus_notMem_cons (differs : op ≠ .walrus) (plain : .walrus ∉ ls) :
    .walrus ∉ op :: ls := by
  simp [plain, differs.symm]

theorem walrus_notMem (plain : .walrus ∉ ks) (plain' : .walrus ∉ ls) : .walrus ∉ ks ++ ls := by
  simp [plain, plain']

namespace Reads

/-! ### Atoms -/

theorem of_token (kind : Kind) (opens : 14 ≤ opening op) (plain : op ≠ .walrus)
    (atom : ∀ k rest kind' built, Does atomBody (.facing (op :: k :: rest) kind' built)
      (.facing (k :: rest) kind' (.construct kind [.of op] :: built))) :
    Reads 14 [op] (.construct kind [.of op]) := by
  refine of_primary ⟨_, _, rfl, opens⟩ (by simpa using plain.symm)
    fun k rest kind' built looser => ?_
  exact .intro (.seq (.require (.intro (atom k rest kind' built))) (.call (runs_trailers looser)))

theorem name : Reads 14 [.name] (.construct .ident [.of .name]) :=
  of_token .ident (by decide) (by decide) fun _ _ _ _ =>
    .choose (.mark (.take (by decide) (by simp)))

theorem number : Reads 14 [.intNumber] (.construct .constant [.of .intNumber]) :=
  of_token .constant (by decide) (by decide) fun _ _ _ _ =>
    .choose (.mark (.take (by decide) (by simp)))

/-! ### Brackets -/

/-- An expression is taken over where a named expression could be. -/
theorem runs_namedExpr (reads : Reads 1 ks m) (loose : binds k < 1) (plain : k ≠ .walrus) :
    Runs .namedExpr (.facing (ks ++ k :: rest) kind built)
      (.facing (k :: rest) kind (m :: built)) := by
  have unnamed : (facing (ks ++ k :: rest) kind built).sees ⟨[.name], some [.walrus]⟩ = false := by
    obtain ⟨first, others, rfl, -⟩ := reads.opens
    have other : .walrus ≠ ((others ++ k :: rest).headD .eof) := by
      cases others with
      | nil => exact plain.symm
      | cons second others =>
        rintro rfl
        exact reads.plain (by simp)
    rw [List.cons_append, sees_facing, Bool.and_eq_false_iff]
    exact .inr (Bool.eq_false_iff.2 fun mem =>
      other (List.mem_singleton.1 (List.contains_iff_mem.1 mem)).symm)
  exact .intro (.branch unnamed (.require (reads.takes 1 le_rfl k rest kind built loose)))

/-- An expression is taken over where a starred one could be. -/
theorem runs_starNamed (reads : Reads 1 ks m) (loose : binds k < 1) (plain : k ≠ .walrus) :
    Runs .starNamed (.facing (ks ++ k :: rest) kind built)
      (.facing (k :: rest) kind (m :: built)) := by
  have named := @runs_namedExpr ks rest m k kind built reads loose plain
  obtain ⟨first, others, rfl, le⟩ := reads.opens
  exact .intro (.no (contains_of_opening le (by decide)) (.require named))

theorem bracketed (reads : Reads 1 ks m) :
    Reads 14 (.leftParen :: (ks ++ [.rightParen]))
      (.construct .parenExpr [.of .leftParen, m, .of .rightParen]) := by
  refine of_primary ⟨_, _, rfl, by decide⟩ (by simp [reads.plain])
    fun k rest kind built looser => ?_
  have inner := @runs_starNamed ks (k :: rest) m .rightParen .parenExpr [.of .leftParen] reads
    (by decide) (by decide)
  have body : Does parenthesizedBody
      (.facing (.leftParen :: (ks ++ .rightParen :: k :: rest)) .parenExpr [])
      (.facing (k :: rest) .parenExpr [.of .rightParen, m, .of .leftParen]) := by
    refine .seq (.take (by decide) (by simp)) ?_
    obtain ⟨first, others, rfl, le⟩ := reads.opens
    refine .no (contains_of_opening le (by decide)) (.no (contains_of_opening le (by decide)) ?_)
    exact .seq (.seq (.call inner) (.choose (.done _))) (.expect (by decide) (by simp) _)
  rw [List.cons_append, List.append_assoc]
  exact .intro (.seq (.require (.intro (.choose (.mark (.call (.intro body))))))
    (.call (runs_trailers looser)))

/-! ### Operators between operands -/

theorem power (base : Reads 14 ks m) (exponent : Reads 12 ls n) :
    Reads 13 (ks ++ .doubleStar :: ls) (.construct .binOp [m, .of .doubleStar, n]) := by
  refine of_power (exists_opening_append (base.mono (by decide)).opens)
    (walrus_notMem base.plain (walrus_notMem_cons (by decide) exponent.plain))
    fun k rest kind built looser => ?_
  have first := base.takes 14 le_rfl .doubleStar (ls ++ k :: rest) kind built (by decide)
  have second := exponent.takes 12 le_rfl k rest .binOp [.of .doubleStar, m]
    (binds_lt_of_le (Nat.le_of_lt_succ looser))
  rw [List.append_assoc]
  exact .intro (.seq (.require first) (.yes rfl (.wrap (.seq (.take (by decide) (by simp))
    (.call second)))))

theorem signed (operand : Reads 12 ks m) (sign : [.plus, .minus, .tilde].contains op = true) :
    Reads 12 (op :: ks) (.construct .unaryOp [.of op, m]) := by
  have opens : 12 ≤ opening op ∧ op ≠ .walrus ∧ op ≠ .eof := by
    rw [List.contains_iff_mem] at sign
    revert sign op
    decide
  refine of_factor ⟨op, ks, rfl, opens.1⟩ (walrus_notMem_cons opens.2.1 operand.plain)
    fun k rest kind built looser => ?_
  exact .intro (.yes sign (.mark (.seq (.take opens.2.2 (by simp))
    (.call (operand.takes 12 le_rfl k rest .unaryOp [.of op] looser)))))

theorem negated (operand : Reads 4 ks m) :
    Reads 4 (.notKw :: ks) (.construct .unaryOp [.of .notKw, m]) := by
  refine of_low ⟨.notKw, ks, rfl, by decide⟩
    (walrus_notMem_cons (by decide) operand.plain) (by decide)
    (fun k rest kind built looser => ?_) fun level le => absurd (level.le_rank.trans le) (by decide)
  exact .intro (.yes rfl (.mark (.seq (.take (by decide) (by simp))
    (.call (operand.takes 4 le_rfl k rest .unaryOp [.of .notKw] looser)))))

theorem conditional {os : List Kind} {o : Mark} (body : Reads 2 ks m) (test : Reads 2 ls n)
    (other : Reads 1 os o) :
    Reads 1 (ks ++ .ifKw :: (ls ++ .elseKw :: os))
      (.construct .ifExp [m, .of .ifKw, n, .of .elseKw, o]) := by
  refine of_low (exists_opening_append (body.mono (by decide)).opens)
    (walrus_notMem body.plain (walrus_notMem_cons (by decide)
      (walrus_notMem test.plain (walrus_notMem_cons (by decide) other.plain))))
    (by decide) (fun k rest kind built looser => ?_)
    fun level le => absurd (level.le_rank.trans le) (by decide)
  have first := body.takes 2 le_rfl .ifKw (ls ++ .elseKw :: (os ++ k :: rest)) kind built
    (by decide)
  have second := test.takes 2 le_rfl .elseKw (os ++ k :: rest) .ifExp [.of .ifKw, m] (by decide)
  have third := other.takes 1 le_rfl k rest .ifExp [.of .elseKw, n, .of .ifKw, m] looser
  have begins : ∃ k rest, ks = k :: rest ∧ 2 ≤ opening k := body.opens
  simp only [List.append_assoc, List.cons_append]
  obtain ⟨begin, more, rfl, le⟩ := begins
  exact .intro (.no (contains_of_opening le (by decide)) (.seq (.require first)
    (.yes rfl (.wrap (.seq (.seq (.seq (.take (by decide) (by simp)) (.call second))
      (.expect (by decide) (by simp) _)) (.call third))))))

/-- A binary operator, which groups to the left. -/
theorem binary (o : Operator) (left : Reads o.rank ks m) (right : Reads (o.rank + 1) ls n) :
    Reads o.rank (ks ++ o.word.kind :: ls) (.construct .binOp [m, .of o.word.kind, n]) := by
  have lexeme : o.word.kind ≠ .eof ∧ o.word.kind ≠ .walrus := by cases o <;> decide
  have below : o.rank ≤ 11 := by cases o <;> decide
  rw [← o.rank_level] at left below ⊢
  refine of_continues (exists_opening_append left.opens)
    (walrus_notMem left.plain (walrus_notMem_cons lexeme.2 right.plain)) below
    fun p k rest kind built t le looser runs => ?_
  have second := (right.continues o.next o.rank_next.le).takes k rest .binOp [.of o.word.kind, m]
    (by rw [o.rank_next, ← o.rank_level]; exact Nat.lt_succ_of_le looser)
  have tail : Runs (.binaryTail p)
      (facing (o.word.kind :: (ls ++ k :: rest)) kind (m :: built)) t := by
    obtain ⟨group, row⟩ := o.find?_operators (o.rank_level ▸ le)
    refine .intro (.choose ?_)
    rw [List.find?_map]
    change Does (((p.operators.find? (·.1.contains o.word.kind)).map _).elim _ _) _ _
    rw [row]
    exact .seq (.wrap (.seq (.take lexeme.1 (by simp)) (.call second))) (.call runs)
  rw [List.append_assoc]
  exact left.continues o.level le_rfl p o.word.kind (ls ++ k :: rest) kind built t le
    (by rw [o.binds_kind, o.rank_level]) tail

end Reads

/-! ### Chains of `and` and `or` -/

/-- Kinds read as the operands of a chain behind the first. -/
structure Joins (j : Junction) (ks : List Kind) (ms : List Mark) : Prop where
  begins : ∃ rest, ks = j.word.kind :: rest
  plain : .walrus ∉ ks
  takes : Takes j.tailRule j.rank ks ms

section Junctions

variable {j : Junction} {ns : List Mark}

theorem Reads.takes_operand (reads : Reads (j.rank + 1) ks m) :
    Takes j.operandRule (j.rank + 1) ks [m] := by
  rw [← j.ruleAt_succ]
  exact reads.takes (j.rank + 1) le_rfl

/-- One more operand is taken over before what goes on with the chain. -/
theorem runs_tailRule (reads : Reads (j.rank + 1) ks m) (looser : binds k < j.rank + 1)
    (runs : Runs j.tailRule (.facing (k :: rest) kind (m :: .of j.word.kind :: built)) t) :
    Runs j.tailRule (.facing (j.word.kind :: (ks ++ k :: rest)) kind built) t := by
  have operand := reads.takes_operand k rest kind (.of j.word.kind :: built) looser
  refine .intro ?_
  rw [j.program_tailRule]
  exact .yes (by simp) (.seq (.seq (.take j.lexeme.1 (by simp)) (.call operand)) (.call runs))

theorem runs_tailRule_end (looser : binds k < j.rank) :
    Runs j.tailRule (.facing (k :: rest) kind built) (.facing (k :: rest) kind built) := by
  refine .intro ?_
  rw [j.program_tailRule]
  exact .skip (contains_of_binds looser (by simp [j.binds_kind]))

theorem Joins.last (reads : Reads (j.rank + 1) ks m) :
    Joins j (j.word.kind :: ks) [.of j.word.kind, m] where
  begins := ⟨ks, rfl⟩
  plain := walrus_notMem_cons j.lexeme.2 reads.plain
  takes _ _ _ _ looser :=
    runs_tailRule reads (looser.trans (Nat.lt_succ_self _)) (runs_tailRule_end looser)

theorem Joins.more (reads : Reads (j.rank + 1) ks m) (joins : Joins j ls ns) :
    Joins j (j.word.kind :: (ks ++ ls)) (.of j.word.kind :: m :: ns) where
  begins := ⟨ks ++ ls, rfl⟩
  plain := walrus_notMem_cons j.lexeme.2 (walrus_notMem reads.plain joins.plain)
  takes k rest kind built looser := by
    obtain ⟨others, rfl⟩ := joins.begins
    have later := joins.takes k rest kind (m :: .of j.word.kind :: built) looser
    have here := runs_tailRule reads (j.binds_kind.trans_lt (Nat.lt_succ_self _)) later
    simpa using here

/-- A chain of operands, flat in one construct. -/
theorem Reads.joined (reads : Reads (j.rank + 1) ks m) (joins : Joins j ls ns) :
    Reads j.rank (ks ++ ls) (.construct .boolOp (m :: ns)) := by
  obtain ⟨others, rfl⟩ := joins.begins
  refine of_low (exists_opening_append (reads.mono (Nat.le_succ _)).opens)
    (walrus_notMem reads.plain joins.plain) j.rank_le
    (fun k rest kind built looser => ?_)
    fun level le => absurd (level.le_rank.trans le) (by cases j <;> decide)
  have first := reads.takes_operand j.word.kind (others ++ k :: rest) kind built
    (j.binds_kind.trans_lt (Nat.lt_succ_self _))
  have later := joins.takes k rest .boolOp [m] looser
  have joined : Does (chain j.word.kind j.operandRule j.tailRule)
      (facing (ks ++ j.word.kind :: (others ++ k :: rest)) kind built)
      (facing (k :: rest) kind (.construct .boolOp (ns.reverse ++ [m]).reverse :: built)) :=
    .seq (.require first) (.yes (by simp) (.wrap (.call later)))
  refine .intro ?_
  rw [j.program_ruleAt, List.append_assoc]
  simpa using joined

end Junctions

/-! ### Chains of comparisons -/

section Comparisons

variable {c : Comparison} {ns : List Mark}

/-- The tokens of a comparison are taken over before its right operand. -/
theorem does_comparisons (c : Comparison)
    (opens : ∃ first more, ls = first :: more ∧ 6 ≤ opening first)
    (operand : Does (call .bitOr ++ call .comparisonTail)
      (facing ls kind ((c.kinds.map Mark.of).reverse ++ built)) t) :
    Does comparisons (.facing (c.kinds ++ ls) kind built) t := by
  obtain ⟨first, more, rfl, le⟩ := opens
  cases c with
  | notMember =>
    exact .branch (b := true) rfl (.seq (.seq (.take (by decide) (by simp))
      (.take (by decide) (by simp))) operand)
  | same =>
    have unnegated : [Kind.notKw].contains first = false := contains_of_opening le (by decide)
    exact .branch (b := false) rfl (.choose (.seq (.seq (.take (by decide) (by simp))
      (.skip unnegated)) operand))
  | notSame =>
    exact .branch (b := false) rfl (.choose (.seq (.seq (.take (by decide) (by simp))
      (.yes rfl (.take (by decide) (by simp)))) operand))
  | less | greater | lessEqual | greaterEqual | equal | notEqual | member =>
    exact .branch (b := false) rfl (.choose (.seq (.take (by decide) (by simp)) operand))

/-- A comparison begins a chain. -/
theorem does_chained (c : Comparison)
    (chain : Does (wrap .compare (call .comparisonTail)) (.facing (c.kinds ++ ls) kind built) t) :
    Does (Program.branch ⟨[.notKw], some [.inKw]⟩ (wrap .compare (call .comparisonTail))
        (when (.isKw :: plainComparisons) (wrap .compare (call .comparisonTail))))
      (.facing (c.kinds ++ ls) kind built) t := by
  cases c with
  | notMember => exact .branch (b := true) rfl chain
  | _ => exact .branch (b := false) rfl (.yes rfl chain)

/-- Kinds read as the comparisons of a chain with their right operands. -/
structure Compares (ks : List Kind) (ms : List Mark) : Prop where
  begins : ∃ (c : Comparison) (rest : List Kind), ks = c.kinds ++ rest
  plain : .walrus ∉ ks
  takes : Takes .comparisonTail 5 ks ms

theorem exists_binds (c : Comparison) :
    ∃ first more, c.kinds = first :: more ∧ binds first = 5 := by
  cases c <;> exact ⟨_, _, rfl, rfl⟩

theorem plain_kinds (c : Comparison) : .walrus ∉ c.kinds := by cases c <;> decide

/-- One more comparison is taken over before what goes on with the chain. -/
theorem runs_comparisonTail (c : Comparison) (reads : Reads 6 ks m) (looser : binds k < 6)
    (runs : Runs .comparisonTail
      (.facing (k :: rest) kind (m :: (c.kinds.map Mark.of).reverse ++ built)) t) :
    Runs .comparisonTail (.facing (c.kinds ++ (ks ++ k :: rest)) kind built) t := by
  have operand := reads.takes 6 le_rfl k rest kind ((c.kinds.map Mark.of).reverse ++ built) looser
  exact .intro (does_comparisons c (exists_opening_append reads.opens)
    (.seq (.call (.intro (.require operand))) (.call runs)))

theorem runs_comparisonTail_end (looser : binds k < 5) :
    Runs .comparisonTail (.facing (k :: rest) kind built) (.facing (k :: rest) kind built) := by
  have unnegated : (facing (k :: rest) kind built).sees ⟨[.notKw], some [.inKw]⟩ = false := by
    rw [sees_facing, contains_of_binds looser (by decide), Bool.false_and]
  exact .intro (.branch unnegated (does_choose_of_binds looser (by decide) (.done _)))

theorem Compares.last (c : Comparison) (reads : Reads 6 ks m) :
    Compares (c.kinds ++ ks) (c.kinds.map Mark.of ++ [m]) where
  begins := ⟨c, ks, rfl⟩
  plain := walrus_notMem (plain_kinds c) reads.plain
  takes k rest kind built looser := by
    have ended : Runs .comparisonTail
        (facing (k :: rest) kind (m :: (c.kinds.map Mark.of).reverse ++ built)) _ :=
      runs_comparisonTail_end looser
    have here := runs_comparisonTail c reads (looser.trans (Nat.lt_succ_self 5)) ended
    simpa using here

theorem Compares.more (c : Comparison) (reads : Reads 6 ks m) (compares : Compares ls ns) :
    Compares (c.kinds ++ (ks ++ ls)) (c.kinds.map Mark.of ++ m :: ns) where
  begins := ⟨c, ks ++ ls, rfl⟩
  plain := walrus_notMem (plain_kinds c) (walrus_notMem reads.plain compares.plain)
  takes k rest kind built looser := by
    obtain ⟨d, others, rfl⟩ := compares.begins
    obtain ⟨first, more, eq, binds_eq⟩ := exists_binds d
    have later := compares.takes k rest kind (m :: (c.kinds.map Mark.of).reverse ++ built) looser
    rw [eq] at later ⊢
    have here := runs_comparisonTail c reads (binds_eq.trans_lt (Nat.lt_succ_self 5)) later
    simpa using here

/-- A chain of comparisons, flat in one construct. -/
theorem Reads.compared (reads : Reads 6 ks m) (compares : Compares ls ns) :
    Reads 5 (ks ++ ls) (.construct .compare (m :: ns)) := by
  refine of_low (exists_opening_append (reads.mono (by decide)).opens)
    (walrus_notMem reads.plain compares.plain) (by decide) (fun k rest kind built looser => ?_)
    fun level le => absurd (level.le_rank.trans le) (by decide)
  obtain ⟨c, others, rfl⟩ := compares.begins
  obtain ⟨first, more, eq, binds_eq⟩ := exists_binds c
  have operand := reads.takes 6 le_rfl first (more ++ (others ++ k :: rest)) kind built
    (binds_eq.trans_lt (Nat.lt_succ_self 5))
  have later := compares.takes k rest .compare [m] looser
  rw [List.append_assoc] at later
  have chain : Does _ (facing (c.kinds ++ (others ++ k :: rest)) kind (m :: built)) _ :=
    does_chained c (.wrap (.call later))
  rw [eq] at chain
  have bitOr : Runs .bitOr _ _ := .intro (.require operand)
  have whole : Runs .comparison _ _ := .intro (.seq (.require bitOr) chain)
  change Runs .comparison _ _
  simpa [eq] using whole

end Comparisons

end Grammar

end SureCode
