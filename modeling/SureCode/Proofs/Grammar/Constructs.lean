import Mathlib
import SureCode.Proofs.Grammar.Mark
import SureCode.Proofs.Grammar.Rules
import SureCode.Proofs.Tree.Index

/-!
# The kinds of constructs

A run marks constructs only of the kinds that stand in the programs (`Program.names`), and only some
rules may change the kind of the construct around them (`Program.renames`); both can be read off the
programs. So the mark of a text is a module, with constructs inside it that are no tokens
(`exists_module`). The nodes that marks come to are never of a transparent kind and never around a
single node of the same span (`settled_nodesAll`).
-/

namespace SureCode

/-- Kinds of tokens, which come before all kinds of constructs. -/
def Kind.isToken (kind : Kind) : Bool := kind.number < moduleBody.number

/-- Kinds that a construct can be completed with. -/
def Kind.isConstruct (kind : Kind) : Bool := !kind.isToken && kind != .tombstone

namespace Grammar

variable {ρ : Type}

/-! ### The names in programs -/

namespace Program

/-- The kinds that a program gives to constructs. -/
def names : Program ρ → List Kind
  | mark kind body | wrap kind body => kind :: names body
  | become kind => [kind]
  | branch _ yes no => names yes ++ names no
  | seq first second => names first ++ names second
  | _ => []

/-- Whether a program may change the kind of the construct around it, given the rules that may. -/
def renames (known : ρ → Bool) : Program ρ → Bool
  | call rule | require rule => known rule
  | become _ => true
  | branch _ yes no => renames known yes || renames known no
  | seq first second => renames known first || renames known second
  | _ => false

end Program

variable {kinds : Kind → Prop} {known : ρ → Bool} {run : ρ → State → Option (Bool × State)}
  {s t u : State} {result : Bool × State}

/-- The constructs that a run adds are of certain kinds, and so is the construct around it if the run
may change that. -/
structure Names (kinds : Kind → Prop) (renamed : Bool) (s t : State) : Prop where
  built : Mark.Named kinds s.built → Mark.Named kinds t.built
  kind : t.kind = s.kind ∨ renamed = true ∧ kinds t.kind

namespace Names

variable {renamed renamed' : Bool}

theorem refl (s : State) : Names kinds renamed s s := ⟨id, .inl rfl⟩

theorem mono (names : Names kinds renamed s t) (more : renamed = true → renamed' = true) :
    Names kinds renamed' s t :=
  ⟨names.built, names.kind.imp_right fun named => ⟨more named.1, named.2⟩⟩

theorem trans (first : Names kinds renamed s t) (second : Names kinds renamed' t u) :
    Names kinds (renamed || renamed') s u := by
  refine ⟨second.built ∘ first.built, ?_⟩
  rcases second.kind with same | ⟨may, named⟩
  · rw [same]
    exact first.kind.imp_right fun named => ⟨by simp [named.1], named.2⟩
  · exact .inr ⟨by simp [may], named⟩

theorem advance (s : State) : Names kinds renamed s s.advance := by
  rcases s.advance_cases with ⟨eq, -⟩ | ⟨-, next, ahead, -, eq⟩
  · rw [eq]
    exact .refl s
  · rw [eq]
    exact ⟨fun named => named.token s.current, .inl rfl⟩

/-- A construct with what a run adds to the marks inside it. -/
theorem leave {kind : Kind} {inside before : List Mark}
    (inner : Names kinds renamed' (s.enter kind inside) t) (own : kinds kind)
    (first : inside ⊆ s.built) (rest : before ⊆ s.built) :
    Names kinds renamed s (t.leave s before) := by
  refine ⟨fun named => ?_, .inl rfl⟩
  have named_kind : kinds t.kind := by
    rcases inner.kind with same | ⟨-, named⟩
    · rw [same]
      exact own
    · exact named
  exact .construct named_kind (inner.built (named.subset first)) (named.subset rest)

end Names

/-- What a run of a program does to the constructs stands in the program. -/
theorem exec_names
    (runs : ∀ {rule s result}, run rule s = some result → Names kinds (known rule) s result.2)
    (p : Program ρ) (named : ∀ kind ∈ p.names, kinds kind) (ok : exec run p s = some result) :
    Names kinds (p.renames known) s result.2 := by
  induction p generalizing s result with
  | done | fail =>
    obtain rfl := Option.some.inj ok
    exact .refl s
  | advance =>
    obtain rfl := Option.some.inj ok
    exact .advance s
  | expect kind what =>
    obtain rfl := Option.some.inj ok
    dsimp only
    split
    · exact .advance s
    · exact ⟨id, .inl rfl⟩
  | report fault =>
    obtain rfl := Option.some.inj ok
    exact ⟨id, .inl rfl⟩
  | call rule =>
    obtain ⟨inner, ran, rfl⟩ := Option.map_eq_some_iff.1 ok
    have inside := runs ran
    exact inside
  | require rule => exact runs ok
  | mark kind body ih =>
    obtain ⟨inner, ran, rfl⟩ := Option.map_eq_some_iff.1 ok
    obtain ⟨own, inside⟩ := List.forall_mem_cons.1 named
    exact (ih inside ran).leave own (List.nil_subset _) (List.Subset.refl _)
  | wrap kind body ih =>
    obtain ⟨inner, ran, rfl⟩ := Option.map_eq_some_iff.1 ok
    obtain ⟨own, inside⟩ := List.forall_mem_cons.1 named
    -- The last mark comes inside the new construct, the others stay before it.
    exact (ih inside ran).leave own (List.take_subset 1 _) (List.drop_subset 1 _)
  | become kind =>
    obtain rfl := Option.some.inj ok
    exact ⟨id, .inr ⟨rfl, named kind (List.mem_singleton_self kind)⟩⟩
  | branch test yes no yes_ih no_ih =>
    obtain ⟨first, second⟩ := List.forall_mem_append.1 named
    rw [Program.renames]
    rcases exec_branch_eq_some_iff.1 ok with ⟨-, ok⟩ | ⟨-, ok⟩
    · exact (yes_ih first ok).mono fun may => by rw [may, Bool.true_or]
    · exact (no_ih second ok).mono fun may => by rw [may, Bool.or_true]
  | seq first second first_ih second_ih =>
    obtain ⟨named, named'⟩ := List.forall_mem_append.1 named
    rw [Program.renames]
    rcases exec_seq_eq_some_iff.1 ok with ⟨middle, ran, ok⟩ | ⟨-, ok⟩
    · exact (first_ih named ran).trans (second_ih named' ok)
    · exact (first_ih named ok).mono fun may => by rw [may, Bool.true_or]

theorem runRule_names {program : ρ → Program ρ}
    (named : ∀ rule, ∀ kind ∈ (program rule).names, kinds kind)
    (renamed : ∀ rule, (program rule).renames known = true → known rule = true) (bound : Nat)
    {rule : ρ} (ok : runRule program bound rule s = some result) :
    Names kinds (known rule) s result.2 := by
  induction bound generalizing rule s result with
  | zero => cases ok
  | succ bound ih => exact (exec_names (fun ran => ih ran) _ (named rule) ok).mono (renamed rule)

/-! ### The rules of the language -/

namespace Rule

/-- The rules that may change the kind of the construct around them: all but those that read whole
lines and blocks. -/
def renames : Rule → Bool
  | moduleBody | statements | block | statement | suite | line | lineEnd | restOfLine | ifStatement
  | forStatement | whileStatement | elseClause | functionDef | simple => false
  | _ => true

theorem isConstruct_names (rule : Rule) : (program rule).names.all Kind.isConstruct = true := by
  cases rule with
  | elements close => rfl
  | parameterList inDef | parameterTail inDef => cases inDef <;> decide
  | aliases dotted => cases dotted <;> decide
  | binary level | binaryTail level => cases level <;> decide
  | _ => decide

theorem renames_program (rule : Rule) : (program rule).renames renames = true → rule.renames = true := by
  cases rule <;> first
    | exact fun _ => rfl
    | decide

theorem names_runRule (bound : Nat) {rule : Rule} {s : State} {result : Bool × State}
    (ok : runRule program bound rule s = some result) :
    Names (·.isConstruct = true) rule.renames s result.2 :=
  runRule_names (fun rule => List.all_eq_true.1 rule.isConstruct_names) renames_program bound ok

end Rule

/-- A text is marked as a module, and all constructs inside it are constructs. -/
theorem exists_module {tokens : List Token} (ended : Ended tokens) :
    ∃ parts, (State.read tokens).built = [.construct .moduleBody parts] ∧
      Mark.Named (·.isConstruct = true) (State.read tokens).built := by
  obtain ⟨success, _, ok, rfl, -⟩ := Rule.exists_read ended
  have named : Mark.Named (·.isConstruct = true) (State.read tokens).built :=
    (Rule.names_runRule _ ok).built nofun
  rw [show callBound tokens = (64 * tokens.length + 63) + 1 by rw [callBound]; omega,
    Rule.runRule_moduleBody] at ok
  obtain ⟨inner, ran, eq⟩ := Option.map_eq_some_iff.1 ok
  -- What is read inside are statements, which leave the kind of the construct around them.
  have kind : inner.2.kind = .moduleBody :=
    (Rule.names_runRule _ ran).kind.resolve_right fun renamed => nomatch renamed.1
  have built : (State.read tokens).built = [.construct inner.2.kind inner.2.built.reverse] := by
    rw [← (Prod.mk.inj eq).2]
    rfl
  exact ⟨_, by rw [built, kind], named⟩

end Grammar

/-! ### The nodes of marks -/

open SureCode.Tree

variable {κ : Type} {kinds : Kind → Prop} {spans : Span → Prop}

/-- A node as a construct comes to one: of one of certain kinds that is not left out, with one of
certain spans, and not around a single node with its own span. -/
structure Node.Settled (kinds : Kind → Prop) (spans : Span → Prop) (u : Node κ) : Prop where
  kind : kinds u.label.kind
  shown : u.label.kind.isTransparent = false
  span : spans u.label.span
  several : u.childSpans ≠ [u.label.span]

namespace Mark

/-- A construct around settled nodes comes to settled nodes. -/
theorem settled_settle {kind : Kind} {span : Option Span} {children : List (Node κ)}
    (named : kinds kind) (placed : ∀ s ∈ span, spans s)
    (settled : ∀ u ∈ subtreesAll children, Node.Settled kinds spans u) :
    ∀ u ∈ subtreesAll (settle kind span children), Node.Settled kinds spans u := by
  have around {s : Span} (placed : spans s) (shown : ¬ kind.isTransparent = true)
      (several : children.map (fun (u : Node κ) => u.label.span) ≠ [s]) :
      ∀ u ∈ subtreesAll [node { kind, code := "", span := s } children],
        Node.Settled kinds spans u := by
    rw [subtreesAll, subtrees, subtreesAll, List.append_nil, List.forall_mem_cons]
    exact ⟨⟨named, by simpa using shown, placed, several⟩, settled⟩
  cases span with
  | none => exact settled
  | some s =>
    have placed := placed s rfl
    unfold settle
    dsimp only
    split
    · exact settled
    rename_i shown
    split
    · rename_i child
      split
      · exact settled
      rename_i differs
      exact around placed shown fun same => differs (List.singleton_inj.1 same)
    · rename_i several
      refine around placed shown fun single => ?_
      obtain ⟨child, rfl, -⟩ := List.map_eq_singleton_iff.1 single
      exact several child rfl

theorem forall_coverSpan (cover : ∀ s t, spans s → spans t → spans (s.cover t))
    {span span' : Option Span} (first : ∀ s ∈ span, spans s) (second : ∀ s ∈ span', spans s) :
    ∀ s ∈ coverSpan span span', spans s := by
  cases span with
  | none => exact second
  | some s =>
    cases span' with
    | none => exact first
    | some t => simpa [coverSpan] using cover s t (first s rfl) (second t rfl)

mutual

/-- The nodes of a mark are settled. -/
theorem settled_nodes (cover : ∀ s t, spans s → spans t → spans (s.cover t)) (m : Mark)
    (named : ∀ kind ∈ constructs m, kinds kind)
    (lexemes : ∀ t ∈ tokens m, t.kind.isLayout = false → spans t.span) :
    (∀ s ∈ (nodes (κ := κ) m).1, spans s) ∧
      ∀ u ∈ subtreesAll (nodes (κ := κ) m).2, Node.Settled kinds spans u := by
  match m with
  | .token t =>
    rw [tokens] at lexemes
    rw [nodes]
    refine ⟨fun s mem => ?_, nofun⟩
    cases layout : t.kind.isLayout with
    | true => simp [layout] at mem
    | false =>
      obtain rfl : t.span = s := by simpa [layout] using mem
      exact lexemes t (List.mem_singleton_self t) layout
  | .construct kind parts =>
    rw [tokens] at lexemes
    rw [constructs, List.forall_mem_cons] at named
    obtain ⟨placed, settled⟩ := settled_nodesAll cover parts named.2 lexemes
    rw [nodes]
    exact ⟨placed, settled_settle named.1 placed settled⟩

/-- The nodes of marks are settled. -/
theorem settled_nodesAll (cover : ∀ s t, spans s → spans t → spans (s.cover t)) (ms : List Mark)
    (named : Named kinds ms)
    (lexemes : ∀ t ∈ tokensAll ms, t.kind.isLayout = false → spans t.span) :
    (∀ s ∈ (nodesAll (κ := κ) ms).1, spans s) ∧
      ∀ u ∈ subtreesAll (nodesAll (κ := κ) ms).2, Node.Settled kinds spans u := by
  match ms with
  | [] => exact ⟨nofun, nofun⟩
  | m :: ms =>
    obtain ⟨first, rest⟩ := List.forall_mem_append.1 named
    rw [tokensAll, List.forall_mem_append] at lexemes
    obtain ⟨placed, settled⟩ := settled_nodes cover m first lexemes.1
    obtain ⟨placed', settled'⟩ := settled_nodesAll cover ms rest lexemes.2
    rw [nodesAll]
    dsimp only
    rw [subtreesAll_append, List.forall_mem_append]
    exact ⟨forall_coverSpan cover placed placed', settled, settled'⟩

end

theorem coverSpan_eq_none_iff {span span' : Option Span} :
    coverSpan span span' = none ↔ span = none ∧ span' = none := by
  cases span <;> cases span' <;> simp [coverSpan]

mutual

/-- A mark has no text exactly when all its tokens are layout. -/
theorem span_nodes_eq_none_iff (m : Mark) :
    (nodes (κ := κ) m).1 = none ↔ ∀ t ∈ tokens m, t.kind.isLayout = true := by
  match m with
  | .token t => simp [nodes, tokens]
  | .construct kind parts =>
    rw [nodes, tokens]
    exact span_nodesAll_eq_none_iff parts

/-- Marks have no text exactly when all their tokens are layout. -/
theorem span_nodesAll_eq_none_iff (ms : List Mark) :
    (nodesAll (κ := κ) ms).1 = none ↔ ∀ t ∈ tokensAll ms, t.kind.isLayout = true := by
  match ms with
  | [] => simp [nodesAll, tokensAll]
  | m :: ms =>
    rw [nodesAll, tokensAll, List.forall_mem_append, ← span_nodes_eq_none_iff m,
      ← span_nodesAll_eq_none_iff ms]
    exact coverSpan_eq_none_iff

end

theorem settle_ne_nil {kind : Kind} {s : Span} {children : List (Node κ)}
    (shown : kind.isTransparent = false) : settle kind (some s) children ≠ [] := by
  unfold settle
  dsimp only
  rw [if_neg (by simp [shown])]
  split
  · split <;> simp
  · simp

section Laid

variable {kind : Kind} {source : List Char} {start stop : Nat} {ms parts : List Mark}

/-- Marks over nothing but layout come to no nodes. -/
theorem nodesAll_eq_nil (laid : Laid source start (tokensAll ms) stop)
    (layout : ∀ t ∈ tokensAll ms, t.kind.isLayout = true) : (nodesAll (κ := κ) ms).2 = [] := by
  have spanned := spanned_nodesAll (κ := κ) _ laid
  have none := span_nodesAll_eq_none_iff (κ := κ) ms |>.2 layout
  generalize nodesAll (κ := κ) ms = pair at spanned none
  obtain ⟨span, children⟩ := pair
  obtain rfl := none
  -- Nodes only lie inside spans, so without a span there are none.
  exact spanned.2

/-- A construct that is not left out comes to some node where one of its tokens is no layout. -/
theorem layout_of_nodesAll_eq_nil (shown : kind.isTransparent = false)
    (none : (nodesAll (κ := κ) [.construct kind parts]).2 = []) :
    ∀ t ∈ tokensAll [.construct kind parts], t.kind.isLayout = true := by
  rw [← span_nodesAll_eq_none_iff (κ := κ)]
  rw [nodesAll_singleton, nodes] at none ⊢
  generalize nodesAll (κ := κ) parts = pair at none ⊢
  obtain ⟨span, children⟩ := pair
  cases span with
  | none => rfl
  | some s => exact absurd none (settle_ne_nil shown)

end Laid

end Mark

end SureCode
