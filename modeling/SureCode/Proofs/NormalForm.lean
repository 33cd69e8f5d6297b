import Mathlib
import SureCode.Proofs.Faultless
import SureCode.Proofs.Grammar.Constructs
import SureCode.Proofs.Node.Validity

/-!
# The normal form of trees

The nodes of a tree are constructs that are shown, and none of them is around a single node with its
own span. A text of layout alone has no tree, and where the places in its log can be told apart every
other text has one. Where a text is read without a fault, every token fits the grammar, no node is an
error and every node has a text (`parse_normal`).
-/

namespace SureCode

open SureCode.Grammar SureCode.Tree

variable {κ : Type} {text : String}

/-! ### The tokens and constructs of marks -/

namespace Mark

mutual

theorem constructs_subset_kinds (m : Mark) : constructs m ⊆ kinds m := by
  match m with
  | .token t => exact List.nil_subset _
  | .construct kind parts =>
    rw [constructs, kinds]
    exact List.cons_subset_cons kind (constructsAll_subset_kindsAll parts)

theorem constructsAll_subset_kindsAll (ms : List Mark) : constructsAll ms ⊆ kindsAll ms := by
  match ms with
  | [] => exact List.nil_subset _
  | m :: ms =>
    rw [constructsAll, kindsAll]
    refine List.append_subset.2 ⟨?_, ?_⟩
    · exact List.subset_append_of_subset_left _ (constructs_subset_kinds m)
    · exact List.subset_append_of_subset_right _ (constructsAll_subset_kindsAll ms)

end

theorem Sound.named {ms : List Mark} (sound : Sound ms) : Named (·.isSound = true) ms :=
  named_iff.2 fun m mem kind within => sound m mem kind (constructs_subset_kinds m within)

end Mark

/-! ### The nodes of a tree -/

namespace Node

variable {kinds : Kind → Prop} {spans : Span → Prop} {source : List Char} {u : Node κ}

theorem Settled.layout (settled : Node.Settled kinds spans u) :
    Node.Settled kinds spans (Node.layout source u) := by
  obtain ⟨kind, shown, span, several⟩ := settled
  have label := label_layout source u
  refine ⟨by rwa [label], by rwa [label], by rwa [label], ?_⟩
  rw [childSpans_layout, label]
  exact several

/-- A node with a span that is not empty has a text. -/
theorem code_ne_empty (valid : ownFault? source u = none)
    (nonempty : u.label.span.start < u.label.span.stop) : u.label.code ≠ "" := by
  intro empty
  obtain ⟨cut, -⟩ := ownFault?_eq_none_iff.1 valid
  obtain ⟨rest, -, taken⟩ := Option.bind_eq_some_iff.1 cut
  obtain ⟨after, -, width⟩ := Text.takeBytes?_eq_some taken
  rw [empty, String.toList_empty, Text.byteLength_nil] at width
  omega

end Node

/-- The nodes of a tree are constructs; without faults they fit the grammar, and their spans are not
empty. -/
theorem settled_parse {tree : Node κ} (parsed : (parse text).tree = some tree) :
    ∀ u ∈ tree.subtrees,
      Node.Settled
        (fun kind => kind.isConstruct = true ∧
          ((State.read (tokenize text)).faults = [] → kind.isSound = true))
        (fun s => (State.read (tokenize text)).faults = [] → s.start < s.stop) u := by
  have ended := ended_tokenize text
  obtain ⟨parts, -, constructs⟩ := exists_module ended
  have named : Mark.Named
      (fun kind => kind.isConstruct = true ∧
        ((State.read (tokenize text)).faults = [] → kind.isSound = true))
      (Log.read (tokenize text)).marks :=
    named_marks (named_read ended fun kind mem =>
      ⟨constructs kind mem, fun none => (sound_read ended none).named kind mem⟩)
  have lexemes (t : Token) (mem : t ∈ Mark.tokensAll (Log.read (tokenize text)).marks)
      (lexeme : t.kind.isLayout = false) :
      (State.read (tokenize text)).faults = [] → t.span.start < t.span.stop := fun none =>
    nonempty_of_faultless none ((sublist_marks_read ended).subset mem) lexeme
  obtain ⟨root, rest, nodes, rfl⟩ := exists_of_tree_parse parsed
  rw [Node.subtrees_layout, List.forall_mem_map]
  intro u mem
  have within : u ∈ subtreesAll (Mark.nodesAll (κ := κ) (Log.read (tokenize text)).marks).2 := by
    rw [nodes, subtreesAll]
    exact List.mem_append_left _ mem
  refine ((Mark.settled_nodesAll (fun s t first second none => ?_) _ named lexemes).2 u within).layout
  have := first none
  have := second none
  change min s.start t.start < max s.stop t.stop
  omega

/-- A text with nothing but layout has no tree. -/
theorem tree_parse_eq_none (layout : ∀ t ∈ tokenize text, t.kind.isLayout = true) :
    (parse (κ := κ) text).tree = none := by
  have within := (sublist_marks_read (ended_tokenize text)).subset
  rw [tree_parse, Mark.nodesAll_eq_nil (laid_marks text) fun t mem => layout t (within mem)]
  rfl

/-- Where the places in its log can be told apart, a text without a tree has nothing but layout. -/
theorem layout_of_tree_parse_eq_none
    (short : (Log.read (tokenize text)).events.length ≤ UInt32.size)
    (missing : (parse (κ := κ) text).tree = none) : ∀ t ∈ tokenize text, t.kind.isLayout = true := by
  have ended := ended_tokenize text
  obtain ⟨parts, built, -⟩ := exists_module ended
  obtain ⟨-, _, -, rfl, kind, ahead⟩ := Rule.exists_read ended
  rw [tree_parse, marks_read ended short, built, List.reverse_singleton, Option.map_eq_none_iff,
    List.head?_eq_none_iff] at missing
  rw [← tokensAll_read ahead, built, List.reverse_singleton, List.forall_mem_append,
    List.forall_mem_singleton, kind]
  -- The last token is the end of the text, which is layout and never marked.
  exact ⟨Mark.layout_of_nodesAll_eq_nil rfl missing, rfl⟩

/-- The tokens of a name in brackets. -/
theorem tokenize_bracketed :
    tokenize "(x)" = [⟨.leftParen, ⟨0, 1, by decide⟩⟩, ⟨.name, ⟨1, 2, by decide⟩⟩,
      ⟨.rightParen, ⟨2, 3, by decide⟩⟩, .empty .newline 3, .empty .eof 3] := by
  let bracket : Lexer := ⟨⟨1, ['x', ')']⟩, [], 1, false, some .leftParen⟩
  let name : Lexer := ⟨⟨2, [')']⟩, [], 1, false, some .name⟩
  let close : Lexer := ⟨⟨3, []⟩, [], 0, false, some .rightParen⟩
  have first : (Lexer.ofText "(x)".toList).step
      = ([⟨.leftParen, ⟨0, 1, by decide⟩⟩], some bracket) := by decide +kernel
  have second : bracket.step = ([⟨.name, ⟨1, 2, by decide⟩⟩], some name) := by decide +kernel
  have third : name.step = ([⟨.rightParen, ⟨2, 3, by decide⟩⟩], some close) := by decide +kernel
  have last : close.step = ([.empty .newline 3, .empty .eof 3], none) := by decide +kernel
  rw [tokenize, Lexer.tokens_of_step_some first, Lexer.tokens_of_step_some second,
    Lexer.tokens_of_step_some third, Lexer.tokens_of_step_none last]
  rfl

end SureCode
