import Mathlib
import SureCode.Parse
import SureCode.Proofs.Grammar.Lengths
import SureCode.Proofs.Grammar.Mark
import SureCode.Proofs.Grammar.Rules

/-!
# Parsing

The tree of a text is the first node that the marks of its log come to (`tree_parse`). Whatever the
log, these lie in order, so a tree lies on its text as laid out, whether or not the text fits the
grammar, and the only faults are those of the grammar. The log of a text of ordinary length is short
enough for its places to be told apart (`short_of_length_le`).
-/

namespace SureCode

open SureCode.Grammar

variable {κ : Type} {text : String}

/-- All tokens of a text follow one another. -/
theorem laid_tokenize (text : String) :
    Laid text.toList 0 (tokenize text) (Text.byteLength text.toList) := by
  obtain ⟨front, eq, laid, -⟩ := tokenize_eq_append text
  have boundary := Text.boundary_byteLength text.toList
  rw [eq]
  refine laid.append (.of_empty boundary (Nat.le_refl _) fun t mem => ?_)
  rw [List.mem_singleton.1 mem]
  rfl

theorem tokenize_ne_nil (text : String) : tokenize text ≠ [] := by
  obtain ⟨front, eq, -⟩ := tokenize_eq_append text
  simp [eq]

theorem ended_tokenize (text : String) : Ended (tokenize text) := by
  obtain ⟨front, eq, -, unended⟩ := tokenize_eq_append text
  exact ⟨front, _, eq, unended, rfl⟩

/-- All tokens have been taken over when reading is at its end. -/
theorem tokensAll_read {text : String} (none : (State.read (tokenize text)).ahead = []) :
    Mark.tokensAll (State.read (tokenize text)).built.reverse
        ++ [(State.read (tokenize text)).current]
      = tokenize text := by
  have tokens := (onward_read (tokenize text)).tokens
  rw [(ended_tokenize text).left_ofTokens, State.left, none] at tokens
  exact tokens

/-- The log of a text is no longer than a fixed number of events for each character. -/
theorem length_events_tokenize (text : String) :
    (Log.read (tokenize text)).events.length ≤ 39 * (3 * text.length + 4) :=
  (length_events_read (ended_tokenize text)).trans (Nat.mul_le_mul_left 39 (length_tokenize_le text))

/-- In the log of a text of ordinary length all places can be told apart. -/
theorem short_of_length_le (small : text.length ≤ 36000000) :
    (Log.read (tokenize text)).events.length ≤ UInt32.size := by
  have := length_events_tokenize text
  rw [show UInt32.size = 4294967296 from rfl]
  omega

/-! ### The marks of a text -/

theorem laid_marks (text : String) :
    Laid text.toList 0 (Mark.tokensAll (Log.read (tokenize text)).marks)
      (Text.byteLength text.toList) :=
  (laid_tokenize text).sublist (sublist_marks_read (ended_tokenize text))

/-- The first node that the marks of a text come to lies on the text once it is laid out. -/
theorem validate_layout_root {root : Node κ} (first : (Log.read (tokenize text)).root? = some root) :
    (Node.layout text.toList root).validate text.toList = .ok () := by
  obtain ⟨start, stop, nested⟩ := Mark.exists_nested (κ := κ) _ (laid_marks text)
  rw [root?_eq] at first
  obtain ⟨rest, nodes⟩ := List.head?_eq_some_iff.1 first
  rw [nodes] at nested
  exact Node.validate_layout nested

/-! ### The tree and the diagnostics -/

theorem tree_parse_eq (text : String) :
    (parse (κ := κ) text).tree
      = (Log.read (tokenize text)).root?.map (Node.layout text.toList) := by
  unfold parse
  dsimp only
  split
  · rename_i none
    rw [none]
    rfl
  · rename_i root first
    rw [first, validate_layout_root first]
    rfl

/-- The tree of a text is the first node that its marks come to, laid out on the text. -/
theorem tree_parse (text : String) :
    (parse (κ := κ) text).tree
      = (Mark.nodesAll (Log.read (tokenize text)).marks).2.head?.map
          (Node.layout text.toList) := by
  rw [tree_parse_eq, root?_eq]

theorem exists_of_tree_parse {t : Node κ} (parsed : (parse text).tree = some t) :
    ∃ root rest, (Mark.nodesAll (Log.read (tokenize text)).marks).2 = root :: rest ∧
      root.layout text.toList = t := by
  rw [tree_parse, Option.map_eq_some_iff] at parsed
  obtain ⟨root, first, laid⟩ := parsed
  obtain ⟨rest, nodes⟩ := List.head?_eq_some_iff.1 first
  exact ⟨root, rest, nodes, laid⟩

/-- The tree of a text lies on it as laid out. -/
theorem validate_of_tree_parse {t : Node κ} (parsed : (parse text).tree = some t) :
    t.validate text.toList = .ok () := by
  rw [tree_parse_eq, Option.map_eq_some_iff] at parsed
  obtain ⟨root, first, rfl⟩ := parsed
  exact validate_layout_root first

theorem diagnostics_parse (text : String) :
    (parse (κ := κ) text).diagnostics = (State.read (tokenize text)).faults.reverse := by
  rw [← faults_read (ended_tokenize text)]
  unfold parse
  dsimp only
  split
  · rfl
  · rename_i root first
    rw [validate_layout_root first]

theorem hasErrors_parse (text : String) :
    (parse (κ := κ) text).hasErrors = !(State.read (tokenize text)).faults.isEmpty := by
  rw [Parse.hasErrors, diagnostics_parse, List.isEmpty_reverse]

/-- Every tree passes the check of its layout, and all faults are faults of the grammar. -/
theorem parse_laid_out (text : String) :
    (∀ tree, (parse (κ := κ) text).tree = some tree → tree.validate text.toList = .ok ()) ∧
      (parse (κ := κ) text).diagnostics = (State.read (tokenize text)).faults.reverse ∧
        (parse (κ := κ) text).hasErrors = !(State.read (tokenize text)).faults.isEmpty :=
  ⟨fun _ parsed => validate_of_tree_parse parsed, diagnostics_parse text, hasErrors_parse text⟩

/-- The tokens of a call without its closing bracket. -/
theorem tokenize_call :
    tokenize "f(1" = [⟨.name, ⟨0, 1, by decide⟩⟩, ⟨.leftParen, ⟨1, 2, by decide⟩⟩,
      ⟨.intNumber, ⟨2, 3, by decide⟩⟩, .empty .newline 3, .empty .eof 3] := by
  let name : Lexer := ⟨⟨1, ['(', '1']⟩, [], 0, false, some .name⟩
  let bracket : Lexer := ⟨⟨2, ['1']⟩, [], 1, false, some .leftParen⟩
  let argument : Lexer := ⟨⟨3, []⟩, [], 1, false, some .intNumber⟩
  have first : (Lexer.ofText "f(1".toList).step = ([⟨.name, ⟨0, 1, by decide⟩⟩], some name) := by
    decide +kernel
  have second : name.step = ([⟨.leftParen, ⟨1, 2, by decide⟩⟩], some bracket) := by
    decide +kernel
  have third : bracket.step = ([⟨.intNumber, ⟨2, 3, by decide⟩⟩], some argument) := by
    decide +kernel
  have last : argument.step = ([.empty .newline 3, .empty .eof 3], none) := by decide +kernel
  rw [tokenize, Lexer.tokens_of_step_some first, Lexer.tokens_of_step_some second,
    Lexer.tokens_of_step_some third, Lexer.tokens_of_step_none last]
  rfl

theorem parse_laid_out_call :
    ∃ tree : Node Unit, (parse "f(1").tree = some tree ∧
      tree.validate "f(1".toList = .ok () ∧ (parse (κ := Unit) "f(1").hasErrors = true := by
  obtain ⟨valid, -, errors⟩ := parse_laid_out (κ := Unit) "f(1"
  have faulty : (State.read (tokenize "f(1")).faults.isEmpty = false := by
    rw [tokenize_call]
    decide +kernel
  have read : (parse (κ := Unit) "f(1").tree.isSome = true := by
    rw [tree_parse_eq, tokenize_call, Option.isSome_map]
    decide +kernel
  obtain ⟨tree, eq⟩ := Option.isSome_iff_exists.1 read
  exact ⟨tree, eq, valid tree eq, by rw [errors, faulty]; rfl⟩

end SureCode
