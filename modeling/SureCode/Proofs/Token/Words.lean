import Mathlib
import SureCode.Containment
import SureCode.Proofs.Grammar.Outline
import SureCode.Proofs.Parse
import SureCode.Proofs.Token.Trivia

/-!
# The words of a text

The words of a text are the texts of its tokens, layout tokens left out. White space aside, what
comes before the end of a token is what comes before the first token and then the words up to there,
if there is nothing but white space between tokens (`reading_tokenize`).
-/

namespace SureCode

open Cursor

/-! ### What comes before an offset -/

namespace Text

/-- White space aside, `seen` is what comes before an offset of a text. -/
def Before (source : List Char) (n : Nat) (seen : List Char) : Prop :=
  ∃ before after, source = before ++ after ∧ n = byteLength before ∧ withoutBlanks before = seen

variable {source seen : List Char} {n : Nat}

theorem Before.boundary (before : Before source n seen) : Boundary source n := by
  obtain ⟨front, rest, eq, stop, -⟩ := before
  exact ⟨front, rest, eq, stop⟩

/-- A span is passed over. -/
theorem Before.exists_slice {s : Span} (before : Before source s.start seen)
    (boundary : Boundary source s.stop) :
    ∃ slice, s.slice? source = some slice ∧
      Before source s.stop (seen ++ withoutBlanks slice) := by
  obtain ⟨front, rest, rfl, start, rfl⟩ := before
  obtain ⟨middle, after, rfl, stop⟩ := boundary.split (start ▸ s.ordered)
  rw [← List.append_assoc]
  refine ⟨middle, s.slice?_append front middle after start stop, front ++ middle, after, rfl, ?_, ?_⟩
  · rw [stop, byteLength_append]
  · rw [withoutBlanks_append]

/-- What comes before an offset is determined by the text. -/
theorem Before.unique {seen' : List Char} (before : Before source n seen)
    (before' : Before source n seen') : seen = seen' := by
  obtain ⟨front, rest, rfl, stop, rfl⟩ := before
  obtain ⟨front', rest', eq, stop', rfl⟩ := before'
  have boundary : Boundary (front ++ rest) n := ⟨front', rest', eq, stop'⟩
  have same : takeBytes? n (front ++ rest) = takeBytes? n (front' ++ rest') := by rw [eq]
  rw [stop, takeBytes?_byteLength_append, ← stop, stop', takeBytes?_byteLength_append] at same
  rw [Option.some.inj same]

end Text

/-! ### Texts of layout tokens -/

theorem isBlank_of_isBreak {ch : Char} (breaks : isBreak ch = true) : Text.isBlank ch = true := by
  rw [isBreak, Bool.or_eq_true, beq_iff_eq, beq_iff_eq] at breaks
  rcases breaks with rfl | rfl <;> decide

/-- A line break is nothing but characters that break lines. -/
theorem Cursor.exists_breaks {c : Cursor} (breaks : c.rest.head?.any isBreak = true) :
    ∃ word, c.Reaches word c.skipBreak ∧ ∀ ch ∈ word, isBreak ch = true := by
  obtain ⟨offset, rest⟩ := c
  cases rest with
  | nil => cases breaks
  | cons ch cs =>
    have first : (⟨offset, ch :: cs⟩ : Cursor).Reaches [ch] ⟨offset + ch.utf8Size, cs⟩ := by
      simp [Reaches]
    have breaks : isBreak ch = true := breaks
    by_cases returned : ch = '\r'
    · subst returned
      cases cs with
      | nil => exact ⟨['\r'], first, by simp [isBreak]⟩
      | cons next cs =>
        by_cases feed : next = '\n'
        · subst feed
          have second : (⟨offset + '\r'.utf8Size, '\n' :: cs⟩ : Cursor).Reaches ['\n']
              ⟨offset + '\r'.utf8Size + '\n'.utf8Size, cs⟩ := by
            simp [Reaches]
          exact ⟨['\r', '\n'], first.trans second, by simp [isBreak]⟩
        · refine ⟨['\r'], ?_, by simp [isBreak]⟩
          simpa [skipBreak, eat, eatIf, peek, advance, feed] using first
    · refine ⟨[ch], ?_, by simpa using breaks⟩
      simpa [skipBreak, eat, eatIf, peek, advance, returned] using first

namespace Token

variable {source : List Char} {t : Token}

theorem text?_of_empty {offset : Nat} (empty : t.span = .empty offset)
    (boundary : Text.Boundary source offset) : t.text? source = some [] := by
  obtain ⟨before, after, rfl, rfl⟩ := boundary
  rw [Token.text?, empty]
  have cut := (Span.empty (Text.byteLength before)).slice?_append before [] after rfl rfl
  rwa [List.append_nil] at cut

theorem text?_tokenBetween {kind : Kind} {c d : Cursor} {word : List Char}
    (within : (Cursor.ofText source).Ahead c) (reached : c.Reaches word d) :
    (Lexer.tokenBetween kind c d).text? source = some word := by
  obtain ⟨before, split, start⟩ := within
  have split : source = before ++ word ++ d.rest := by
    rw [List.append_assoc, ← reached.1]
    exact split
  have start : c.offset = Text.byteLength before := by simpa [Cursor.ofText] using start
  have stop : (Lexer.tokenBetween kind c d).span.stop = d.offset :=
    Lexer.stop_tokenBetween ⟨word, reached⟩
  rw [split]
  exact Span.slice?_append before word d.rest _ start (by rw [stop, reached.2, start])

end Token

/-- A layout token has no text or that of a line break. -/
theorem Lexer.text?_of_isLayout {source : List Char} {l : Lexer} {t : Token}
    (within : (Cursor.ofText source).Ahead l.cursor) (mem : t ∈ l.tokens)
    (layout : t.kind.isLayout = true) :
    ∃ word, t.text? source = some word ∧ ∀ ch ∈ word, isBreak ch = true := by
  have nothing {t : Token} {offset : Nat} (empty : t.span = .empty offset)
      (boundary : Text.Boundary source offset) :
      ∃ word, t.text? source = some word ∧ ∀ ch ∈ word, isBreak ch = true :=
    ⟨[], Token.text?_of_empty empty boundary, nofun⟩
  induction l using Lexer.tokens.induct with
  | case1 l ts found =>
    obtain ⟨tokens, rfl, reads⟩ := exists_reads_of_step found
    obtain ⟨begun, opening⟩ := l.beginLine_skips
    have started := within.trans begun.ahead
    rw [tokens_of_step_none found] at mem
    rcases List.mem_append.1 mem with mem | mem
    · exact nothing (opening t mem) started.boundary
    · cases reads with
      | @ends c skips =>
        obtain ⟨front, eq, empty⟩ := closing_eq_append l.beginLine.2.last l.beginLine.2.levels c.offset
        rw [eq, List.mem_append, List.mem_singleton] at mem
        refine nothing (mem.elim (empty t) fun eq => eq ▸ rfl) (started.trans skips.ahead).boundary
  | case2 l ts next found ih =>
    obtain ⟨tokens, rfl, reads⟩ := exists_reads_of_step found
    obtain ⟨begun, opening⟩ := l.beginLine_skips
    have started := within.trans begun.ahead
    rw [tokens_of_step_some found, List.mem_append, List.mem_append] at mem
    cases reads with
    | @breaks c word skips reached _ breaks =>
      rcases mem with (first | lexed) | later
      · exact nothing (opening t first) started.boundary
      · obtain ⟨word, reached, all⟩ := exists_breaks breaks
        rw [List.mem_singleton.1 lexed]
        exact ⟨word, Token.text?_tokenBetween (started.trans skips.ahead) reached, all⟩
      · exact ih ((started.trans skips.ahead).trans ⟨word, reached⟩) later
    | @scans c d kind word skips reached _ lexeme =>
      rcases mem with (first | lexed) | later
      · exact nothing (opening t first) started.boundary
      · rw [List.mem_singleton.1 lexed] at layout
        exact absurd layout (by simp [tokenBetween, lexeme])
      · exact ih ((started.trans skips.ahead).trans ⟨word, reached⟩) later

/-! ### Words -/

/-- There is nothing but white space between two tokens. -/
def BlankBetween (source : List Char) (t u : Token) : Prop :=
  ((Span.ofEnds? t.span.stop u.span.start).bind (·.slice? source)).all (·.all Text.isBlank) = true

instance (source : List Char) : DecidableRel (BlankBetween source) := fun _ _ =>
  inferInstanceAs (Decidable (_ = _))

/-- The text of a token; nothing if its span is no slice of the source. -/
def Token.text (source : List Char) (t : Token) : List Char := (t.text? source).getD []

/-- The texts of the tokens that are no layout. -/
def wordsOf (source : List Char) (ts : List Token) : List (List Char) :=
  (lexemes ts).map (Token.text source)

/-- The spans of the tokens that are no layout, by number. -/
def spansOf (ts : List Token) (i : Nat) : Span := ((lexemes ts)[i]?.map (·.span)).getD (.empty 0)

/-- Numbered spans of the words of a text: they follow one another, and white space aside, there is
nothing between them. -/
structure Reading (source seen : List Char) (words : List (List Char)) (spans : Nat → Span) :
    Prop where
  orderly : Orderly spans words.length
  start : ∀ i < words.length,
    Text.Before source (spans i).start (seen ++ Text.withoutBlanks (words.take i).flatten)
  stop : ∀ i < words.length,
    Text.Before source (spans i).stop (seen ++ Text.withoutBlanks (words.take (i + 1)).flatten)

section Numbers

variable {source seen : List Char} {ts : List Token} {start stop : Nat}

theorem length_wordsOf (source : List Char) (ts : List Token) :
    (wordsOf source ts).length = (lexemes ts).length := List.length_map _

theorem spansOf_eq {i : Nat} (lt : i < (lexemes ts).length) :
    spansOf ts i = ((lexemes ts)[i]).span := by
  rw [spansOf, List.getElem?_eq_getElem lt]
  rfl

theorem numbered_spansOf (ts : List Token) : Numbered (spansOf ts) 0 ts := by
  refine List.ext_getElem (by simp) fun i lt _ => ?_
  rw [List.length_map] at lt
  simp [spansOf_eq lt]

theorem pairwise_of_laid (laid : Laid source start ts stop) :
    ts.Pairwise fun t u => t.span.stop ≤ u.span.start := by
  induction ts generalizing start with
  | nil => exact .nil
  | cons t ts ih =>
    obtain ⟨-, -, -, rest⟩ := laid
    refine .cons (fun u mem => ?_) (ih rest)
    obtain ⟨front, back, rfl⟩ := List.append_of_mem mem
    obtain ⟨middle, first, second⟩ := rest.split
    exact first.le.trans second.1

theorem orderly_spansOf (laid : Laid source start ts stop)
    (nonempty : ∀ t ∈ ts, t.kind.isLayout = false → t.span.start < t.span.stop) :
    Orderly (spansOf ts) (lexemes ts).length where
  nonempty i lt := by
    rw [spansOf_eq lt]
    obtain ⟨mem, lexeme⟩ := List.mem_filter.1 (List.getElem_mem lt)
    exact nonempty _ mem (by simpa using lexeme)
  apart {i j} before lt := by
    rw [spansOf_eq lt, spansOf_eq (before.trans lt)]
    exact List.pairwise_iff_getElem.1 ((pairwise_of_laid laid).filter _) i j _ lt before

theorem withoutBlanks_of_all {cs : List Char} (blank : ∀ ch ∈ cs, Text.isBlank ch = true) :
    Text.withoutBlanks cs = [] :=
  List.filter_eq_nil_iff.2 fun ch mem => by simp [blank ch mem]

/-- White space between two tokens does not count. -/
theorem before_next {t : Token} (blank : (t :: ts).IsChain (BlankBetween source))
    (laid : Laid source t.span.stop ts stop) (before : Text.Before source t.span.stop seen) :
    ∀ u ∈ ts.head?, Text.Before source u.span.start seen := by
  cases ts with
  | nil => nofun
  | cons u ts =>
    intro _ head
    obtain rfl := Option.some.inj head
    obtain ⟨le, boundary, -⟩ := laid
    let between : Span := ⟨t.span.stop, u.span.start, le⟩
    obtain ⟨gap, cut, after⟩ := Text.Before.exists_slice (s := between) before boundary
    have all := (List.isChain_cons_cons.1 blank).1
    rw [BlankBetween, Span.ofEnds?, dif_pos le, Option.bind_some, cut, Option.all_some] at all
    rwa [withoutBlanks_of_all (List.all_eq_true.1 all), List.append_nil] at after

/-- White space aside, what comes before a token is what comes before the first one, and then the
words up to there. -/
theorem before_lexemes (laid : Laid source start ts stop)
    (layout : ∀ t ∈ ts, t.kind.isLayout = true → Text.withoutBlanks (t.text source) = [])
    (blank : ts.IsChain (BlankBetween source))
    (first : ∀ t ∈ ts.head?, Text.Before source t.span.start seen)
    {front back : List Token} {t : Token} (split : lexemes ts = front ++ t :: back) :
    Text.Before source t.span.start
        (seen ++ Text.withoutBlanks (front.map (Token.text source)).flatten) ∧
      Text.Before source t.span.stop
        (seen ++ Text.withoutBlanks ((front ++ [t]).map (Token.text source)).flatten) := by
  induction ts generalizing start seen front with
  | nil => simp [lexemes] at split
  | cons u ts ih =>
    obtain ⟨-, -, ends, rest⟩ := laid
    have here := first u rfl
    obtain ⟨word, cut, after⟩ := here.exists_slice ends
    have text_eq : u.text source = word := by rw [Token.text, Token.text?, cut, Option.getD_some]
    have further {front : List Token} (split : lexemes ts = front ++ t :: back) :=
      ih rest (fun t mem => layout t (List.mem_cons_of_mem u mem)) blank.tail
        (before_next blank rest after) split
    cases kind : u.kind.isLayout with
    | true =>
      have none := layout u List.mem_cons_self kind
      rw [← text_eq, none, List.append_nil] at further
      exact further (by simpa [lexemes, kind] using split)
    | false =>
      have split : u :: lexemes ts = front ++ t :: back := by simpa [lexemes, kind] using split
      cases front with
      | nil =>
        obtain ⟨rfl, -⟩ := List.cons.inj split
        exact ⟨by simpa [Text.withoutBlanks] using here, by simpa [text_eq] using after⟩
      | cons v front =>
        obtain ⟨rfl, rest_split⟩ := List.cons.inj split
        have before := further rest_split
        rw [← text_eq] at before
        simpa only [List.cons_append, List.map_cons, List.flatten_cons, Text.withoutBlanks_append,
          List.append_assoc] using before

end Numbers

/-- The words of a text in which only white space lies between tokens, where no token but layout is
empty. -/
theorem exists_reading {text : String}
    (blank : (tokenize text).IsChain (BlankBetween text.toList))
    (nonempty : ∀ t ∈ tokenize text, t.kind.isLayout = false → t.span.start < t.span.stop) :
    ∃ seen, Reading text.toList seen (wordsOf text.toList (tokenize text))
      (spansOf (tokenize text)) := by
  have laid := laid_tokenize text
  have layout (t : Token) (mem : t ∈ tokenize text) (kind : t.kind.isLayout = true) :
      Text.withoutBlanks (t.text text.toList) = [] := by
    obtain ⟨word, cut, breaks⟩ := Lexer.text?_of_isLayout (.refl _) mem kind
    rw [Token.text, cut, Option.getD_some]
    exact withoutBlanks_of_all fun ch mem => isBlank_of_isBreak (breaks ch mem)
  obtain ⟨first, rest, eq⟩ := List.exists_cons_of_ne_nil (tokenize_ne_nil text)
  obtain ⟨before, after, split, start⟩ := (laid.mem (eq ▸ List.mem_cons_self)).1
  have begins : ∀ t ∈ (tokenize text).head?,
      Text.Before text.toList t.span.start (Text.withoutBlanks before) := by
    rw [eq]
    intro t head
    obtain rfl := Option.some.inj head
    exact ⟨before, after, split, start, rfl⟩
  have places {i : Nat} (lt : i < (lexemes (tokenize text)).length) :=
    before_lexemes laid layout blank begins
      (show lexemes (tokenize text) = _ by rw [← List.drop_eq_getElem_cons lt, List.take_append_drop])
  refine ⟨Text.withoutBlanks before, ?_, fun i lt => ?_, fun i lt => ?_⟩
  · rw [length_wordsOf]
    exact orderly_spansOf laid nonempty
  all_goals rw [length_wordsOf] at lt
  · rw [spansOf_eq lt, wordsOf, ← List.map_take]
    exact (places lt).1
  · rw [spansOf_eq lt, wordsOf, ← List.map_take, List.take_succ_eq_append_getElem lt]
    exact (places lt).2

end SureCode
