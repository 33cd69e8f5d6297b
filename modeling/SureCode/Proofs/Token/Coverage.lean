import Mathlib
import SureCode.Token.Lexer

/-!
# Tokens cover a text in order

Every movement of a cursor goes forward over whole characters (`Cursor.Ahead`), so the tokens of a
text follow one another, and the ends of each lie between two characters (`laid_tokenize`). The last
token is the end of the text and no other is (`tokenize_eq_append`). A step yields at most three tokens
besides those that close levels, and each of these was opened by a step before it, so there are at most
three for each character of the text (`length_tokenize_le`).
-/

namespace SureCode

/-! ### Going forward -/

namespace Cursor

variable {c d e : Cursor} {offset : Nat} {ch : Char} {cs : List Char}

/-- A cursor is the same as another or further on in the same text. -/
def Ahead (c d : Cursor) : Prop := ∃ passed, c.Reaches passed d

@[refl] theorem Ahead.refl (c : Cursor) : c.Ahead c := ⟨[], .refl c⟩

theorem Ahead.trans (first : c.Ahead d) (next : d.Ahead e) : c.Ahead e := by
  obtain ⟨passed, first⟩ := first
  obtain ⟨more, next⟩ := next
  exact ⟨passed ++ more, first.trans next⟩

theorem Ahead.offset_le (ahead : c.Ahead d) : c.offset ≤ d.offset := by
  obtain ⟨passed, -, offset⟩ := ahead
  omega

/-- What is ahead after one character is ahead before it. -/
theorem Ahead.cons (ahead : (⟨offset + ch.utf8Size, cs⟩ : Cursor).Ahead d) :
    (⟨offset, ch :: cs⟩ : Cursor).Ahead d := by
  refine Ahead.trans ⟨[ch], ?_, ?_⟩ ahead
  · rfl
  · simp

theorem ahead_advance (c : Cursor) : c.Ahead c.advance := c.reaches_advance

theorem ahead_eatIf (p : Char → Bool) (c : Cursor) : c.Ahead (c.eatIf p).2 := by
  unfold eatIf
  split
  · exact c.ahead_advance
  · exact .refl c

theorem ahead_skipFrom (p : Char → Bool) (offset : Nat) (cs : List Char) :
    (⟨offset, cs⟩ : Cursor).Ahead (skipFrom p offset cs) := by
  induction cs generalizing offset with
  | nil => exact .refl _
  | cons ch cs ih =>
    unfold skipFrom
    split
    · exact (ih _).cons
    · exact .refl _

theorem ahead_skipWhile (p : Char → Bool) (c : Cursor) : c.Ahead (c.skipWhile p) :=
  ahead_skipFrom p c.offset c.rest

theorem ahead_skipBreak (c : Cursor) : c.Ahead c.skipBreak := by
  have returned := c.ahead_eatIf (· == '\r')
  unfold skipBreak eat
  dsimp only
  split
  · exact returned.trans (ahead_eatIf _ _)
  · exact c.ahead_advance

theorem ahead_lineStart (inComment : Bool) (width : UInt32) (offset : Nat) (cs : List Char) :
    (⟨offset, cs⟩ : Cursor).Ahead (lineStart inComment width offset cs).2 := by
  fun_induction lineStart inComment width offset cs
  all_goals first
    | rfl
    | exact Ahead.cons (by assumption)

theorem ahead_skipTrivia (inBrackets inComment : Bool) (offset : Nat) (cs : List Char) :
    (⟨offset, cs⟩ : Cursor).Ahead (skipTrivia inBrackets inComment offset cs) := by
  fun_induction skipTrivia inBrackets inComment offset cs
  all_goals first
    | rfl
    | exact Ahead.cons (by assumption)
    | exact Ahead.cons (Ahead.cons (by assumption))
    | exact Ahead.cons (Ahead.cons (Ahead.cons (by assumption)))

end Cursor

namespace Lexeme

open Cursor

theorem ahead_exponent? {c d : Cursor} (found : exponent? c = some d) : c.Ahead d := by
  have once := c.ahead_advance
  have twice := once.trans c.advance.ahead_advance
  unfold exponent? at found
  dsimp only at found
  repeat' split at found
  all_goals cases found
  · exact once.trans (ahead_skipWhile _ _)
  · exact twice.trans (ahead_skipWhile _ _)

theorem ahead_floatTail (c : Cursor) : c.Ahead (floatTail c).2 := by
  unfold floatTail
  refine Ahead.trans ?_ (ahead_eatIf _ _)
  cases found : exponent? c with
  | none => exact .refl c
  | some d => exact ahead_exponent? found

theorem ahead_number (first : Char) (c : Cursor) : c.Ahead (number first c).2 := by
  have run : c.Ahead (digits false c) := c.ahead_skipWhile _
  have point := run.trans (ahead_eatIf (· == '.') (digits false c))
  unfold number
  split
  · exact c.ahead_advance.trans (ahead_skipWhile _ _)
  · dsimp only [eat]
    split
    · exact (point.trans (ahead_skipWhile _ _)).trans (ahead_floatTail _)
    · split
      · rename_i found
        exact (run.trans (ahead_exponent? found)).trans (ahead_floatTail _)
      · exact run.trans (ahead_eatIf _ _)

theorem ahead_stringBody (quote : Char) (triple : Bool) (offset : Nat) (cs : List Char) :
    (⟨offset, cs⟩ : Cursor).Ahead (stringBody quote triple offset cs).2 := by
  fun_induction stringBody quote triple offset cs
  all_goals first
    | rfl
    | exact Ahead.cons (by first | rfl | assumption)
    | exact Ahead.cons (Ahead.cons (by assumption))
    | exact Ahead.cons (Ahead.cons (Ahead.cons (.refl _)))

theorem ahead_quotedString (quote : Char) (c : Cursor) : c.Ahead (quotedString quote c).2 := by
  unfold quotedString
  refine Ahead.trans ?_ (ahead_stringBody _ _ _ _)
  split
  · exact c.ahead_advance.trans c.advance.ahead_advance
  · exact .refl c

theorem ahead_string (first : Char) (c : Cursor) : c.Ahead (string first c).2 := by
  unfold string
  split
  · exact ahead_quotedString first c
  · have skipped := c.ahead_skipWhile fun ch => !isQuote ch
    dsimp only
    split
    · exact (skipped.trans (ahead_advance _)).trans (ahead_quotedString _ _)
    · exact skipped

theorem ahead_mark (first : Char) (c : Cursor) : c.Ahead (mark first c).2 := by
  have once := c.ahead_advance
  unfold mark
  repeat' split
  · exact once.trans c.advance.ahead_advance
  · exact once
  · exact .refl c
  · exact .refl c

theorem ahead_scan (c : Cursor) : c.Ahead (scan c).2 := by
  have step := c.ahead_advance
  unfold scan
  split
  · exact .refl c
  · split
    · exact step.trans (ahead_string _ _)
    split
    · exact step.trans (ahead_number _ _)
    split
    · exact (step.trans (ahead_skipWhile _ _)).trans (ahead_floatTail _)
    split
    · exact step.trans (ahead_skipWhile _ _)
    · exact step.trans (ahead_mark _ _)

/-! ### Kinds of lexemes -/

theorem isLayout_of_mark? {cs text : List Char} {kind : Kind}
    (found : mark? cs = some (text, kind)) : kind.isLayout = false := by
  have none_layout : ∀ entry ∈ marksByLength, entry.2.isLayout = false := by decide +kernel
  exact none_layout (text, kind) (List.mem_of_find?_eq_some found)

theorem isLayout_of_ofKeyword? {word : String} {kind : Kind}
    (found : Kind.ofKeyword? word = some kind) : kind.isLayout = false := by
  have spelled := List.find?_some found
  unfold Kind.isLayout
  split
  case h_5 => rfl
  all_goals exact absurd spelled (by simp [Kind.keywordText?])

theorem isLayout_word (first : Char) (c : Cursor) : (word first c).1.isLayout = false := by
  unfold word
  dsimp only
  cases found : Kind.ofKeyword? (String.ofList (first :: c.rest.takeWhile continuesWord)) with
  | none => rfl
  | some kind => exact isLayout_of_ofKeyword? found

theorem isLayout_mark (first : Char) (c : Cursor) : (mark first c).1.isLayout = false := by
  unfold mark
  split
  · rename_i found
    exact isLayout_of_mark? found
  · rfl

theorem isLayout_number (first : Char) (c : Cursor) : (number first c).1.isLayout = false := by
  unfold number floatTail
  dsimp only
  repeat' split
  all_goals rfl

theorem isLayout_quotedString (quote : Char) (c : Cursor) :
    (quotedString quote c).1.isLayout = false := by
  unfold quotedString
  dsimp only
  generalize (stringBody _ _ _ _).1 = closed
  cases closed <;> rfl

theorem isLayout_string (first : Char) (c : Cursor) : (string first c).1.isLayout = false := by
  unfold string
  dsimp only
  repeat' split
  · exact isLayout_quotedString _ _
  · exact isLayout_quotedString _ _
  · rfl

/-- No lexeme is layout. -/
theorem isLayout_scan {c : Cursor} (more : c.rest ≠ []) : (scan c).1.isLayout = false := by
  unfold scan
  split
  · rename_i none
    simp [peek, more] at none
  · split
    · exact isLayout_string _ _
    split
    · exact isLayout_number _ _
    split
    · rfl
    split
    · exact isLayout_word _ _
    · exact isLayout_mark _ _

theorem scan_ne_eof {c : Cursor} (more : c.rest ≠ []) : (scan c).1 ≠ .eof := fun ended => by
  have lexeme := isLayout_scan more
  rw [ended] at lexeme
  cases lexeme

end Lexeme

/-! ### Places between characters -/

namespace Text

/-- So many bytes are some of the first characters of a text. -/
def Boundary (source : List Char) (n : Nat) : Prop :=
  ∃ before after, source = before ++ after ∧ n = byteLength before

variable {source : List Char}

theorem boundary_byteLength (source : List Char) : Boundary source (byteLength source) :=
  ⟨source, [], (List.append_nil source).symm, rfl⟩

theorem eq_nil_of_byteLength {cs : List Char} (zero : byteLength cs = 0) : cs = [] := by
  cases cs with
  | nil => rfl
  | cons c cs =>
    have := Char.utf8Size_pos c
    rw [byteLength_cons] at zero
    omega

theorem Boundary.le {n : Nat} (boundary : Boundary source n) : n ≤ byteLength source := by
  obtain ⟨before, after, rfl, rfl⟩ := boundary
  rw [byteLength_append]
  exact Nat.le_add_right _ _

/-- A later boundary splits what comes after some characters. -/
theorem Boundary.split {before rest : List Char} {n : Nat} (boundary : Boundary (before ++ rest) n)
    (le : byteLength before ≤ n) :
    ∃ middle after, rest = middle ++ after ∧ n = byteLength before + byteLength middle := by
  obtain ⟨upTo, after, split, rfl⟩ := boundary
  rcases List.append_eq_append_iff.1 split with ⟨middle, rfl, rfl⟩ | ⟨extra, rfl, rfl⟩
  · exact ⟨middle, after, rfl, byteLength_append _ _⟩
  · rw [byteLength_append] at le
    have none : byteLength extra = 0 := by omega
    obtain rfl := eq_nil_of_byteLength none
    exact ⟨[], rest, rfl, by simp⟩

/-- A span between two boundaries cuts a slice out of the text. -/
theorem exists_slice {s : Span} (start : Boundary source s.start) (stop : Boundary source s.stop) :
    ∃ slice, s.slice? source = some slice := by
  obtain ⟨before, rest, rfl, start_eq⟩ := start
  obtain ⟨middle, after, rfl, stop_eq⟩ := stop.split (start_eq ▸ s.ordered)
  rw [← List.append_assoc]
  exact ⟨middle, s.slice?_append before middle after start_eq stop_eq⟩

end Text

namespace Cursor

variable {source : List Char} {c : Cursor}

/-- A cursor in a text is between two of its characters. -/
theorem Ahead.boundary (within : (ofText source).Ahead c) : Text.Boundary source c.offset := by
  obtain ⟨passed, rest, offset⟩ := within
  exact ⟨passed, c.rest, rest, by simpa [ofText] using offset⟩

theorem Ahead.offset_eq (within : (ofText source).Ahead c) (done : c.rest = []) :
    c.offset = Text.byteLength source := by
  obtain ⟨passed, rest, offset⟩ := within
  have whole : source = passed := by simpa [done, ofText] using rest
  rw [offset, whole, ofText, Nat.zero_add]

end Cursor

/-! ### Tokens in order -/

/-- Tokens that follow one another from one offset to another and end between characters. -/
def Laid (source : List Char) : Nat → List Token → Nat → Prop
  | start, [], stop => start ≤ stop
  | start, t :: ts, stop =>
    start ≤ t.span.start ∧ Text.Boundary source t.span.start ∧ Text.Boundary source t.span.stop ∧
      Laid source t.span.stop ts stop

namespace Laid

variable {source : List Char} {start start' stop stop' middle : Nat} {ts us : List Token}
  {t : Token}

theorem le (laid : Laid source start ts stop) : start ≤ stop := by
  induction ts generalizing start with
  | nil => exact laid
  | cons t ts ih =>
    obtain ⟨before, -, -, rest⟩ := laid
    have := ih rest
    have := t.span.ordered
    omega

theorem append (first : Laid source start ts middle) (second : Laid source middle us stop) :
    Laid source start (ts ++ us) stop := by
  induction ts generalizing start with
  | nil =>
    cases us with
    | nil => exact Nat.le_trans first second
    | cons u us => exact ⟨Nat.le_trans first second.1, second.2⟩
  | cons t ts ih => exact ⟨first.1, first.2.1, first.2.2.1, ih first.2.2.2⟩

/-- Tokens laid in a row are laid in two rows. -/
theorem split (laid : Laid source start (ts ++ us) stop) :
    ∃ middle, Laid source start ts middle ∧ Laid source middle us stop := by
  induction ts generalizing start with
  | nil => exact ⟨start, Nat.le_refl start, laid⟩
  | cons t ts ih =>
    obtain ⟨before, first, last, rest⟩ := laid
    obtain ⟨middle, rest, others⟩ := ih rest
    exact ⟨middle, ⟨before, first, last, rest⟩, others⟩

theorem mono (laid : Laid source start ts stop) (le : start' ≤ start) :
    Laid source start' ts stop := by
  cases ts with
  | nil => exact le.trans laid
  | cons t ts => exact ⟨le.trans laid.1, laid.2⟩

/-- Some of the tokens follow one another as well. -/
theorem sublist (laid : Laid source start ts stop) (sublist : us.Sublist ts) :
    Laid source start us stop := by
  induction sublist generalizing start with
  | slnil => exact laid
  | cons t _ ih =>
    obtain ⟨before, -, -, rest⟩ := laid
    exact (ih rest).mono (before.trans t.span.ordered)
  | cons_cons t _ ih =>
    obtain ⟨before, first, last, rest⟩ := laid
    exact ⟨before, first, last, ih rest⟩

theorem mem (laid : Laid source start ts stop) (mem : t ∈ ts) :
    Text.Boundary source t.span.start ∧ Text.Boundary source t.span.stop := by
  obtain ⟨before, after, rfl⟩ := List.append_of_mem mem
  obtain ⟨-, -, -, first, last, -⟩ := laid.split
  exact ⟨first, last⟩

theorem stop_le (laid : Laid source start ts stop) (mem : t ∈ ts) : t.span.stop ≤ stop := by
  obtain ⟨front, back, rfl⟩ := List.append_of_mem mem
  obtain ⟨middle, -, -, -, -, rest⟩ := laid.split
  exact rest.le

/-- Tokens without text may all stand at one place. -/
theorem of_empty (boundary : Text.Boundary source stop) (le : start ≤ stop)
    (empty : ∀ t ∈ ts, t.span = .empty stop) : Laid source start ts stop := by
  induction ts generalizing start with
  | nil => exact le
  | cons t ts ih =>
    rw [List.forall_mem_cons] at empty
    rw [Laid, empty.1]
    exact ⟨le, boundary, boundary, ih (Nat.le_refl stop) empty.2⟩

end Laid

/-- No token is the end of the text. -/
def Unended (ts : List Token) : Prop := ∀ t ∈ ts, t.kind ≠ .eof

theorem unended_append {ts us : List Token} (first : Unended ts) (second : Unended us) :
    Unended (ts ++ us) := by
  intro t mem
  exact (List.mem_append.1 mem).elim (first t) (second t)

namespace Lexer

variable {source : List Char} {l next : Lexer} {ts : List Token}

/-! ### Steps -/

theorem indentation_spec (levels : List Nat) (width offset : Nat) :
    ∀ t ∈ (indentation levels width offset).1, t.span = .empty offset ∧ t.kind ≠ .eof := by
  intro t mem
  unfold indentation at mem
  dsimp only at mem
  split at mem
  · rw [List.mem_singleton] at mem
    subst mem
    exact ⟨rfl, nofun⟩
  · rw [List.mem_append, List.mem_map] at mem
    rcases mem with ⟨_, -, rfl⟩ | mem
    · exact ⟨rfl, nofun⟩
    · split at mem
      · cases mem
      · rw [List.mem_singleton] at mem
        subst mem
        exact ⟨rfl, nofun⟩

/-- The tokens that a line begins with have no text. -/
theorem beginLine_spec (within : (Cursor.ofText source).Ahead l.cursor) :
    l.cursor.Ahead l.beginLine.2.cursor ∧
      Laid source l.cursor.offset l.beginLine.1 l.beginLine.2.cursor.offset ∧
        Unended l.beginLine.1 := by
  have ahead := Cursor.ahead_lineStart false 0 l.cursor.offset l.cursor.rest
  unfold beginLine
  split
  · split
    · rename_i c found
      rw [found] at ahead
      exact ⟨ahead, ahead.offset_le, nofun⟩
    · rename_i width c found
      rw [found] at ahead
      have spec := indentation_spec l.levels width c.offset
      exact ⟨ahead, .of_empty (within.trans ahead).boundary ahead.offset_le fun t mem => (spec t mem).1,
        fun t mem => (spec t mem).2⟩
  · exact ⟨.refl _, Nat.le_refl _, nofun⟩

theorem closing_spec (last : Option Kind) (levels : List Nat) (offset : Nat) :
    ∃ front, closing last levels offset = front ++ [.empty .eof offset] ∧
      ∀ t ∈ front, t.span = .empty offset ∧ t.kind ≠ .eof := by
  refine ⟨_, rfl, fun t mem => ?_⟩
  rw [List.mem_append, List.mem_map] at mem
  rcases mem with mem | ⟨_, -, rfl⟩
  · split at mem
    · rw [List.mem_singleton] at mem
      subst mem
      exact ⟨rfl, nofun⟩
    · cases mem
  · exact ⟨rfl, nofun⟩

theorem lexeme_spec (within : (Cursor.ofText source).Ahead l.cursor) :
    (∃ next t, l.lexeme = ([t], some next) ∧ l.cursor.Ahead next.cursor ∧
        Laid source l.cursor.offset [t] next.cursor.offset ∧ t.kind ≠ .eof) ∨
      ∃ front, l.lexeme = (front ++ [.empty .eof (Text.byteLength source)], none) ∧
        Laid source l.cursor.offset front (Text.byteLength source) ∧ Unended front := by
  have skipped := Cursor.ahead_skipTrivia (l.depth != 0) false l.cursor.offset l.cursor.rest
  have between {kind : Kind} {c d : Cursor} (reached : l.cursor.Ahead c) (ahead : c.Ahead d) :
      Laid source l.cursor.offset [tokenBetween kind c d] d.offset := by
    have stop_eq : max c.offset d.offset = d.offset := Nat.max_eq_right ahead.offset_le
    refine ⟨reached.offset_le, (within.trans reached).boundary, ?_, stop_eq.le⟩
    change Text.Boundary source (max c.offset d.offset)
    rw [stop_eq]
    exact ((within.trans reached).trans ahead).boundary
  unfold lexeme
  dsimp only
  split
  · rename_i done
    right
    have stop_eq := (within.trans skipped).offset_eq done
    obtain ⟨front, eq, spec⟩ := closing_spec l.last l.levels (Text.byteLength source)
    rw [stop_eq, eq]
    refine ⟨front, rfl, .of_empty (Text.boundary_byteLength source) ?_ fun t mem => (spec t mem).1,
      fun t mem => (spec t mem).2⟩
    exact stop_eq ▸ skipped.offset_le
  · rename_i ch cs more
    left
    have nonempty : (Cursor.skipTrivia (l.depth != 0) false l.cursor.offset l.cursor.rest).rest
        ≠ [] := by simp [more]
    split
    · have broken := Cursor.ahead_skipBreak
        (Cursor.skipTrivia (l.depth != 0) false l.cursor.offset l.cursor.rest)
      exact ⟨_, _, rfl, skipped.trans broken, between skipped broken, nofun⟩
    · have scanned := Lexeme.ahead_scan
        (Cursor.skipTrivia (l.depth != 0) false l.cursor.offset l.cursor.rest)
      exact ⟨_, _, rfl, skipped.trans scanned, between skipped scanned, Lexeme.scan_ne_eof nonempty⟩

/-- A step begins a line and reads a lexeme. -/
theorem step_eq (l : Lexer) :
    l.step = (l.beginLine.1 ++ l.beginLine.2.lexeme.1, l.beginLine.2.lexeme.2) := rfl

/-- What a step yields is laid up to where it ends. -/
theorem step_spec (within : (Cursor.ofText source).Ahead l.cursor) :
    (∃ next ts, l.step = (ts, some next) ∧ l.cursor.Ahead next.cursor ∧
        Laid source l.cursor.offset ts next.cursor.offset ∧ Unended ts) ∨
      ∃ front, l.step = (front ++ [.empty .eof (Text.byteLength source)], none) ∧
        Laid source l.cursor.offset front (Text.byteLength source) ∧ Unended front := by
  obtain ⟨begun, opening, unended⟩ := beginLine_spec within
  rcases lexeme_spec (within.trans begun) with
    ⟨next, t, eq, ahead, laid, kind⟩ | ⟨front, eq, laid, rest⟩
  · refine .inl ⟨next, l.beginLine.1 ++ [t], by rw [step_eq, eq], begun.trans ahead,
      opening.append laid, unended_append unended fun u mem => ?_⟩
    rw [List.mem_singleton] at mem
    exact mem ▸ kind
  · refine .inr ⟨l.beginLine.1 ++ front, by rw [step_eq, eq, List.append_assoc],
      opening.append laid, unended_append unended rest⟩

theorem tokens_of_step_none (last : l.step = (ts, none)) : l.tokens = ts := by
  rw [Lexer.tokens.eq_def]
  split
  · rename_i found
    exact (Prod.mk.inj (found.symm.trans last)).1
  · rename_i found
    simp [last] at found

theorem tokens_of_step_some (more : l.step = (ts, some next)) : l.tokens = ts ++ next.tokens := by
  rw [Lexer.tokens.eq_def]
  split
  · rename_i found
    simp [more] at found
  · rename_i found
    obtain ⟨rfl, same⟩ := Prod.mk.inj (found.symm.trans more)
    rw [Option.some.inj same]

/-- The tokens from a place on follow one another to the end of the text. -/
theorem tokens_spec (within : (Cursor.ofText source).Ahead l.cursor) :
    ∃ front, l.tokens = front ++ [.empty .eof (Text.byteLength source)] ∧
      Laid source l.cursor.offset front (Text.byteLength source) ∧ Unended front := by
  induction l using Lexer.tokens.induct with
  | case1 l ts found =>
    rcases step_spec within with ⟨next, _, eq, -⟩ | ⟨front, eq, laid⟩
    · simp [found] at eq
    · exact ⟨front, tokens_of_step_none eq, laid⟩
  | case2 l ts next found ih =>
    rcases step_spec within with ⟨next', more, eq, ahead, laid, unended⟩ | ⟨front, eq, -⟩
    · obtain ⟨-, same⟩ := Prod.mk.inj (found.symm.trans eq)
      obtain rfl := Option.some.inj same
      obtain ⟨front, eq', rest, unended'⟩ := ih (within.trans ahead)
      exact ⟨more ++ front, by rw [tokens_of_step_some eq, eq', List.append_assoc],
        laid.append rest, unended_append unended unended'⟩
    · simp [found] at eq

/-! ### How many tokens there are -/

/-- A line begins with a token for each level that it closes, and perhaps one more. -/
theorem length_indentation_le (levels : List Nat) (width offset : Nat) :
    (indentation levels width offset).1.length + (indentation levels width offset).2.length
      ≤ levels.length + 2 := by
  unfold indentation
  dsimp only
  split
  · simp only [List.length_cons, List.length_nil]
    omega
  · have split := congrArg List.length
      (List.takeWhile_append_dropWhile (p := (decide <| width < ·)) (l := levels))
    simp only [List.length_append, List.length_map] at split ⊢
    split <;> simp only [List.length_cons, List.length_nil] <;> omega

theorem length_opening_le (l : Lexer) :
    l.beginLine.1.length + l.beginLine.2.levels.length ≤ l.levels.length + 2 := by
  unfold beginLine
  split
  · split
    · change 0 + l.levels.length ≤ _
      omega
    · exact length_indentation_le _ _ _
  · change 0 + l.levels.length ≤ _
    omega

/-- At the end of a text the open levels are closed. -/
theorem length_closing_le (last : Option Kind) (levels : List Nat) (offset : Nat) :
    (closing last levels offset).length ≤ levels.length + 2 := by
  unfold closing
  dsimp only
  simp only [List.length_append, List.length_map, List.length_singleton]
  split <;> simp only [List.length_cons, List.length_nil] <;> omega

/-- A lexeme is one token and leaves the levels as they are, and the end of the text closes them. -/
theorem length_lexeme_le (l : Lexer) :
    (∀ ts next, l.lexeme = (ts, some next) → ts.length = 1 ∧ next.levels = l.levels) ∧
      ∀ ts, l.lexeme = (ts, none) → ts.length ≤ l.levels.length + 2 := by
  unfold Lexer.lexeme
  dsimp only
  split
  · refine ⟨nofun, fun ts eq => ?_⟩
    obtain ⟨rfl, -⟩ := Prod.mk.inj eq
    exact length_closing_le _ _ _
  · split
    · refine ⟨fun ts next eq => ?_, nofun⟩
      obtain ⟨rfl, same⟩ := Prod.mk.inj eq
      obtain rfl := Option.some.inj same
      exact ⟨rfl, rfl⟩
    · refine ⟨fun ts next eq => ?_, nofun⟩
      obtain ⟨rfl, same⟩ := Prod.mk.inj eq
      obtain rfl := Option.some.inj same
      exact ⟨rfl, rfl⟩

/-- A step yields a token for each level that it closes, and three more at most. -/
theorem length_step_le (l : Lexer) :
    (∀ ts next, l.step = (ts, some next) → ts.length + next.levels.length ≤ l.levels.length + 3) ∧
      ∀ ts, l.step = (ts, none) → ts.length ≤ l.levels.length + 4 := by
  have opening := l.length_opening_le
  have lexeme := l.beginLine.2.length_lexeme_le
  rw [step_eq]
  refine ⟨fun ts next eq => ?_, fun ts eq => ?_⟩
  · obtain ⟨rfl, more⟩ := Prod.mk.inj eq
    obtain ⟨one, same⟩ := lexeme.1 _ next (Prod.ext rfl more)
    rw [List.length_append, one, same]
    omega
  · obtain ⟨rfl, none⟩ := Prod.mk.inj eq
    have last : l.beginLine.2.lexeme.1.length ≤ l.beginLine.2.levels.length + 2 :=
      lexeme.2 _ (Prod.ext rfl none)
    rw [List.length_append]
    omega

theorem length_tokens_le (l : Lexer) :
    l.tokens.length ≤ l.levels.length + 3 * l.cursor.rest.length + 4 := by
  induction l using Lexer.tokens.induct with
  | case1 l ts found =>
    have := l.length_step_le.2 ts found
    rw [tokens_of_step_none found]
    omega
  | case2 l ts next found ih =>
    have := l.length_step_le.1 ts next found
    have := length_step_lt found
    rw [tokens_of_step_some found, List.length_append]
    omega

end Lexer

/-- A text has at most three tokens for each of its characters, and four more. -/
theorem length_tokenize_le (text : String) : (tokenize text).length ≤ 3 * text.length + 4 := by
  have := (Lexer.ofText text.toList).length_tokens_le
  rw [← String.length_toList]
  change (tokenize text).length ≤ 0 + 3 * text.toList.length + 4 at this
  omega

/-- The tokens of a text are the end of the text and others before it, which follow one another. -/
theorem tokenize_eq_append (text : String) :
    ∃ front, tokenize text = front ++ [.empty .eof (Text.byteLength text.toList)] ∧
      Laid text.toList 0 front (Text.byteLength text.toList) ∧ Unended front :=
  Lexer.tokens_spec (.refl _)

end SureCode
