import Mathlib
import SureCode.Proofs.Token.Spelling
import SureCode.Proofs.Token.Words

/-!
# What comes after a lexeme

Reading a lexeme looks at characters behind it, but never past a line break: two cursors before the
same characters, one of which then stops, read the same lexeme unless the other reads on beyond them
(`agree_scan`). String literals, which may go on over several lines, are left out here.
-/

namespace SureCode

open Cursor Lexeme

/-! ### Parallel cursors -/

namespace Cursor

/-- No character that satisfies `p` breaks a line. -/
structure Inline (p : Char → Bool) : Prop where
  feed : p '\n' = false
  returned : p '\r' = false

/-- A text that is empty or goes on with a line break. -/
def Stops (cs : List Char) : Prop := cs.head?.all isBreak = true

/-- Two cursors are before the same characters; the text of the one then goes on with `more` and that
of the other with `more'`. -/
def Parallel (more more' : List Char) (c c' : Cursor) : Prop :=
  ∃ cs, c.rest = cs ++ more ∧ c'.rest = cs ++ more'

/-- Two cursors find the same and are parallel behind it. -/
def Agree {α : Type} (more more' : List Char) (found found' : α × Cursor) : Prop :=
  found'.1 = found.1 ∧ Parallel more more' found.2 found'.2

/-- A cursor is not beyond the beginning of `more`, or `more` stops there. -/
def UpTo (more : List Char) (c : Cursor) : Prop := Stops more ∨ more.length ≤ c.rest.length

variable {more more' word : List Char} {c c' d d' : Cursor} {p : Char → Bool} {ch : Char}

theorem Inline.isBreak (inline : Inline p) (sat : p ch = true) : isBreak ch = false := by
  by_contra breaks
  rw [Bool.not_eq_false, Cursor.isBreak, Bool.or_eq_true, beq_iff_eq, beq_iff_eq] at breaks
  rcases breaks with rfl | rfl
  · simp [inline.feed] at sat
  · simp [inline.returned] at sat

/-- A text is the rest of its line and what comes after it. -/
theorem exists_stops (cs : List Char) :
    ∃ line more, cs = line ++ more ∧ (∀ ch ∈ line, isBreak ch = false) ∧ Stops more := by
  refine ⟨cs.takeWhile fun ch => !isBreak ch, cs.dropWhile fun ch => !isBreak ch,
    List.takeWhile_append_dropWhile.symm, fun ch mem => ?_, ?_⟩
  · simpa using List.mem_takeWhile_imp mem
  · have last := List.head?_dropWhile_not (fun ch => !isBreak ch) cs
    rw [Stops]
    cases head : (cs.dropWhile fun ch => !isBreak ch).head? with
    | none => rfl
    | some ch => simpa [head] using last

theorem UpTo.of_le (within : UpTo more d) (le : d.rest.length ≤ c.rest.length) :
    UpTo more c :=
  within.imp_right fun inside => inside.trans le

theorem Parallel.symm (parallel : Parallel more more' c c') : Parallel more' more c' c := by
  obtain ⟨cs, rest, rest'⟩ := parallel
  exact ⟨cs, rest', rest⟩

@[simp] theorem reaches_nil_iff : c.Reaches [] d ↔ c = d := by
  obtain ⟨offset, rest⟩ := c
  obtain ⟨offset', rest'⟩ := d
  simp [Reaches, and_comm, eq_comm]

/-- The first character that is passed is the next one. -/
@[simp] theorem reaches_cons_iff :
    c.Reaches (ch :: word) d ↔ c.peek = some ch ∧ c.advance.Reaches word d := by
  obtain ⟨offset, rest⟩ := c
  cases rest with
  | nil => simp [Reaches, peek]
  | cons first cs =>
    simp only [Reaches, peek, advance, List.cons_append, List.cons.injEq, List.head?_cons,
      Option.some.injEq, Text.byteLength_cons, and_assoc]
    refine and_congr_right fun same => ?_
    rw [same, Nat.add_assoc]

theorem reaches_cons {offset : Nat} {cs : List Char}
    (reached : (⟨offset + ch.utf8Size, cs⟩ : Cursor).Reaches word d) :
    (⟨offset, ch :: cs⟩ : Cursor).Reaches (ch :: word) d :=
  reaches_cons_iff.2 ⟨rfl, reached⟩

theorem reaches_advance_of_peek (next : c.peek = some ch) : c.Reaches [ch] c.advance :=
  reaches_cons_iff.2 ⟨next, .refl _⟩

theorem cons_advance (next : c.peek = some ch) : ch :: c.advance.rest = c.rest :=
  (reaches_advance_of_peek next).1.symm

theorem second_eq_peek (c : Cursor) : c.second = c.advance.peek := by
  obtain ⟨offset, _ | ⟨_, _ | _⟩⟩ := c <;> rfl

theorem third_eq_peek (c : Cursor) : c.third = c.advance.advance.peek := by
  obtain ⟨offset, _ | ⟨_, _ | ⟨_, _ | _⟩⟩⟩ := c <;> rfl

theorem Reaches.unique (reached : c.Reaches word d) (reached' : c.Reaches word d') : d = d' := by
  obtain ⟨offset, rest⟩ := d
  obtain ⟨offset', rest'⟩ := d'
  have same : rest = rest' := List.append_cancel_left (reached.1.symm.trans reached'.1)
  rw [same, show offset = offset' from reached.2.trans reached'.2.symm]

/-- What the one cursor passes inside its line, the other passes too. -/
theorem Parallel.reaches (parallel : Parallel more more' c c') (reached : c.Reaches word d)
    (inside : ∀ ch ∈ word, isBreak ch = false) (within : UpTo more d) :
    ∃ d', c'.Reaches word d' ∧ Parallel more more' d d' := by
  obtain ⟨cs, rest, rest'⟩ := parallel
  have split : word ++ d.rest = cs ++ more := reached.1.symm.trans rest
  rcases List.append_eq_append_iff.1 split with ⟨left, rfl, ahead⟩ | ⟨beyond, rfl, behind⟩
  · refine ⟨⟨c'.offset + Text.byteLength word, left ++ more'⟩, ⟨?_, rfl⟩, left, ahead, rfl⟩
    rw [rest', List.append_assoc]
  · have nothing : beyond = [] := by
      cases beyond with
      | nil => rfl
      | cons ch beyond =>
        rcases within with stops | le
        · have breaks : isBreak ch = true := by simpa [Stops, behind] using stops
          exact absurd breaks (by simp [inside ch (by simp)])
        · rw [behind, List.length_append, List.length_cons] at le
          omega
    subst nothing
    refine ⟨⟨c'.offset + Text.byteLength (cs ++ []), more'⟩, ⟨by simpa using rest', rfl⟩, [], ?_, rfl⟩
    simpa using behind.symm

/-- If the character before the one cursor satisfies `p`, so does that before the other. -/
theorem Parallel.any_peek (parallel : Parallel more more' c c')
    (inline : Inline p) (next : c.peek.any p = true)
    (within : UpTo more c.advance) :
    c'.peek.any p = true ∧ Parallel more more' c.advance c'.advance := by
  obtain ⟨ch, first, sat⟩ := (Option.any_eq_true _ _).1 next
  have inside : ∀ a ∈ [ch], isBreak a = false := by simpa using inline.isBreak sat
  obtain ⟨d', reached', ahead⟩ :=
    parallel.reaches (reaches_advance_of_peek first) inside within
  obtain ⟨first', rfl⟩ : c'.peek = some ch ∧ c'.advance = d' := by simpa using reached'
  exact ⟨by simpa [first'] using sat, ahead⟩

/-- Nothing is passed where the next character does not satisfy `p`. -/
theorem eatIf_eq_self (other : (c.eatIf p).1 = false) : (c.eatIf p).2 = c := by
  unfold Cursor.eatIf at other ⊢
  split at other
  · cases other
  · rename_i differs
    rw [if_neg differs]

section Stopping

variable (stops : Stops more') (inline : Inline p)
include stops inline

/-- The character before the one cursor satisfies `p` if and only if that before the other does. -/
theorem Parallel.peek (parallel : Parallel more more' c c')
    (within : c.peek.any p = true → UpTo more c.advance) :
    c'.peek.any p = c.peek.any p := by
  cases next : c.peek.any p with
  | true => exact (parallel.any_peek inline next (within next)).1
  | false =>
    by_contra other
    have here := (parallel.symm.any_peek inline (Bool.eq_true_of_not_eq_false other) (.inl stops)).1
    simp [next] at here

theorem Parallel.eatIf (parallel : Parallel more more' c c') (within : UpTo more (c.eatIf p).2) :
    Agree more more' (c.eatIf p) (c'.eatIf p) := by
  have eaten (next : c.peek.any p = true) : UpTo more c.advance := by
    rwa [Cursor.eatIf, if_pos next] at within
  rw [Cursor.eatIf, Cursor.eatIf, parallel.peek stops inline eaten]
  cases next : c.peek.any p with
  | true => exact ⟨rfl, (parallel.any_peek inline next (eaten next)).2⟩
  | false => exact ⟨rfl, parallel⟩

end Stopping

theorem skipFrom_eq (p : Char → Bool) (offset : Nat) (cs : List Char) :
    skipFrom p offset cs
      = ⟨offset + Text.byteLength (cs.takeWhile p), cs.dropWhile p⟩ := by
  conv_lhs => rw [← List.takeWhile_append_dropWhile (p := p) (l := cs)]
  refine skipFrom_append (fun ch mem => List.mem_takeWhile_imp mem) fun ch head => ?_
  have := List.head?_dropWhile_not p cs
  rw [Option.mem_def.1 head] at this
  exact this

theorem reaches_skipWhile (p : Char → Bool) (c : Cursor) :
    c.Reaches (c.rest.takeWhile p) (c.skipWhile p) := by
  rw [skipWhile, skipFrom_eq]
  exact ⟨List.takeWhile_append_dropWhile.symm, rfl⟩

theorem any_peek_skipWhile (p : Char → Bool) (c : Cursor) :
    (c.skipWhile p).peek.any p = false := by
  rw [skipWhile, skipFrom_eq]
  have := List.head?_dropWhile_not p c.rest
  rw [Cursor.peek]
  cases head : (c.rest.dropWhile p).head? with
  | none => rfl
  | some ch => simpa [head] using this

theorem skipWhile_advance (next : c.peek = some ch) (sat : p ch = true) :
    c.advance.skipWhile p = c.skipWhile p := by
  obtain ⟨offset, rest⟩ := c
  cases rest with
  | nil => cases next
  | cons first cs =>
    obtain rfl : first = ch := Option.some.inj next
    exact (if_pos sat).symm

/-- Both cursors pass the same characters. -/
theorem Parallel.skipWhile (stops : Stops more') (inline : Inline p)
    (parallel : Parallel more more' c c') (within : UpTo more (c.skipWhile p)) :
    Agree more more' (c.rest.takeWhile p, c.skipWhile p) (c'.rest.takeWhile p, c'.skipWhile p) := by
  have all : ∀ ch ∈ c.rest.takeWhile p, p ch = true := fun ch mem => List.mem_takeWhile_imp mem
  obtain ⟨⟨offset, rest⟩, ⟨split, rfl⟩, ahead⟩ :=
    parallel.reaches (c.reaches_skipWhile p) (fun ch mem => inline.isBreak (all ch mem)) within
  have last := any_peek_skipWhile p c
  have last' : ∀ ch ∈ rest.head?, p ch = false := fun ch head => by
    have same := ahead.peek stops inline fun next => by simp [last] at next
    rw [last] at same
    simpa [Cursor.peek, Option.mem_def.1 head] using same
  have passed : c'.skipWhile p = ⟨c'.offset + Text.byteLength (c.rest.takeWhile p), rest⟩ := by
    rw [Cursor.skipWhile, split, skipFrom_append all last']
  exact ⟨by rw [split, takeWhile_append all last'], by rwa [passed]⟩

end Cursor

/-! ### Lexemes on one line -/

namespace Lexeme

variable {more more' : List Char} {c c' d e : Cursor} {first : Char}

theorem inline_isDigit (hex : Bool) : Inline (isDigit hex) := by
  cases hex <;> exact ⟨by decide, by decide⟩

theorem inline_charDigit : Inline Char.isDigit := ⟨by decide, by decide⟩

theorem inline_isBase : Inline isBase := ⟨by decide, by decide⟩

theorem inline_continuesWord : Inline continuesWord := ⟨by decide, by decide⟩

theorem inline_isQuote : Inline isQuote := ⟨by decide, by decide⟩

theorem inline_isStringLetter : Inline isStringLetter := ⟨by decide, by decide⟩

/-- The letter of an exponent, perhaps with a sign. -/
def isExponentMark : List Char → Bool
  | [letter] => letter == 'e' || letter == 'E'
  | [letter, sign] => (letter == 'e' || letter == 'E') && (sign == '+' || sign == '-')
  | _ => false

theorem isBreak_of_isExponentMark {mark : List Char} (isMark : isExponentMark mark = true) :
    ∀ ch ∈ mark, isBreak ch = false := by
  unfold isExponentMark at isMark
  split at isMark
  · rename_i letter
    have letters : letter = 'e' ∨ letter = 'E' := by simpa using isMark
    rcases letters with rfl | rfl <;> simp [isBreak]
  · rename_i letter sign
    have both : (letter = 'e' ∨ letter = 'E') ∧ (sign = '+' ∨ sign = '-') := by simpa using isMark
    rcases both with ⟨rfl | rfl, rfl | rfl⟩ <;> simp [isBreak]
  · cases isMark

/-- An exponent is its mark and at least one digit. -/
theorem exponent?_eq_some_iff :
    exponent? c = some e ↔ ∃ mark d, isExponentMark mark = true ∧ c.Reaches mark d ∧
      d.peek.any Char.isDigit = true ∧ digits false d = e := by
  unfold exponent?
  dsimp only
  rw [second_eq_peek, third_eq_peek]
  constructor
  · intro found
    split at found
    case isFalse => cases found
    case isTrue letter =>
      obtain ⟨ch, next, isLetter⟩ := (Option.any_eq_true _ _).1 letter
      split at found
      case isTrue digit =>
        exact ⟨[ch], c.advance, isLetter, reaches_advance_of_peek next, digit,
          Option.some.inj found⟩
      case isFalse =>
        split at found
        case isFalse => cases found
        case isTrue signed =>
          obtain ⟨sign, digit⟩ := Bool.and_eq_true_iff.1 signed
          obtain ⟨s, next', isSign⟩ := (Option.any_eq_true _ _).1 sign
          refine ⟨[ch, s], c.advance.advance, ?_, ?_, digit, Option.some.inj found⟩
          · rw [isExponentMark, isLetter, isSign, Bool.and_self]
          · exact (reaches_advance_of_peek next).trans (reaches_advance_of_peek next')
  · rintro ⟨mark, d, isMark, reached, digit, rfl⟩
    unfold isExponentMark at isMark
    split at isMark
    · obtain ⟨next, rfl⟩ : c.peek = some _ ∧ c.advance = d := by simpa using reached
      rw [next, Option.any_some, if_pos isMark, if_pos digit]
    · rename_i letter sign
      obtain ⟨isLetter, isSign⟩ := Bool.and_eq_true_iff.1 isMark
      obtain ⟨next, next', rfl⟩ :
          c.peek = some letter ∧ c.advance.peek = some sign ∧ c.advance.advance = d := by
        simpa using reached
      have plain : sign.isDigit = false := by
        have signs : sign = '+' ∨ sign = '-' := by simpa using isSign
        rcases signs with rfl | rfl <;> decide
      rw [next, next', Option.any_some, Option.any_some, Option.any_some, if_pos isLetter,
        if_neg (by simp [plain]), if_pos (by simp [isSign, digit])]
    · cases isMark

/-- A number to base ten whose first digit has been read. -/
def decimal (c : Cursor) : Kind × Cursor :=
  let d := digits false c
  if (d.eat '.').1 then floatTail (digits false (d.eat '.').2)
  else match exponent? d with
    | some e => floatTail e
    | none => (if (imaginary d).1 then .floatNumber else .intNumber, (imaginary d).2)

theorem number_eq (first : Char) (c : Cursor) :
    number first c = if first == '0' && c.peek.any isBase then
        (.intNumber, digits (c.peek.any fun ch => ch == 'x' || ch == 'X') c.advance)
      else decimal c := rfl

theorem isPrefixOf_iff_reaches {text : List Char} :
    text.isPrefixOf c.rest = true ↔ ∃ d, c.Reaches text d := by
  rw [List.isPrefixOf_iff_prefix]
  refine ⟨fun ⟨rest, eq⟩ => ⟨⟨_, rest⟩, eq.symm, rfl⟩, fun ⟨d, reached⟩ => ⟨d.rest, reached.1.symm⟩⟩

theorem marks_inside : ∀ entry ∈ marksByLength,
    entry.1 ≠ [] ∧ entry.1.length ≤ 3 ∧ ∀ ch ∈ entry.1, isBreak ch = false := by
  have table : ∀ entry ∈ marksByLength, (!entry.1.isEmpty && decide (entry.1.length ≤ 3) &&
      entry.1.all fun ch => !isBreak ch) = true := by
    decide +kernel
  intro entry mem
  simpa [and_assoc] using table entry mem

/-- The longest mark before a cursor is passed. -/
theorem exists_mark {text : List Char} {kind : Kind} (next : c.peek = some first)
    (found : mark? c.rest = some (text, kind)) :
    ∃ d, mark first c.advance = (kind, d) ∧ c.Reaches text d := by
  obtain ⟨nonempty, short, -⟩ := marks_inside _ (List.mem_of_find?_eq_some found)
  have begins := List.find?_some found
  obtain ⟨d, reached⟩ := isPrefixOf_iff_reaches.1 begins
  refine ⟨d, ?_, reached⟩
  rw [mark, cons_advance next, found]
  obtain _ | ⟨a, _ | ⟨b, _ | ⟨e, _ | _⟩⟩⟩ := text
  · exact absurd rfl nonempty
  · simp [(reaches_nil_iff.1 (reaches_cons_iff.1 reached).2)]
  · simp_all
  · simp_all
  · simp only [List.length_cons] at short
    omega

/-- A number to base ten does not end before its point. -/
theorem length_decimal_le (c : Cursor) :
    (decimal c).2.rest.length ≤ ((digits false c).eat '.').2.rest.length := by
  unfold decimal
  dsimp only
  split
  · exact (length_floatTail_le _).trans (length_digits_le false _)
  · rename_i whole
    rw [eat, eatIf_eq_self (Bool.eq_false_iff.2 whole)]
    split
    · rename_i found
      exact (length_floatTail_le _).trans (length_exponent?_le found)
    · exact length_imaginary_le _

section Stopping

variable (stops : Stops more')
include stops

theorem parallel_digits {hex : Bool} (parallel : Parallel more more' c c')
    (within : UpTo more (digits hex c)) :
    Parallel more more' (digits hex c) (digits hex c') :=
  (parallel.skipWhile stops (inline_isDigit hex) within).2

/-- Both cursors are before an exponent or neither is. -/
theorem parallel_exponent? (parallel : Parallel more more' c c')
    (within : ∀ e, exponent? c = some e → UpTo more e) :
    (exponent? c = none ∧ exponent? c' = none) ∨
      ∃ e e', exponent? c = some e ∧ exponent? c' = some e' ∧ Parallel more more' e e' := by
  cases found : exponent? c with
  | none =>
    refine .inl ⟨rfl, ?_⟩
    by_contra other
    obtain ⟨e', found'⟩ := Option.ne_none_iff_exists'.1 other
    obtain ⟨mark, d', isMark, reached', digit, rfl⟩ := exponent?_eq_some_iff.1 found'
    obtain ⟨d, reached, ahead⟩ :=
      parallel.symm.reaches reached' (isBreak_of_isExponentMark isMark) (.inl stops)
    have here := exponent?_eq_some_iff.2
      ⟨mark, d, isMark, reached, (ahead.any_peek inline_charDigit digit (.inl stops)).1, rfl⟩
    simp [found] at here
  | some e =>
    have inside := within e found
    obtain ⟨mark, d, isMark, reached, digit, rfl⟩ := exponent?_eq_some_iff.1 found
    obtain ⟨ch, next, isDigit⟩ := (Option.any_eq_true _ _).1 digit
    have run : digits false d.advance = digits false d :=
      skipWhile_advance next (isDigit_of_charDigit false isDigit)
    obtain ⟨d', reached', ahead⟩ :=
      parallel.reaches reached (isBreak_of_isExponentMark isMark)
        (inside.of_le (length_digits_le false d))
    have digit' := (ahead.any_peek inline_charDigit digit
      (inside.of_le (run ▸ length_digits_le false d.advance))).1
    exact .inr ⟨_, _, rfl, exponent?_eq_some_iff.2 ⟨mark, d', isMark, reached', digit', rfl⟩,
      parallel_digits stops ahead inside⟩

theorem agree_imaginary (parallel : Parallel more more' c c')
    (within : UpTo more (imaginary c).2) : Agree more more' (imaginary c) (imaginary c') :=
  parallel.eatIf stops ⟨by decide, by decide⟩ within

theorem agree_floatTail (parallel : Parallel more more' c c')
    (within : UpTo more (floatTail c).2) : Agree more more' (floatTail c) (floatTail c') := by
  have exponent := parallel_exponent? stops parallel fun e found => by
    rw [floatTail, found] at within
    exact within.of_le (length_imaginary_le e)
  rcases exponent with ⟨found, found'⟩ | ⟨e, e', found, found', ahead⟩
  all_goals
    rw [floatTail, found] at within ⊢
    rw [floatTail, found']
  · exact ⟨rfl, (agree_imaginary stops parallel within).2⟩
  · exact ⟨rfl, (agree_imaginary stops ahead within).2⟩

theorem agree_decimal (parallel : Parallel more more' c c')
    (within : UpTo more (decimal c).2) : Agree more more' (decimal c) (decimal c') := by
  have pointed := within.of_le (length_decimal_le c)
  have run := parallel_digits stops parallel (pointed.of_le (length_eatIf_le _ _))
  obtain ⟨same, beyond⟩ :=
    run.eatIf stops ⟨by decide, by decide⟩ pointed
  unfold decimal at within ⊢
  dsimp only at within ⊢
  rw [eat, eat, same]
  split at within
  · rename_i point
    rw [eat] at point
    rw [if_pos point, if_pos point]
    exact agree_floatTail stops
      (parallel_digits stops beyond (within.of_le (length_floatTail_le _))) within
  · rename_i point
    rw [eat] at point
    rw [if_neg point, if_neg point]
    have exponent := parallel_exponent? stops run fun e found => by
      rw [found] at within
      exact within.of_le (length_floatTail_le e)
    rcases exponent with ⟨found, found'⟩ | ⟨e, e', found, found', ahead⟩
    · rw [found] at within ⊢
      rw [found']
      obtain ⟨same, ahead⟩ := agree_imaginary stops run within
      exact ⟨by rw [same], ahead⟩
    · rw [found] at within ⊢
      rw [found']
      exact agree_floatTail stops ahead within

theorem agree_number (parallel : Parallel more more' c c')
    (within : UpTo more (number first c).2) :
    Agree more more' (number first c) (number first c') := by
  rw [number_eq] at within ⊢
  rw [number_eq]
  by_cases based : (first == '0' && c.peek.any isBase) = true
  · rw [if_pos based] at within ⊢
    obtain ⟨zero, next⟩ := Bool.and_eq_true_iff.1 based
    have inside := within.of_le (length_digits_le _ _)
    obtain ⟨next', ahead⟩ := parallel.any_peek inline_isBase next inside
    rw [if_pos (Bool.and_eq_true_iff.2 ⟨zero, next'⟩),
      parallel.peek stops ⟨by decide, by decide⟩ fun _ => inside]
    exact ⟨rfl, parallel_digits stops ahead within⟩
  · have based' : ¬ (first == '0' && c'.peek.any isBase) = true := fun based' => by
      obtain ⟨zero, next'⟩ := Bool.and_eq_true_iff.1 based'
      have next := (parallel.symm.any_peek inline_isBase next' (.inl stops)).1
      exact based (Bool.and_eq_true_iff.2 ⟨zero, next⟩)
    rw [if_neg based] at within ⊢
    rw [if_neg based']
    exact agree_decimal stops parallel within

theorem agree_word (parallel : Parallel more more' c c') (within : UpTo more (word first c).2) :
    Agree more more' (word first c) (word first c') := by
  obtain ⟨same, ahead⟩ := parallel.skipWhile stops inline_continuesWord within
  rw [word, word, show c'.rest.takeWhile continuesWord = _ from same]
  exact ⟨rfl, ahead⟩

theorem agree_mark (parallel : Parallel more more' c c') (next : c.peek = some first)
    (next' : c'.peek = some first) (ahead : Parallel more more' c.advance c'.advance)
    (within : UpTo more (mark first c.advance).2) :
    Agree more more' (mark first c.advance) (mark first c'.advance) := by
  have back : ∀ entry ∈ marksByLength, entry.1.isPrefixOf c'.rest = true →
      entry.1.isPrefixOf c.rest = true := fun entry mem begins => by
    obtain ⟨e', reached'⟩ := isPrefixOf_iff_reaches.1 begins
    obtain ⟨e, reached, -⟩ := parallel.symm.reaches reached' (marks_inside entry mem).2.2 (.inl stops)
    exact isPrefixOf_iff_reaches.2 ⟨e, reached⟩
  cases found : mark? c.rest with
  | none =>
    have found' : mark? c'.rest = none := List.find?_eq_none.2 fun entry mem begins =>
      List.find?_eq_none.1 found entry mem (back entry mem begins)
    rw [mark, mark, cons_advance next, cons_advance next', found, found']
    exact ⟨rfl, ahead⟩
  | some entry =>
    obtain ⟨text, kind⟩ := entry
    obtain ⟨nonempty, -, inside⟩ := marks_inside _ (List.mem_of_find?_eq_some found)
    obtain ⟨d, read, reached⟩ := exists_mark next found
    rw [read] at within ⊢
    obtain ⟨d', reached', ahead⟩ := parallel.reaches reached inside within
    have found' : mark? c'.rest = some (text, kind) := by
      obtain ⟨-, before, after, split, others⟩ := List.find?_eq_some_iff_append.1 found
      refine List.find?_eq_some_iff_append.2
        ⟨isPrefixOf_iff_reaches.2 ⟨d', reached'⟩, before, after, split, fun entry mem => ?_⟩
      have other := others entry mem
      rw [Bool.not_eq_true'] at other ⊢
      by_contra begins
      have again := back entry (split ▸ List.mem_append_left _ mem) (Bool.eq_true_of_not_eq_false begins)
      simp [again] at other
    obtain ⟨e', read', reached''⟩ := exists_mark next' found'
    obtain rfl := reached'.unique reached''
    rw [read']
    exact ⟨rfl, ahead⟩

end Stopping

/-- A string literal begins with at most two letters and a quote. -/
theorem startsString_iff :
    startsString c = true ↔ ∃ letters quote d, letters.length ≤ 2 ∧
      (∀ ch ∈ letters, isStringLetter ch = true) ∧ isQuote quote = true ∧
      c.Reaches (letters ++ [quote]) d := by
  rw [startsString, second_eq_peek, third_eq_peek]
  simp only [Bool.or_eq_true, Bool.and_eq_true, Option.any_eq_true]
  constructor
  · rintro ((⟨quote, next, isQuote⟩ | ⟨⟨a, first, letter⟩, quote, next, isQuote⟩) |
      ⟨⟨⟨a, first, letter⟩, b, second, letter'⟩, quote, next, isQuote⟩)
    · exact ⟨[], quote, c.advance, by simp, by simp, isQuote, by simp [next]⟩
    · exact ⟨[a], quote, c.advance.advance, by simp, by simpa using letter, isQuote,
        by simp [first, next]⟩
    · exact ⟨[a, b], quote, c.advance.advance.advance, by simp, by simp [letter, letter'], isQuote,
        by simp [first, second, next]⟩
  · rintro ⟨letters, quote, d, short, all, isQuote, reached⟩
    obtain _ | ⟨a, _ | ⟨b, _ | _⟩⟩ := letters
    · exact .inl (.inl ⟨quote, by simp_all⟩)
    · exact .inl (.inr (by simp_all))
    · exact .inr (by simp_all)
    · simp only [List.length_cons] at short
      omega

/-- Two parallel cursors read the same lexeme, if it is no string literal. -/
theorem agree_scan (stops : Stops more') (parallel : Parallel more more' c c')
    (next : c.peek = some first) (inline : isBreak first = false) (plain : startsString c = false)
    (within : UpTo more (scan c).2) : Agree more more' (scan c) (scan c') := by
  have nonempty : c.rest ≠ [] := fun none => by simp [peek, none] at next
  have started : UpTo more c.advance := within.of_le <| by
    have shorter := length_scan_lt nonempty
    rw [← cons_advance next, List.length_cons] at shorter
    omega
  obtain ⟨d', reached', ahead⟩ :=
    parallel.reaches (reaches_advance_of_peek next) (by simpa using inline) started
  obtain ⟨next', rfl⟩ : c'.peek = some first ∧ c'.advance = d' := by simpa using reached'
  have plain' : startsString c' = false := by
    by_contra begins
    obtain ⟨letters, quote, d', short, all, isQuote, reached'⟩ :=
      startsString_iff.1 (Bool.eq_true_of_not_eq_false begins)
    have inside : ∀ ch ∈ letters ++ [quote], isBreak ch = false := fun ch mem => by
      rcases List.mem_append.1 mem with mem | mem
      · exact inline_isStringLetter.isBreak (all ch mem)
      · rw [List.mem_singleton.1 mem]
        exact inline_isQuote.isBreak isQuote
    obtain ⟨d, reached, -⟩ := parallel.symm.reaches reached' inside (.inl stops)
    simp [startsString_iff.2 ⟨letters, quote, d, short, all, isQuote, reached⟩] at plain
  unfold scan at within ⊢
  simp only [next, next', plain, plain', Bool.false_eq_true, if_false, second_eq_peek]
    at within ⊢
  by_cases digit : first.isDigit = true
  · simp only [digit, if_true] at within ⊢
    exact agree_number stops ahead within
  simp only [digit, Bool.false_eq_true, if_false] at within ⊢
  by_cases pointed : (first == '.' && c.advance.peek.any Char.isDigit) = true
  · obtain ⟨point, fraction⟩ := Bool.and_eq_true_iff.1 pointed
    obtain ⟨ch, second, isDigit⟩ := (Option.any_eq_true _ _).1 fraction
    have run : digits false c.advance.advance = digits false c.advance :=
      skipWhile_advance second (isDigit_of_charDigit false isDigit)
    simp only [pointed, if_true] at within ⊢
    have digits_within := within.of_le (length_floatTail_le _)
    have fraction' := (ahead.any_peek inline_charDigit fraction
      (digits_within.of_le (run ▸ length_digits_le false c.advance.advance))).1
    rw [if_pos (Bool.and_eq_true_iff.2 ⟨point, fraction'⟩)]
    exact agree_floatTail stops (parallel_digits stops ahead digits_within) within
  have pointed' : ¬ (first == '.' && c'.advance.peek.any Char.isDigit) = true := fun pointed' => by
    obtain ⟨point, fraction'⟩ := Bool.and_eq_true_iff.1 pointed'
    have fraction :=
      (ahead.symm.any_peek inline_charDigit fraction' (.inl stops)).1
    exact pointed (Bool.and_eq_true_iff.2 ⟨point, fraction⟩)
  simp only [pointed, pointed', Bool.false_eq_true, if_false] at within ⊢
  by_cases letter : startsWord first = true
  · simp only [letter, if_true] at within ⊢
    exact agree_word stops ahead within
  simp only [letter, Bool.false_eq_true, if_false] at within ⊢
  exact agree_mark stops parallel next next' ahead within

end Lexeme

end SureCode
