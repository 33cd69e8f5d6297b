import Mathlib
import SureCode.Proofs.Token.Indentation
import SureCode.Proofs.Token.Literals

/-!
# Lines without contents

A lexer `Follows` another when both are in the same state and their texts are the same up to some
place, of which each has its own continuation. Whatever ends before that place is read in both
(`Follows.step`), a string literal that is not closed too. With nothing behind that place it follows
that the tokens of a text do not depend on where it stands (`Follows.tokens`), and with a line feed
there, that the tokens up to the line feed do not depend on what comes behind it
(`exists_tokens_newline`). So lines without contents can be put behind a line break that is a token:
the tokens stay the same, and those behind the new lines move on (`tokenize_blankLines`).
-/

namespace SureCode

open Cursor

/-! ### Texts that go on alike -/

/-- The shorter of two beginnings of a text is the beginning of the longer one. -/
theorem Text.exists_left {before after cs ds : List Char} (split : before ++ after = cs ++ ds)
    (le : byteLength before ≤ byteLength cs) :
    ∃ left, cs = before ++ left ∧ after = left ++ ds := by
  rcases List.append_eq_append_iff.1 split with ⟨left, rfl, rfl⟩ | ⟨beyond, rfl, rfl⟩
  · exact ⟨left, rfl, rfl⟩
  · rw [byteLength_append] at le
    obtain rfl : beyond = [] := eq_nil_of_byteLength (by omega)
    exact ⟨[], by simp, rfl⟩

namespace Cursor

/-- Two texts begin with the same line break, or both are empty. -/
def Alike (more more' : List Char) : Prop := Stops more ∧ more'.head? = more.head?

variable {more more' cs word : List Char} {c c' d d' : Cursor} {p : Char → Bool}

theorem Alike.eq_nil_or_cons (alike : Alike more more') :
    (more = [] ∧ more' = []) ∨ ∃ ch rest rest', isBreak ch = true ∧ more = ch :: rest ∧
      more' = ch :: rest' := by
  obtain ⟨stops, heads⟩ := alike
  cases more with
  | nil => exact .inl ⟨rfl, by simpa using heads⟩
  | cons ch rest =>
    obtain ⟨rest', rfl⟩ : ∃ rest', more' = ch :: rest' := by
      cases more' <;> simp_all
    exact .inr ⟨ch, rest, rest', by simpa [Stops] using stops, rfl, rfl⟩

theorem Alike.stops (alike : Alike more more') : Stops more' := by
  rw [Stops, alike.2]
  exact alike.1

theorem Alike.head?_append (alike : Alike more more') (cs : List Char) :
    (cs ++ more').head? = (cs ++ more).head? := by
  cases cs with
  | nil => exact alike.2
  | cons ch cs => rfl

/-- No line break is part of what a text begins with inside its line. -/
theorem Stops.isPrefix_append_iff (stops : Stops more) (inside : ∀ ch ∈ word, isBreak ch = false) :
    word <+: cs ++ more ↔ word <+: cs := by
  refine ⟨fun ⟨rest, split⟩ => ?_, fun begins => begins.trans (List.prefix_append cs more)⟩
  rcases List.append_eq_append_iff.1 split with ⟨left, rfl, -⟩ | ⟨beyond, rfl, behind⟩
  · exact List.prefix_append word left
  · cases beyond with
    | nil => simp
    | cons ch beyond =>
      have breaks : isBreak ch = true := by simpa [Stops, behind] using stops
      simp [inside ch (by simp)] at breaks

theorem Parallel.peek_eq (alike : Alike more more') (parallel : Parallel more more' c c') :
    c'.peek = c.peek := by
  obtain ⟨cs, rest, rest'⟩ := parallel
  rw [Cursor.peek, Cursor.peek, rest, rest', alike.head?_append]

theorem Parallel.advance (alike : Alike more more') (parallel : Parallel more more' c c')
    (within : more.length ≤ c.advance.rest.length) : Parallel more more' c.advance c'.advance := by
  obtain ⟨offset, rest⟩ := c
  obtain ⟨offset', rest'⟩ := c'
  obtain ⟨_ | ⟨ch, cs⟩, rfl, rfl⟩ := parallel
  · rcases alike.eq_nil_or_cons with ⟨rfl, rfl⟩ | ⟨ch, rest, rest', -, rfl, rfl⟩
    · exact ⟨[], rfl, rfl⟩
    · simp [Cursor.advance] at within
  · exact ⟨cs, rfl, rfl⟩

theorem Parallel.eatIf_alike (alike : Alike more more') (parallel : Parallel more more' c c')
    (within : more.length ≤ (c.eatIf p).2.rest.length) :
    Agree more more' (c.eatIf p) (c'.eatIf p) := by
  rw [Cursor.eatIf] at within ⊢
  rw [Cursor.eatIf, parallel.peek_eq alike]
  split at within
  · rename_i next
    rw [if_pos next, if_pos next]
    exact ⟨rfl, parallel.advance alike within⟩
  · rename_i next
    rw [if_neg next, if_neg next]
    exact ⟨rfl, parallel⟩

theorem Parallel.skipBreak (alike : Alike more more') (parallel : Parallel more more' c c')
    (within : more.length ≤ c.skipBreak.rest.length) :
    Parallel more more' c.skipBreak c'.skipBreak := by
  unfold Cursor.skipBreak eat at within ⊢
  dsimp only at within ⊢
  split at within
  · rename_i returned
    rw [if_pos returned]
    have eaten := within.trans (length_eatIf_le _ _)
    obtain ⟨same, beyond⟩ := parallel.eatIf_alike alike eaten
    rw [if_pos (same.trans returned)]
    exact (beyond.eatIf_alike alike within).2
  · rename_i returned
    have same : (c'.eatIf (· == '\r')).1 = (c.eatIf (· == '\r')).1 := by
      rw [Cursor.eatIf, Cursor.eatIf, parallel.peek_eq alike]
      split <;> rfl
    rw [if_neg returned, if_neg (same ▸ returned)]
    exact parallel.advance alike within

/-- The contents of a line are found behind the same width. -/
theorem agree_lineStart {inComment : Bool} {width : UInt32} {offset offset' : Nat}
    (alike : Alike more more')
    (within : more.length ≤ (lineStart inComment width offset (cs ++ more)).2.rest.length) :
    Agree more more' (lineStart inComment width offset (cs ++ more))
      (lineStart inComment width offset' (cs ++ more')) := by
  induction cs generalizing inComment width offset offset' with
  | nil =>
    rcases alike.eq_nil_or_cons with ⟨rfl, rfl⟩ | ⟨ch, rest, rest', breaks, rfl, rfl⟩
    · exact ⟨rfl, [], rfl, rfl⟩
    · have passed := length_lineStart_le false 0 (offset + ch.utf8Size) rest
      simp only [List.nil_append, lineStart, breaks, if_true, List.length_cons] at within
      omega
  | cons ch cs ih =>
    rw [List.cons_append, lineStart] at within ⊢
    rw [List.cons_append, lineStart]
    split_ifs at within ⊢
    all_goals first
      | exact ih within
      | exact ⟨rfl, ch :: cs, rfl, rfl⟩

/-- The next lexeme or line break is found. -/
theorem parallel_skipTrivia {inBrackets inComment : Bool} {offset offset' : Nat}
    (alike : Alike more more')
    (within : more.length ≤ (skipTrivia inBrackets inComment offset (cs ++ more)).rest.length) :
    Parallel more more' (skipTrivia inBrackets inComment offset (cs ++ more))
      (skipTrivia inBrackets inComment offset' (cs ++ more')) := by
  induction n : cs.length using Nat.strong_induction_on
    generalizing cs inComment offset offset' with
  | _ n ih =>
  have beyond {inComment : Bool} {offset : Nat} {ch : Char} {rest : List Char}
      (within : (ch :: rest).length ≤ (skipTrivia inBrackets inComment offset rest).rest.length) :
      False := by
    have passed := length_skipTrivia_le inBrackets inComment offset rest
    rw [List.length_cons] at within
    omega
  cases cs with
  | nil =>
    rcases alike.eq_nil_or_cons with ⟨rfl, rfl⟩ | ⟨ch, rest, rest', breaks, rfl, rfl⟩
    · exact ⟨[], rfl, rfl⟩
    · have plain : ch ≠ '\\' := by
        rintro rfl
        exact absurd breaks (by decide)
      rw [List.nil_append, skipTrivia_cons plain, if_pos breaks] at within ⊢
      rw [List.nil_append, skipTrivia_cons plain, if_pos breaks]
      split_ifs at within ⊢
      · exact (beyond within).elim
      · exact ⟨[], rfl, rfl⟩
  | cons ch cs =>
    by_cases plain : ch ≠ '\\'
    · rw [List.cons_append, skipTrivia_cons plain] at within ⊢
      rw [List.cons_append, skipTrivia_cons plain]
      split_ifs at within ⊢
      all_goals first
        | exact ih cs.length (by simp [← n]) within rfl
        | exact ⟨ch :: cs, rfl, rfl⟩
    obtain rfl := not_not.1 plain
    cases inComment with
    | true =>
      rw [List.cons_append, skipTrivia_backslash] at within ⊢
      rw [List.cons_append, skipTrivia_backslash]
      exact ih cs.length (by simp [← n]) within rfl
    | false =>
      cases cs with
      | nil =>
        rcases alike.eq_nil_or_cons with ⟨rfl, rfl⟩ | ⟨ch, rest, rest', breaks, rfl, rfl⟩
        · exact ⟨['\\'], rfl, rfl⟩
        · rw [List.cons_append, List.nil_append, skipTrivia_continued breaks] at within
          split_ifs at within
          · have passed := length_skipTrivia_le inBrackets false (offset + 3) rest.tail
            simp at passed within
            omega
          · exact (beyond within).elim
      | cons next cs =>
        by_cases breaks : isBreak next = true
        · rw [List.cons_append, List.cons_append, skipTrivia_continued breaks] at within ⊢
          rw [List.cons_append, List.cons_append, skipTrivia_continued breaks,
            alike.head?_append]
          split_ifs at within ⊢ with pair
          · cases cs with
            | nil =>
              rcases alike.eq_nil_or_cons with ⟨rfl, rfl⟩ | ⟨ch, rest, rest', -, rfl, rfl⟩
              · simp at pair
              · exact (beyond within).elim
            | cons feed cs =>
              exact ih cs.length (by rw [← n]; simp only [List.length_cons]; omega) within rfl
          · exact ih cs.length (by simp [← n]) within rfl
        · exact ⟨'\\' :: next :: cs, by simp [skipTrivia_loose breaks],
            by simp [skipTrivia_loose breaks]⟩

end Cursor

/-! ### Lexemes -/

namespace Lexeme

variable {more more' cs : List Char} {c c' : Cursor} {quote : Char} {triple : Bool}
  {offset offset' : Nat}

theorem length_stringBody_cons_le {ch : Char} (breaks : isBreak ch = true) :
    (stringBody quote triple offset (ch :: cs)).2.rest.length ≤ cs.length := by
  have plain : ch ≠ '\\' := by
    rintro rfl
    exact absurd breaks (by decide)
  have rest := length_stringBody_le quote triple (offset + ch.utf8Size) cs
  rw [stringBody_cons plain]
  split_ifs
  all_goals simp [rest]

theorem isPrefix_quotes_iff (isQuote : isQuote quote = true) (stops : Stops more) :
    [quote, quote] <+: cs ++ more ↔ [quote, quote] <+: cs :=
  stops.isPrefix_append_iff (by simpa using inline_isQuote.isBreak isQuote)

theorem Opening.isBreak_of_mem_text (o : Opening) : ∀ ch ∈ o.text, isBreak ch = false := by
  have quote := inline_isQuote.isBreak o.isQuote
  intro ch mem
  rcases List.mem_append.1 mem with letter | mem
  · exact inline_isStringLetter.isBreak (o.areLetters ch letter)
  · cases triple : o.triple <;> simp_all

/-- The contents of a string literal that ends inside what two texts share. -/
theorem agree_stringBody (isQuote : isQuote quote = true) (alike : Alike more more')
    (within : more.length ≤ (stringBody quote triple offset (cs ++ more)).2.rest.length) :
    Agree more more' (stringBody quote triple offset (cs ++ more))
      (stringBody quote triple offset' (cs ++ more')) := by
  induction n : cs.length using Nat.strong_induction_on generalizing cs offset offset' with
  | _ n ih =>
  cases cs with
  | nil =>
    rcases alike.eq_nil_or_cons with ⟨rfl, rfl⟩ | ⟨ch, rest, rest', breaks, rfl, rfl⟩
    · exact ⟨rfl, [], rfl, rfl⟩
    · have passed := within.trans (length_stringBody_cons_le breaks)
      simp at passed
  | cons ch cs =>
    by_cases plain : ch ≠ '\\'
    · have quotes : [quote, quote].isPrefixOf (cs ++ more')
          = [quote, quote].isPrefixOf (cs ++ more) := by
        rw [Bool.eq_iff_iff, List.isPrefixOf_iff_prefix, List.isPrefixOf_iff_prefix,
          isPrefix_quotes_iff isQuote alike.stops, isPrefix_quotes_iff isQuote alike.1]
      rw [List.cons_append, stringBody_cons plain] at within ⊢
      rw [List.cons_append, stringBody_cons plain, quotes]
      split_ifs at within ⊢ with breaks closes isTriple
      · exact ⟨rfl, cs, rfl, rfl⟩
      · obtain ⟨-, ends⟩ := Bool.and_eq_true_iff.1 closes
        have begins : [quote, quote] <+: cs := by
          rw [← isPrefix_quotes_iff isQuote alike.1, ← List.isPrefixOf_iff_prefix]
          simpa [isTriple] using ends
        obtain ⟨rest, rfl⟩ := begins
        exact ⟨rfl, rest, rfl, rfl⟩
      · exact ⟨rfl, cs, rfl, rfl⟩
      · exact ih cs.length (by simp [← n]) within rfl
    obtain rfl := not_not.1 plain
    cases cs with
    | nil =>
      rcases alike.eq_nil_or_cons with ⟨rfl, rfl⟩ | ⟨ch, rest, rest', breaks, rfl, rfl⟩
      · exact ⟨rfl, [], rfl, rfl⟩
      · have passed := length_stringBody_le quote triple (offset + 1 + ch.utf8Size) rest
        simp only [List.cons_append, List.nil_append, stringBody, List.length_cons] at within
        omega
    | cons ch cs =>
      simp only [List.cons_append, stringBody] at within ⊢
      exact ih cs.length (by rw [← n]; simp only [List.length_cons]; omega) within rfl

/-- A lexeme that ends inside what two texts share is read in both. -/
theorem agree_scan_alike {first : Char} (alike : Alike more more')
    (parallel : Parallel more more' c c') (next : c.peek = some first)
    (inline : isBreak first = false) (within : more.length ≤ (scan c).2.rest.length) :
    Agree more more' (scan c) (scan c') := by
  cases begins : startsString c with
  | false => exact agree_scan alike.stops parallel next inline begins (.inr within)
  | true =>
    obtain ⟨o, tail, rest, fits⟩ := Opening.exists_opening begins
    obtain ⟨offset, _⟩ := c
    obtain ⟨offset', _⟩ := c'
    obtain ⟨cs, rfl, rfl⟩ := parallel
    obtain ⟨body, rfl⟩ : o.text <+: cs :=
      (alike.1.isPrefix_append_iff o.isBreak_of_mem_text).1 ⟨tail, rest.symm⟩
    obtain rfl : body ++ more = tail := by simpa using rest
    have fits' : o.Fits (body ++ more') := fun single => by
      rw [isPrefix_quotes_iff o.isQuote alike.stops, ← isPrefix_quotes_iff o.isQuote alike.1]
      exact fits single
    rw [List.append_assoc, o.scan_eq fits] at within ⊢
    rw [List.append_assoc, o.scan_eq fits']
    obtain ⟨closed, ahead⟩ := agree_stringBody o.isQuote alike within
    exact ⟨by rw [closed], ahead⟩

end Lexeme

/-! ### Places further on -/

/-- The span so many bytes further on. -/
def Span.shift (bytes : Nat) (s : Span) : Span :=
  ⟨s.start + bytes, s.stop + bytes, Nat.add_le_add_right s.ordered bytes⟩

/-- The token so many bytes further on. -/
def Token.shift (bytes : Nat) (t : Token) : Token := ⟨t.kind, t.span.shift bytes⟩

@[simp] theorem Token.shift_empty (bytes offset : Nat) (kind : Kind) :
    (Token.empty kind offset).shift bytes = .empty kind (offset + bytes) := rfl

@[simp] theorem Token.shift_zero : Token.shift 0 = id := rfl

/-- Two cursors are parallel, and the other is so many bytes further on than the one. -/
def Cursor.Follows (more more' : List Char) (bytes : Nat) (c c' : Cursor) : Prop :=
  Parallel more more' c c' ∧ c'.offset = c.offset + bytes

variable {more more' : List Char} {bytes : Nat}

namespace Cursor.Follows

variable {c c' d d' : Cursor}

/-- From cursors that follow one another, parallel ones have passed the same. -/
theorem ahead (follows : Follows more more' bytes c c') (ahead : c.Ahead d) (ahead' : c'.Ahead d')
    (parallel : Parallel more more' d d') : Follows more more' bytes d d' := by
  obtain ⟨⟨cs, rest, rest'⟩, offset⟩ := follows
  obtain ⟨left, behind, behind'⟩ := parallel
  obtain ⟨passed, split, stop⟩ := ahead
  obtain ⟨passed', split', stop'⟩ := ahead'
  have same : passed ++ left = cs := by
    rw [rest, behind, ← List.append_assoc] at split
    exact (List.append_cancel_right split).symm
  have same' : passed' ++ left = cs := by
    rw [rest', behind', ← List.append_assoc] at split'
    exact (List.append_cancel_right split').symm
  obtain rfl : passed = passed' := List.append_cancel_right (same.trans same'.symm)
  exact ⟨⟨left, behind, behind'⟩, by omega⟩

variable (alike : Alike more more') (follows : Follows more more' bytes c c')
include alike follows

theorem lineStart
    (within : more.length ≤ (lineStart false 0 c.offset c.rest).2.rest.length) :
    (Cursor.lineStart false 0 c'.offset c'.rest).1 = (Cursor.lineStart false 0 c.offset c.rest).1 ∧
      Follows more more' bytes (Cursor.lineStart false 0 c.offset c.rest).2
        (Cursor.lineStart false 0 c'.offset c'.rest).2 := by
  obtain ⟨cs, rest, rest'⟩ := follows.1
  have agree := @agree_lineStart more more' cs false 0 c.offset c'.offset alike (rest ▸ within)
  rw [← rest, ← rest'] at agree
  exact ⟨agree.1, follows.ahead (ahead_lineStart ..) (ahead_lineStart ..) agree.2⟩

theorem skipTrivia {inBrackets : Bool}
    (within : more.length ≤ (skipTrivia inBrackets false c.offset c.rest).rest.length) :
    Follows more more' bytes (Cursor.skipTrivia inBrackets false c.offset c.rest)
      (Cursor.skipTrivia inBrackets false c'.offset c'.rest) := by
  obtain ⟨cs, rest, rest'⟩ := follows.1
  have parallel := @parallel_skipTrivia more more' cs inBrackets false c.offset c'.offset alike
    (rest ▸ within)
  rw [← rest, ← rest'] at parallel
  exact follows.ahead (ahead_skipTrivia ..) (ahead_skipTrivia ..) parallel

theorem skipBreak (within : more.length ≤ c.skipBreak.rest.length) :
    Follows more more' bytes c.skipBreak c'.skipBreak :=
  follows.ahead c.ahead_skipBreak c'.ahead_skipBreak (follows.1.skipBreak alike within)

theorem scan {first : Char} (next : c.peek = some first) (inline : isBreak first = false)
    (within : more.length ≤ (Lexeme.scan c).2.rest.length) :
    (Lexeme.scan c').1 = (Lexeme.scan c).1 ∧
      Follows more more' bytes (Lexeme.scan c).2 (Lexeme.scan c').2 := by
  obtain ⟨kind, parallel⟩ := Lexeme.agree_scan_alike alike follows.1 next inline within
  exact ⟨kind, follows.ahead (Lexeme.ahead_scan c) (Lexeme.ahead_scan c') parallel⟩

end Cursor.Follows

namespace Lexer

variable {l l' next : Lexer} {c c' d d' : Cursor}

theorem tokenBetween_shift (kind : Kind) (start : c'.offset = c.offset + bytes)
    (stop : d'.offset = d.offset + bytes) :
    tokenBetween kind c' d' = (tokenBetween kind c d).shift bytes := by
  simp only [tokenBetween, Token.shift, Span.shift, start, stop, Nat.add_max_add_right]

theorem indentation_shift (levels : List Nat) (width offset bytes : Nat) :
    indentation levels width (offset + bytes)
      = ((indentation levels width offset).1.map (Token.shift bytes),
        (indentation levels width offset).2) := by
  unfold indentation
  dsimp only
  split
  · rfl
  · split <;> simp

theorem closing_shift (last : Option Kind) (levels : List Nat) (offset bytes : Nat) :
    closing last levels (offset + bytes) = (closing last levels offset).map (Token.shift bytes) := by
  unfold closing
  dsimp only
  split <;> simp

theorem last_shift (ts : List Token) :
    (ts.map (Token.shift bytes)).getLast?.map (·.kind) = ts.getLast?.map (·.kind) := by
  rw [List.getLast?_map, Option.map_map]
  rfl

/-- Two lexers are in the same state, and their cursors follow one another. -/
structure Follows (more more' : List Char) (bytes : Nat) (l l' : Lexer) : Prop where
  cursor : Cursor.Follows more more' bytes l.cursor l'.cursor
  levels : l'.levels = l.levels
  depth : l'.depth = l.depth
  atLineStart : l'.atLineStart = l.atLineStart
  last : l'.last = l.last

/-- What a lexer has left to read, which is nothing when there is no lexer. -/
def remaining (next : Option Lexer) : List Char := next.elim [] (·.cursor.rest)

theorem length_remaining_lexeme_le (l : Lexer) : (remaining l.lexeme.2).length
    ≤ (skipTrivia (l.depth != 0) false l.cursor.offset l.cursor.rest).rest.length := by
  unfold lexeme
  dsimp only
  generalize skipTrivia (l.depth != 0) false l.cursor.offset l.cursor.rest = c
  split
  · exact Nat.zero_le _
  · rename_i ch cs more
    have nonempty : c.rest ≠ [] := by simp [more]
    split
    · exact (length_skipBreak_lt nonempty).le
    · exact (Lexeme.length_scan_lt nonempty).le

section Following

variable (alike : Alike more more') (follows : Follows more more' bytes l l')
include alike follows

/-- Both lexers begin their lines with the same tokens. -/
theorem Follows.beginLine (within : more.length ≤ l.beginLine.2.cursor.rest.length) :
    l'.beginLine.1 = l.beginLine.1.map (Token.shift bytes) ∧
      Follows more more' bytes l.beginLine.2 l'.beginLine.2 := by
  obtain ⟨here, levels, depth, atLineStart, last⟩ := follows
  unfold Lexer.beginLine at within ⊢
  rw [levels, depth, atLineStart, last]
  split at within
  · rename_i begins
    have inside : more.length
        ≤ (lineStart false 0 l.cursor.offset l.cursor.rest).2.rest.length := by
      split at within
      all_goals
        rename_i read
        rw [read]
        exact within
    obtain ⟨width, found⟩ := here.lineStart alike inside
    rw [if_pos begins, if_pos begins]
    generalize lineStart false 0 l.cursor.offset l.cursor.rest = read at width found
    generalize lineStart false 0 l'.cursor.offset l'.cursor.rest = read' at width found
    obtain ⟨width', c'⟩ := read'
    obtain ⟨_ | width, c⟩ := read
    all_goals
      obtain rfl := width
    · exact ⟨rfl, found, rfl, rfl, rfl, rfl⟩
    · dsimp only at found ⊢
      rw [found.2, indentation_shift]
      exact ⟨rfl, found, rfl, rfl, rfl, by simp only [last_shift]⟩
  · rename_i continues
    rw [if_neg continues, if_neg continues]
    exact ⟨rfl, here, levels, depth, atLineStart, last⟩

/-- Both lexers read the same lexeme. -/
theorem Follows.lexeme (within : more.length ≤ (remaining l.lexeme.2).length) :
    l'.lexeme.1 = l.lexeme.1.map (Token.shift bytes) ∧
      Option.Rel (Follows more more' bytes) l.lexeme.2 l'.lexeme.2 := by
  obtain ⟨here, levels, depth, atLineStart, last⟩ := follows
  have found := here.skipTrivia alike (within.trans l.length_remaining_lexeme_le)
  unfold Lexer.lexeme at within ⊢
  rw [levels, depth, last]
  dsimp only at within ⊢
  generalize skipTrivia (l.depth != 0) false l.cursor.offset l.cursor.rest = c at within found
  generalize skipTrivia (l.depth != 0) false l'.cursor.offset l'.cursor.rest = c' at found
  have heads : c'.rest.head? = c.rest.head? := found.1.peek_eq alike
  cases rest : c.rest with
  | nil =>
    have rest' : c'.rest = [] := by simpa [rest] using heads
    simp only [rest']
    rw [found.2, closing_shift]
    exact ⟨rfl, .none⟩
  | cons ch cs =>
    rw [rest] at heads
    obtain ⟨cs', rest'⟩ := List.head?_eq_some_iff.1 heads
    simp only [rest, rest'] at within ⊢
    split at within
    · rename_i breaks
      have beyond := found.skipBreak alike within
      rw [if_pos breaks, if_pos breaks, tokenBetween_shift .newline found.2 beyond.2]
      exact ⟨rfl, .some ⟨beyond, rfl, rfl, rfl, rfl⟩⟩
    · rename_i inline
      have next : c.peek = some ch := by rw [peek, rest]; rfl
      obtain ⟨kind, beyond⟩ := found.scan alike next (Bool.eq_false_iff.2 inline) within
      rw [if_neg inline, if_neg inline, kind, tokenBetween_shift _ found.2 beyond.2]
      exact ⟨rfl, .some ⟨beyond, rfl, rfl, atLineStart, rfl⟩⟩

/-- Both lexers take the same step. -/
theorem Follows.step (within : more.length ≤ (remaining l.step.2).length) :
    l'.step.1 = l.step.1.map (Token.shift bytes) ∧
      Option.Rel (Follows more more' bytes) l.step.2 l'.step.2 := by
  have inside : more.length ≤ l.beginLine.2.cursor.rest.length :=
    within.trans (l.beginLine.2.length_remaining_lexeme_le.trans (length_skipTrivia_le ..))
  obtain ⟨opening, begun⟩ := follows.beginLine alike inside
  obtain ⟨tokens, next⟩ := begun.lexeme alike within
  exact ⟨by simp only [Lexer.step, opening, tokens, List.map_append], next⟩

end Following

/-- Further on in a text the same tokens follow, further on. -/
theorem Follows.tokens (follows : Follows [] [] bytes l l') :
    l'.tokens = l.tokens.map (Token.shift bytes) := by
  have alike : Alike [] [] := ⟨rfl, rfl⟩
  induction l using Lexer.tokens.induct generalizing l' with
  | case1 l ts found =>
    obtain ⟨tokens, ends⟩ := follows.step alike (Nat.zero_le _)
    rw [found] at tokens ends
    cases found' : l'.step with
    | mk ts' next' =>
      rw [found'] at tokens ends
      cases ends
      rw [tokens_of_step_none found, tokens_of_step_none found', ← tokens]
  | case2 l ts next found ih =>
    obtain ⟨tokens, goes⟩ := follows.step alike (Nat.zero_le _)
    rw [found] at tokens goes
    cases found' : l'.step with
    | mk ts' next' =>
      rw [found'] at tokens goes
      cases goes with
      | some follows' =>
        rw [tokens_of_step_some found, tokens_of_step_some found', List.map_append,
          ← ih follows', ← tokens]

/-! ### Lines -/

theorem tokens_congr (step_eq : l'.step = l.step) : l'.tokens = l.tokens := by
  cases found : l.step with
  | mk ts next =>
    rw [found] at step_eq
    cases next with
    | none => rw [tokens_of_step_none found, tokens_of_step_none step_eq]
    | some next => rw [tokens_of_step_some found, tokens_of_step_some step_eq]

/-- Where a line begins, lines without contents are passed over. -/
theorem tokens_blankLines {lines after : List Char} {offset : Nat} (blank : BlankLines lines)
    (begins : (l.atLineStart && l.depth == 0) = true) (here : l.cursor = ⟨offset, after⟩) :
    ({ l with cursor := ⟨offset, lines ++ after⟩ } : Lexer).tokens
      = l.tokens.map (Token.shift (Text.byteLength lines)) := by
  have follows : Follows [] [] (Text.byteLength lines) l
      { l with cursor := ⟨offset + Text.byteLength lines, after⟩ } := by
    refine ⟨⟨⟨after, ?_, ?_⟩, ?_⟩, rfl, rfl, rfl, rfl⟩ <;> simp [here]
  have line : ({ l with cursor := ⟨offset, lines ++ after⟩ } : Lexer).beginLine
      = ({ l with cursor := ⟨offset + Text.byteLength lines, after⟩ } : Lexer).beginLine := by
    rw [Lexer.beginLine, Lexer.beginLine, if_pos begins, if_pos begins, lineStart_blankLines blank]
  rw [← follows.tokens]
  exact tokens_congr (by rw [step, step, line])

/-- A line break is a token outside brackets. -/
theorem lexeme_feed {offset : Nat} {rest : List Char}
    (found : skipTrivia (l.depth != 0) false l.cursor.offset l.cursor.rest = ⟨offset, '\n' :: rest⟩) :
    l.lexeme = ([tokenBetween .newline ⟨offset, '\n' :: rest⟩ ⟨offset + 1, rest⟩],
      some { l with cursor := ⟨offset + 1, rest⟩, atLineStart := true, last := some .newline }) := by
  rw [Lexer.lexeme, found]
  rfl

/-- A line break that is read as a lexeme is what the lexeme is. -/
theorem exists_break_of_mem_lexeme {t : Token} (mem : t ∈ l.lexeme.1) (kind : t.kind = .newline)
    (nonempty : t.span.start < t.span.stop) :
    ∃ c ch rest, skipTrivia (l.depth != 0) false l.cursor.offset l.cursor.rest = c ∧
      c.rest = ch :: rest ∧ isBreak ch = true ∧ t = tokenBetween .newline c c.skipBreak := by
  unfold Lexer.lexeme at mem
  dsimp only at mem
  generalize skipTrivia (l.depth != 0) false l.cursor.offset l.cursor.rest = c at mem ⊢
  split at mem
  · obtain ⟨front, eq, empty⟩ := closing_eq_append l.last l.levels c.offset
    rw [eq, List.mem_append] at mem
    have none : t.span = .empty c.offset := mem.elim (empty t) fun last => by
      rw [List.mem_singleton.1 last]
      rfl
    simp [none, Span.empty] at nonempty
  · rename_i ch rest split_rest
    split at mem
    · rename_i breaks
      exact ⟨c, ch, rest, rfl, split_rest, breaks, List.mem_singleton.1 mem⟩
    · have lexeme := Lexeme.isLayout_scan (c := c) (by simp [split_rest])
      rw [List.mem_singleton.1 mem] at kind
      rw [show (Lexeme.scan c).1 = .newline from kind] at lexeme
      cases lexeme

/-- Where a line break is read, only trivia come before it. -/
theorem exists_skipTrivia_newline {cs after : List Char} {t : Token} (clean : '\r' ∉ l.cursor.rest)
    (rest : l.cursor.rest = cs ++ '\n' :: after) (mem : t ∈ l.step.1) (kind : t.kind = .newline)
    (nonempty : t.span.start < t.span.stop)
    (stop : t.span.stop = l.cursor.offset + Text.byteLength cs + 1) :
    ∃ start, t.span.stop = start + 1 ∧ skipTrivia (l.beginLine.2.depth != 0) false
      l.beginLine.2.cursor.offset l.beginLine.2.cursor.rest = ⟨start, '\n' :: after⟩ := by
  obtain ⟨begun, empty⟩ := l.beginLine_skips
  rw [step_eq, List.mem_append] at mem
  rcases mem with opening | mem
  · simp [empty t opening, Span.empty] at nonempty
  obtain ⟨c, ch, tail, found, split, breaks, rfl⟩ := exists_break_of_mem_lexeme mem kind nonempty
  have ahead : l.cursor.Ahead c := begun.ahead.trans (found ▸ ahead_skipTrivia ..)
  obtain rfl := eq_feed breaks (split ▸ ahead.notMem clean)
  rw [stop_tokenBetween c.ahead_skipBreak] at stop ⊢
  obtain ⟨start, _⟩ := c
  obtain rfl := split
  obtain ⟨passed, split, offset⟩ := ahead
  have stop_eq : (⟨start, '\n' :: tail⟩ : Cursor).skipBreak.offset = start + 1 := rfl
  rw [stop_eq] at stop ⊢
  dsimp only at offset split
  obtain ⟨left, rfl, same⟩ := Text.exists_left (split.symm.trans rest) (by omega)
  rw [Text.byteLength_append] at stop
  obtain rfl : left = [] := Text.eq_nil_of_byteLength (by omega)
  exact ⟨start, rfl, by rw [found, same, List.nil_append]⟩

/-- The step up to a line break is the same whatever comes behind it, and there the next line begins.
-/
theorem Follows.step_newline {after after' : List Char} {start : Nat}
    (follows : Follows ('\n' :: after) ('\n' :: after') 0 l l')
    (found : skipTrivia (l.beginLine.2.depth != 0) false l.beginLine.2.cursor.offset
      l.beginLine.2.cursor.rest = ⟨start, '\n' :: after⟩) :
    ∃ (ts : List Token) (next : Lexer), l.step = (ts, some next) ∧ next.cursor = ⟨start + 1, after⟩ ∧
      (next.atLineStart && next.depth == 0) = true ∧ (∀ u ∈ ts, u.span.start < start + 1) ∧
      l'.step = (ts, some { next with cursor := ⟨start + 1, after'⟩ }) := by
  have alike : Alike ('\n' :: after) ('\n' :: after') := ⟨rfl, rfl⟩
  have outside : (l.beginLine.2.depth != 0) = false :=
    eq_false_of_skipTrivia (congrArg Cursor.rest found) rfl
  have begins : (true && l.beginLine.2.depth == 0) = true := by simpa using outside
  have inside := found ▸ length_skipTrivia_le (l.beginLine.2.depth != 0) false
    l.beginLine.2.cursor.offset l.beginLine.2.cursor.rest
  have skipped : l.beginLine.2.cursor.Ahead ⟨start, '\n' :: after⟩ := found ▸ ahead_skipTrivia ..
  obtain ⟨opening, begun⟩ := follows.beginLine alike inside
  have found' : skipTrivia (l'.beginLine.2.depth != 0) false l'.beginLine.2.cursor.offset
      l'.beginLine.2.cursor.rest = ⟨start, '\n' :: after'⟩ := by
    obtain ⟨parallel, offset⟩ := begun.cursor.skipTrivia alike (by rw [found])
    rw [found] at parallel offset
    obtain ⟨left, behind, behind'⟩ := parallel
    obtain rfl : left = [] := by simpa using behind
    rw [begun.depth]
    exact congrArg₂ Cursor.mk offset behind'
  refine ⟨_, _, by rw [step_eq, lexeme_feed found], rfl, begins, fun u mem => ?_, ?_⟩
  · rcases List.mem_append.1 mem with opening | last
    · rw [l.beginLine_skips.2 u opening]
      exact Nat.lt_succ_of_le skipped.offset_le
    · rw [List.mem_singleton.1 last]
      exact Nat.lt_succ_self start
  · rw [step_eq, lexeme_feed found', opening, begun.levels, begun.depth, Token.shift_zero,
      List.map_id]
    rfl

/-- The tokens up to a line break are the same whatever comes behind it, and there the next line
begins. -/
theorem exists_tokens_newline {source cs after after' : List Char} {t : Token}
    (within : (Cursor.ofText source).Ahead l.cursor) (clean : '\r' ∉ l.cursor.rest)
    (rest : l.cursor.rest = cs ++ '\n' :: after)
    (follows : Follows ('\n' :: after) ('\n' :: after') 0 l l') (mem : t ∈ l.tokens)
    (kind : t.kind = .newline) (nonempty : t.span.start < t.span.stop)
    (stop : t.span.stop = l.cursor.offset + Text.byteLength cs + 1) :
    ∃ (ts : List Token) (next : Lexer), l.tokens = ts ++ next.tokens ∧
      next.cursor = ⟨t.span.stop, after⟩ ∧ (next.atLineStart && next.depth == 0) = true ∧
      (∀ u ∈ ts, u.span.start < t.span.stop) ∧
      l'.tokens = ts ++ ({ next with cursor := ⟨t.span.stop, after'⟩ } : Lexer).tokens := by
  have alike : Alike ('\n' :: after) ('\n' :: after') := ⟨rfl, rfl⟩
  induction l using Lexer.tokens.induct generalizing l' cs with
  | case1 l ts found =>
    rw [tokens_of_step_none found] at mem
    obtain ⟨start, -, read⟩ :=
      exists_skipTrivia_newline clean rest (by rwa [found]) kind nonempty stop
    obtain ⟨ts', next, found', -⟩ := follows.step_newline read
    simp [found] at found'
  | case2 l ts next found ih =>
    rw [tokens_of_step_some found, List.mem_append] at mem
    -- Either this step reads the line break, or it ends before it and is the same in both texts.
    by_cases inside : t ∈ ts
    · obtain ⟨start, stop_eq, read⟩ :=
        exists_skipTrivia_newline clean rest (by rwa [found]) kind nonempty stop
      obtain ⟨ts', next', found', step'⟩ := follows.step_newline read
      rw [stop_eq]
      exact ⟨ts', next', tokens_of_step_some found', step'.1, step'.2.1, step'.2.2.1,
        tokens_of_step_some step'.2.2.2⟩
    have later := mem.resolve_left inside
    rcases step_spec within with ⟨next', ts', eq, ahead, laid, -⟩ | ⟨front, eq, -⟩
    · obtain ⟨rfl, same⟩ := Prod.mk.inj (found.symm.trans eq)
      obtain rfl := Option.some.inj same
      have behind := next.covers_tokens.le_start later
      have passed_le : next.cursor.offset ≤ l.cursor.offset + Text.byteLength cs := by omega
      have clean' := ahead.notMem clean
      obtain ⟨passed, split, offset⟩ := ahead
      obtain ⟨left, rfl, rest'⟩ := Text.exists_left (split.symm.trans rest) (by omega)
      rw [Text.byteLength_append] at stop
      obtain ⟨tokens, goes⟩ := follows.step alike (by simp [found, remaining, rest'])
      rw [found, Token.shift_zero, List.map_id] at tokens
      rw [found] at goes
      cases found' : l'.step with
      | mk ts' next' =>
        rw [found'] at tokens goes
        obtain rfl : ts' = ts := tokens
        cases goes with
        | some follows' =>
          obtain ⟨us, last, eq, cursor, begins, before, eq'⟩ :=
            ih (within.trans ⟨passed, split, offset⟩) clean' rest' follows' later (by omega)
          refine ⟨ts' ++ us, last, ?_, cursor, begins, fun u mem => ?_, ?_⟩
          · rw [tokens_of_step_some found, eq, List.append_assoc]
          · rcases List.mem_append.1 mem with mem | mem
            · have := laid.stop_le mem
              have := u.span.ordered
              omega
            · exact before u mem
          · rw [tokens_of_step_some found', eq', List.append_assoc]
    · simp [found] at eq

end Lexer

/-- What ends with a token for a line break ends with a line feed, if it has no carriage returns. -/
theorem exists_feed {text : String} {before after : List Char} {t : Token}
    (split : text.toList = before ++ after) (clean : '\r' ∉ before) (mem : t ∈ tokenize text)
    (kind : t.kind = .newline) (nonempty : t.span.start < t.span.stop)
    (stop : t.span.stop = Text.byteLength before) : ∃ cs, before = cs ++ ['\n'] := by
  obtain ⟨word, cut, breaks⟩ := Lexer.text?_of_isLayout (.refl _) mem (by rw [kind]; rfl)
  obtain ⟨starts, stops⟩ := (laid_tokenize text).mem mem
  obtain ⟨front, rest, source, start⟩ := starts
  rw [source] at stops
  obtain ⟨middle, tail, rfl, stop'⟩ := stops.split (start ▸ t.span.ordered)
  rw [← List.append_assoc] at source
  obtain rfl : middle = word := by
    rw [Token.text?, source, t.span.slice?_append front middle tail start stop'] at cut
    exact Option.some.inj cut
  have length : Text.byteLength (front ++ middle) = Text.byteLength before := by
    rw [Text.byteLength_append]
    omega
  obtain ⟨left, rfl, -⟩ := Text.exists_left (source.symm.trans split) length.le
  obtain rfl : left = [] := Text.eq_nil_of_byteLength (by
    rw [Text.byteLength_append (front ++ middle)] at length
    omega)
  rcases List.eq_nil_or_concat middle with rfl | ⟨inner, last, rfl⟩
  · rw [Text.byteLength_nil] at stop'
    omega
  · have none : '\r' ∉ [last] := fun returned => clean (by simp_all)
    obtain rfl : last = '\n' := eq_feed (breaks last (by simp)) none
    exact ⟨front ++ inner, by simp⟩

/-- Lines without contents at the beginning of a text, or behind a line break that is a token, leave
the tokens as they are. Those that come behind are so many bytes further on. -/
theorem tokenize_blankLines {before lines after : String} (clean : '\r' ∉ (before ++ after).toList)
    (ends : before = "" ∨ ∃ t ∈ tokenize (before ++ after), t.kind = .newline ∧
      t.span.start < t.span.stop ∧ t.span.stop = Text.byteLength before.toList)
    (blank : BlankLines lines.toList) :
    tokenize (before ++ lines ++ after) = (tokenize (before ++ after)).map fun t =>
      if Text.byteLength before.toList ≤ t.span.start then t.shift (Text.byteLength lines.toList)
      else t := by
  rcases ends with rfl | ⟨t, mem, kind, nonempty, stop⟩
  · have shifted := Lexer.tokens_blankLines (l := .ofText after.toList) blank rfl rfl
    rw [String.empty_append, String.empty_append, tokenize, String.toList_append, tokenize]
    refine Eq.trans shifted (List.map_congr_left fun t _ => ?_)
    exact (if_pos (Nat.zero_le _)).symm
  · rw [String.toList_append] at clean
    obtain ⟨cs, before_eq⟩ := exists_feed String.toList_append
      (fun mem => clean (List.mem_append_left _ mem)) mem kind nonempty stop
    have rest : before.toList ++ after.toList = cs ++ '\n' :: after.toList := by simp [before_eq]
    have rest' : before.toList ++ lines.toList ++ after.toList
        = cs ++ '\n' :: (lines.toList ++ after.toList) := by
      simp [before_eq]
    have feed : ('\n').utf8Size = 1 := by decide
    have stop_eq : Text.byteLength before.toList = Text.byteLength cs + 1 := by
      simp [before_eq, feed]
    have follows : Lexer.Follows ('\n' :: after.toList) ('\n' :: (lines.toList ++ after.toList)) 0
        (.ofText (before ++ after).toList) (.ofText (before ++ lines ++ after).toList) := by
      refine ⟨⟨⟨cs, ?_, ?_⟩, rfl⟩, rfl, rfl, rfl, rfl⟩
      · rw [String.toList_append]
        exact rest
      · rw [String.toList_append, String.toList_append]
        exact rest'
    obtain ⟨ts, next, tokens, cursor, begins, early, tokens'⟩ :=
      Lexer.exists_tokens_newline (.refl _) (by rw [String.toList_append]; exact clean)
        (by rw [String.toList_append]; exact rest) follows mem kind nonempty
        (by rw [stop, stop_eq]; exact congrArg (· + 1) (Nat.zero_add _).symm)
    rw [tokenize, tokenize, tokens, tokens', Lexer.tokens_blankLines blank begins cursor,
      List.map_append, ← stop]
    refine congrArg₂ (· ++ ·) ?_ (List.map_congr_left fun u mem => ?_)
    · conv_lhs => rw [← List.map_id ts]
      exact List.map_congr_left fun u mem => (if_neg (not_le.2 (early u mem))).symm
    · have behind := next.covers_tokens.le_start mem
      rw [cursor] at behind
      exact (if_pos behind).symm

/-- A block, and a line behind it. -/
def closedBlock : String := "~\n ~\n" ++ "~"

theorem tokenize_closedBlock : tokenize closedBlock
    = [⟨.tilde, 0, 1, by decide⟩, ⟨.newline, 1, 2, by decide⟩, .empty .indent 3,
        ⟨.tilde, 3, 4, by decide⟩, ⟨.newline, 4, 5, by decide⟩, .empty .dedent 5,
        ⟨.tilde, 5, 6, by decide⟩, .empty .newline 6, .empty .eof 6] := by
  have first : (Lexer.ofText closedBlock.toList).step
      = ([⟨.tilde, 0, 1, by decide⟩],
        some ⟨⟨1, "\n ~\n~".toList⟩, [], 0, false, some .tilde⟩) := by
    decide +kernel
  have second : (⟨⟨1, "\n ~\n~".toList⟩, [], 0, false, some .tilde⟩ : Lexer).step
      = ([⟨.newline, 1, 2, by decide⟩],
        some ⟨⟨2, " ~\n~".toList⟩, [], 0, true, some .newline⟩) := by
    decide +kernel
  have third : (⟨⟨2, " ~\n~".toList⟩, [], 0, true, some .newline⟩ : Lexer).step
      = ([.empty .indent 3, ⟨.tilde, 3, 4, by decide⟩],
        some ⟨⟨4, "\n~".toList⟩, [1], 0, false, some .tilde⟩) := by
    decide +kernel
  have fourth : (⟨⟨4, "\n~".toList⟩, [1], 0, false, some .tilde⟩ : Lexer).step
      = ([⟨.newline, 4, 5, by decide⟩],
        some ⟨⟨5, "~".toList⟩, [1], 0, true, some .newline⟩) := by
    decide +kernel
  have fifth : (⟨⟨5, "~".toList⟩, [1], 0, true, some .newline⟩ : Lexer).step
      = ([.empty .dedent 5, ⟨.tilde, 5, 6, by decide⟩],
        some ⟨⟨6, []⟩, [], 0, false, some .tilde⟩) := by
    decide +kernel
  rw [tokenize, Lexer.tokens_of_step_some first, Lexer.tokens_of_step_some second,
    Lexer.tokens_of_step_some third, Lexer.tokens_of_step_some fourth,
    Lexer.tokens_of_step_some fifth, Lexer.tokens_end]
  rfl

/-- A comment between the block and the line, indented as neither is. -/
theorem tokenize_blankLines_closedBlock :
    BlankLines "  # x\n\t\n".toList ∧ tokenize ("~\n ~\n" ++ "  # x\n\t\n" ++ "~")
      = [⟨.tilde, 0, 1, by decide⟩, ⟨.newline, 1, 2, by decide⟩, .empty .indent 3,
          ⟨.tilde, 3, 4, by decide⟩, ⟨.newline, 4, 5, by decide⟩, .empty .dedent 13,
          ⟨.tilde, 13, 14, by decide⟩, .empty .newline 14, .empty .eof 14] := by
  have blank : BlankLines "  # x\n\t\n".toList :=
    @BlankLines.comment [' ', ' '] [' ', 'x'] ['\t', '\n'] '\n' (by simp [isMargin])
      (by simp [isBreak]) rfl (@BlankLines.empty ['\t'] [] '\n' (by simp [isMargin]) rfl .nil)
  have read := tokenize_closedBlock
  rw [closedBlock] at read
  refine ⟨blank, ?_⟩
  rw [tokenize_blankLines (by decide) (.inr ⟨⟨.newline, 4, 5, by decide⟩, ?_, rfl, ?_, ?_⟩) blank, read]
  · decide
  · rw [read]
    decide
  · decide
  · decide

end SureCode
