import Mathlib
import SureCode.Proofs.Token.Coverage

/-!
# What lies between tokens

Between two tokens there is only `Trivia`: blanks, line breaks, continued lines and comments. A text
is nothing but trivia and the texts of its tokens in turn (`covers_tokenize`). A token without text
is a layout token, or it flags a line whose indentation fits none of the open blocks
(`flags_of_empty`). A stream hands out the tokens of a text and after them the end of the text
without end (`nextTokens_ofText`).
-/

namespace SureCode

open Cursor

/-! ### Trivia -/

/-- What leaves no token: blanks, line breaks, continued lines and comments, each of which goes on to
the end of its line. The flag says that a comment has begun, and `after` is the text that follows. -/
inductive Trivia (after : List Char) : Bool → List Char → Prop where
  | nil : Trivia after false []
  | stop (ends : after.head?.all isBreak = true) : Trivia after true []
  | blank {ch : Char} {cs : List Char} (blank : ch = ' ' ∨ ch = '\t' ∨ ch = '\x0c')
      (rest : Trivia after false cs) : Trivia after false (ch :: cs)
  | lineBreak {inComment : Bool} {ch : Char} {cs : List Char} (breaks : isBreak ch = true)
      (rest : Trivia after false cs) : Trivia after inComment (ch :: cs)
  | continued {ch : Char} {cs : List Char} (breaks : isBreak ch = true)
      (rest : Trivia after false cs) : Trivia after false ('\\' :: ch :: cs)
  | hash {cs : List Char} (rest : Trivia after true cs) : Trivia after false ('#' :: cs)
  | comment {ch : Char} {cs : List Char} (inside : isBreak ch = false)
      (rest : Trivia after true cs) : Trivia after true (ch :: cs)

theorem Trivia.head_of_isBreak {after cs : List Char} (trivia : Trivia after false cs)
    (breaks : (cs ++ after).head?.all isBreak = true) : Trivia after true cs := by
  cases trivia with
  | nil => exact .stop breaks
  | blank blank rest => rcases blank with rfl | rfl | rfl <;> simp [isBreak] at breaks
  | lineBreak breaks rest => exact .lineBreak breaks rest
  | continued _ rest => exact absurd breaks (by simp [isBreak])
  | hash rest => exact absurd breaks (by simp [isBreak])

/-- Trivia and what is trivia after them are trivia together. -/
theorem Trivia.append {after more cs : List Char} {inComment : Bool}
    (trivia : Trivia (more ++ after) inComment cs) (rest : Trivia after false more) :
    Trivia after inComment (cs ++ more) := by
  induction trivia with
  | nil => exact rest
  | stop ends => exact rest.head_of_isBreak ends
  | blank blank _ ih => exact .blank blank ih
  | lineBreak breaks _ ih => exact .lineBreak breaks ih
  | continued breaks _ ih => exact .continued breaks ih
  | hash _ ih => exact .hash ih
  | comment inside _ ih => exact .comment inside ih

/-- One cursor is ahead of another by trivia. -/
def Skips (inComment : Bool) (c d : Cursor) : Prop :=
  ∃ gap, c.Reaches gap d ∧ Trivia d.rest inComment gap

namespace Skips

variable {inComment inside : Bool} {c d e : Cursor} {offset : Nat} {ch : Char} {cs : List Char}

theorem refl (c : Cursor) : Skips false c c := ⟨[], .refl c, .nil⟩

theorem stop (ends : c.rest.head?.all isBreak = true) : Skips true c c := ⟨[], .refl c, .stop ends⟩

theorem ahead (skips : Skips inComment c d) : c.Ahead d := skips.imp fun _ skips => skips.1

/-- One character more is passed. -/
theorem cons (skips : Skips inside ⟨offset + ch.utf8Size, cs⟩ d)
    (more : ∀ {gap}, Trivia d.rest inside gap → Trivia d.rest inComment (ch :: gap)) :
    Skips inComment ⟨offset, ch :: cs⟩ d := by
  obtain ⟨gap, reached, trivia⟩ := skips
  have one : (⟨offset, ch :: cs⟩ : Cursor).Reaches [ch] ⟨offset + ch.utf8Size, cs⟩ := by
    simp [Reaches]
  exact ⟨ch :: gap, one.trans reached, more trivia⟩

/-- A backslash and a line break more are passed. -/
theorem continued (breaks : isBreak ch = true)
    (skips : Skips false ⟨offset + 1 + ch.utf8Size, cs⟩ d) :
    Skips false ⟨offset, '\\' :: ch :: cs⟩ d := by
  obtain ⟨gap, reached, trivia⟩ := skips
  have two : (⟨offset, '\\' :: ch :: cs⟩ : Cursor).Reaches ['\\', ch]
      ⟨offset + 1 + ch.utf8Size, cs⟩ := by
    have size : ('\\').utf8Size = 1 := by decide
    simp [Reaches, size, Nat.add_assoc]
  exact ⟨'\\' :: ch :: gap, two.trans reached, .continued breaks trivia⟩

end Skips

/-- Only trivia are passed before the contents of a line. -/
theorem skips_lineStart (inComment : Bool) (width : UInt32) (offset : Nat) (cs : List Char) :
    Skips inComment ⟨offset, cs⟩ (lineStart inComment width offset cs).2 := by
  fun_induction lineStart inComment width offset cs with
  | case1 inComment =>
    cases inComment with
    | false => exact .refl _
    | true => exact .stop rfl
  | case2 _ _ _ _ _ _ breaks ih => exact ih.cons (.lineBreak breaks)
  | case3 _ _ _ _ _ inside ih => exact ih.cons (.comment (by simpa using inside))
  | case4 _ _ _ _ _ _ _ outside blank ih | case5 _ _ _ _ _ _ _ outside _ blank ih
  | case6 _ _ _ _ _ _ _ outside _ _ blank ih =>
    obtain rfl := Bool.eq_false_iff.2 outside
    obtain rfl := beq_iff_eq.1 blank
    exact ih.cons (.blank (by decide))
  | case7 _ _ _ _ _ _ _ outside _ _ _ hash ih =>
    obtain rfl := Bool.eq_false_iff.2 outside
    obtain rfl := beq_iff_eq.1 hash
    exact ih.cons .hash
  | case8 _ _ _ _ _ _ outside =>
    obtain rfl := Bool.eq_false_iff.2 outside
    exact .refl _

/-- Only trivia are passed before the next lexeme of a line. -/
theorem skips_skipTrivia (inBrackets inComment : Bool) (offset : Nat) (cs : List Char) :
    Skips inComment ⟨offset, cs⟩ (skipTrivia inBrackets inComment offset cs) := by
  fun_induction skipTrivia inBrackets inComment offset cs with
  | case1 inComment =>
    cases inComment with
    | false => exact .refl _
    | true => exact .stop rfl
  | case2 _ _ ih => exact ih.cons (.comment (by decide))
  | case3 _ _ _ outside ih =>
    obtain rfl := Bool.eq_false_iff.2 outside
    exact .continued (by decide) (ih.cons (.lineBreak (by decide)))
  | case4 _ _ _ _ _ _ breaks _ ih => exact ih.cons (.lineBreak breaks)
  | case5 inComment _ _ _ _ breaks =>
    cases inComment with
    | false => exact .refl _
    | true => exact .stop breaks
  | case6 _ _ _ _ _ inside ih => exact ih.cons (.comment (by simpa using inside))
  | case7 _ _ _ _ _ _ _ outside blank ih =>
    obtain rfl := Bool.eq_false_iff.2 outside
    exact ih.cons (.blank (by simpa [or_assoc] using blank))
  | case8 _ _ _ _ _ _ _ outside _ hash ih =>
    obtain rfl := Bool.eq_false_iff.2 outside
    obtain rfl := beq_iff_eq.1 hash
    exact ih.cons .hash
  | case9 _ _ _ _ _ outside _ _ backslash _ _ breaks _ ih =>
    obtain rfl := Bool.eq_false_iff.2 outside
    obtain rfl := beq_iff_eq.1 backslash
    exact .continued breaks ih
  | case10 _ _ _ _ outside | case11 _ _ _ _ outside | case12 _ _ _ _ _ _ outside =>
    obtain rfl := Bool.eq_false_iff.2 outside
    exact .refl _

/-- Between brackets a line break is passed over. -/
theorem eq_false_of_skipTrivia {inBrackets inComment : Bool} {offset : Nat} {ch : Char}
    {cs rest : List Char} (stops : (skipTrivia inBrackets inComment offset cs).rest = ch :: rest)
    (breaks : isBreak ch = true) : inBrackets = false := by
  fun_induction skipTrivia inBrackets inComment offset cs with
  | case1 => cases stops
  | case2 _ _ ih | case3 _ _ _ _ ih | case4 _ _ _ _ _ _ _ _ ih | case6 _ _ _ _ _ _ ih
  | case7 _ _ _ _ _ _ _ _ _ ih | case8 _ _ _ _ _ _ _ _ _ _ ih
  | case9 _ _ _ _ _ _ _ _ _ _ _ _ _ ih => exact ih stops
  | case5 _ _ _ _ _ _ outside => exact Bool.eq_false_iff.2 outside
  | case10 _ _ _ inside | case11 _ _ _ inside | case12 _ _ _ _ _ inside =>
    obtain ⟨rfl, -⟩ := List.cons.inj stops
    exact absurd breaks inside

namespace Cursor

variable {inBrackets inComment : Bool} {offset : Nat} {cs : List Char}

/-- What is not in a text is not in what is left of it. -/
theorem Ahead.notMem {c d : Cursor} {ch : Char} (ahead : c.Ahead d) (none : ch ∉ c.rest) :
    ch ∉ d.rest := by
  obtain ⟨passed, split, -⟩ := ahead
  exact fun mem => none (by rw [split]; exact List.mem_append_right _ mem)

theorem eq_feed {ch : Char} (breaks : isBreak ch = true) (clean : '\r' ∉ ch :: cs) : ch = '\n' := by
  have cases_ : ch = '\n' ∨ ch = '\r' := by simpa [isBreak] using breaks
  exact cases_.resolve_right fun returns => clean (by simp [returns])

/-- What a character does that continues no line. -/
theorem skipTrivia_cons {ch : Char} (plain : ch ≠ '\\') :
    skipTrivia inBrackets inComment offset (ch :: cs)
      = if isBreak ch then
          if inBrackets then skipTrivia inBrackets false (offset + ch.utf8Size) cs
          else ⟨offset, ch :: cs⟩
        else if inComment then skipTrivia inBrackets true (offset + ch.utf8Size) cs
        else if ch == ' ' || ch == '\t' || ch == '\x0c' then
          skipTrivia inBrackets false (offset + ch.utf8Size) cs
        else if ch == '#' then skipTrivia inBrackets true (offset + ch.utf8Size) cs
        else ⟨offset, ch :: cs⟩ := by
  rw [skipTrivia.eq_def]
  split
  · rename_i eq
    cases eq
  · rename_i eq
    exact absurd (List.cons.inj eq).1 plain
  · rename_i eq
    obtain ⟨rfl, rfl⟩ := List.cons.inj eq
    simp [plain]

/-- In a comment a backslash is like any other character. -/
theorem skipTrivia_backslash :
    skipTrivia inBrackets true offset ('\\' :: cs) = skipTrivia inBrackets true (offset + 1) cs := by
  have size : ('\\').utf8Size = 1 := by decide
  rw [skipTrivia.eq_def]
  split
  · rename_i eq
    cases eq
  · rename_i eq
    obtain ⟨-, rfl⟩ := List.cons.inj eq
    rfl
  · rename_i eq
    obtain ⟨rfl, rfl⟩ := List.cons.inj eq
    simp [isBreak, size]

/-- A backslash that continues no line is not passed over. -/
theorem skipTrivia_loose {next : Char} (inline : ¬ isBreak next = true) :
    skipTrivia inBrackets false offset ('\\' :: next :: cs) = ⟨offset, '\\' :: next :: cs⟩ := by
  rw [skipTrivia.eq_def]
  split
  · rename_i eq
    cases eq
  · rename_i eq
    obtain ⟨rfl, -⟩ : next = '\r' ∧ _ := by simpa using eq
    exact absurd inline (by decide)
  · rename_i eq
    obtain ⟨rfl, rfl⟩ := List.cons.inj eq
    simp [inline, show isBreak '\\' = false by decide]

/-- A backslash takes the next line break with it, of one character or of two. -/
theorem skipTrivia_continued {next : Char} (breaks : isBreak next = true) :
    skipTrivia inBrackets false offset ('\\' :: next :: cs)
      = if next == '\r' && cs.head? == some '\n' then skipTrivia inBrackets false (offset + 3) cs.tail
        else skipTrivia inBrackets false (offset + 1 + next.utf8Size) cs := by
  have backslash : isBreak '\\' = false := by decide
  have size : ('\\').utf8Size = 1 := by decide
  rw [skipTrivia.eq_def]
  split
  · rename_i eq
    cases eq
  · rename_i eq
    obtain ⟨rfl, rfl⟩ : next = '\r' ∧ _ := by simpa using eq
    rfl
  · rename_i single eq
    obtain ⟨rfl, rfl⟩ := List.cons.inj eq
    have apart : ¬ (next == '\r' && cs.head? == some '\n') = true := fun both => by
      cases cs with
      | nil => simp at both
      | cons feed cs =>
        obtain ⟨rfl, rfl⟩ : next = '\r' ∧ feed = '\n' := by simpa using both
        exact single cs rfl rfl
    rw [if_neg apart]
    simp [backslash, breaks, size]

end Cursor

/-! ### The texts of tokens -/

/-- Tokens that cover a text from an offset to its end: before each of them there are trivia and then
its text, and nothing is left after the last. -/
inductive Covers : Nat → List Char → List Token → Prop where
  | nil (offset : Nat) : Covers offset [] []
  | cons {offset : Nat} {gap word rest : List Char} {t : Token} {ts : List Token}
      (trivia : Trivia (word ++ rest) false gap)
      (start : t.span.start = offset + Text.byteLength gap)
      (stop : t.span.stop = t.span.start + Text.byteLength word)
      (tail : Covers t.span.stop rest ts) : Covers offset (gap ++ (word ++ rest)) (t :: ts)

namespace Covers

variable {c d : Cursor} {offset : Nat} {cs word : List Char} {t : Token} {ts us : List Token}

theorem le_start (covers : Covers offset cs ts) (mem : t ∈ ts) : offset ≤ t.span.start := by
  induction covers with
  | nil => cases mem
  | @cons offset gap word rest first ts _ start stop _ ih =>
    rcases List.mem_cons.1 mem with rfl | mem
    · omega
    · have := ih mem
      omega

/-- More trivia before the first token. -/
theorem skip (skips : Skips false c d) (nonempty : ts ≠ []) (covers : Covers d.offset d.rest ts) :
    Covers c.offset c.rest ts := by
  obtain ⟨more, ⟨rest, offset⟩, trivia⟩ := skips
  generalize d.rest = cs at covers rest trivia
  cases covers with
  | nil => exact absurd rfl nonempty
  | cons trivia' start stop tail =>
    rw [rest, ← List.append_assoc]
    refine .cons (trivia.append trivia') ?_ stop tail
    rw [start, offset, Text.byteLength_append, Nat.add_assoc]

/-- A token before all others. -/
theorem token (reached : c.Reaches word d) (start : t.span.start = c.offset)
    (stop : t.span.stop = d.offset) (covers : Covers d.offset d.rest ts) :
    Covers c.offset c.rest (t :: ts) := by
  rw [reached.1]
  exact @cons _ [] word _ _ _ .nil (by simpa using start) (by rw [stop, start, reached.2])
    (stop ▸ covers)

/-- Tokens without text before all others. -/
theorem empties (empty : ∀ u ∈ us, u.span = .empty offset) (covers : Covers offset cs ts) :
    Covers offset cs (us ++ ts) := by
  induction us with
  | nil => exact covers
  | cons u us ih =>
    obtain ⟨first, rest⟩ := List.forall_mem_cons.1 empty
    refine @cons _ [] [] _ _ _ .nil ?_ ?_ ?_
    · simp [first, Span.empty]
    · simp [first, Span.empty]
    · rw [first]
      exact ih rest

end Covers

/-! ### Steps of a lexer -/

namespace Lexer

variable {source : List Char} {l next : Lexer} {ts : List Token} {t : Token}

/-- A lexer that the lexer before a text comes to. -/
inductive Reached (source : List Char) : Lexer → Prop where
  | start : Reached source (.ofText source)
  | step {l next : Lexer} {ts : List Token} (reached : Reached source l)
      (found : l.step = (ts, some next)) : Reached source next

/-- What holds of every lexer in a text: it is a place in the text, the widths of its open blocks
ascend from zero, and a line begins only outside brackets. -/
structure Sound (source : List Char) (l : Lexer) : Prop where
  within : (Cursor.ofText source).Ahead l.cursor
  ascending : (l.levels ++ [0]).Pairwise (· > ·)
  outside : l.atLineStart = true → l.depth = 0

/-- The lexer before a line whose width is less than that of the innermost open block and is the width
of none, with the token that says so. -/
def Flags (l : Lexer) (t : Token) : Prop :=
  l.atLineStart = true ∧ l.depth = 0 ∧
    ∃ width c, lineStart false 0 l.cursor.offset l.cursor.rest = (some width, c) ∧
      width < l.levels.headD 0 ∧ width ∉ l.levels ++ [0] ∧ t = .empty .unknown c.offset

/-- The levels that stay open keep ascending. -/
theorem pairwise_indentation {levels : List Nat} (ascending : (levels ++ [0]).Pairwise (· > ·))
    (width offset : Nat) :
    ((indentation levels width offset).2 ++ [0]).Pairwise (· > ·) := by
  unfold indentation
  dsimp only
  split
  case isTrue deeper =>
    refine List.pairwise_cons.2 ⟨fun level mem => ?_, ascending⟩
    cases levels with
    | nil => simpa [List.mem_singleton.1 mem] using deeper
    | cons first rest =>
      rcases List.mem_cons.1 mem with rfl | mem
      · exact deeper
      · exact (List.rel_of_pairwise_cons ascending mem).trans deeper
  case isFalse =>
    exact ascending.sublist ((List.dropWhile_sublist _).append_right [0])

theorem not_mem_of_headD_dropWhile {levels : List Nat} {width : Nat}
    (ascending : (levels ++ [0]).Pairwise (· > ·))
    (differs : (levels.dropWhile (width < ·)).headD 0 ≠ width) : width ∉ levels ++ [0] := by
  induction levels with
  | nil => simpa [eq_comm] using differs
  | cons level levels ih =>
    rw [List.cons_append, List.pairwise_cons] at ascending
    rw [List.cons_append, List.mem_cons, not_or]
    rw [List.dropWhile_cons] at differs
    split at differs
    case isTrue wider =>
      have wider := of_decide_eq_true wider
      exact ⟨by omega, ih ascending.2 differs⟩
    case isFalse wide =>
      have wide : ¬ width < level := by simpa using wide
      have differs : level ≠ width := differs
      refine ⟨differs.symm, fun mem => ?_⟩
      have := ascending.1 width mem
      omega

/-- A token at the beginning of a line is a layout token or flags the line. -/
theorem isLayout_or_of_mem_indentation {levels : List Nat} {width offset : Nat}
    (ascending : (levels ++ [0]).Pairwise (· > ·)) (mem : t ∈ (indentation levels width offset).1) :
    t.kind.isLayout = true ∨
      width < levels.headD 0 ∧ width ∉ levels ++ [0] ∧ t = .empty .unknown offset := by
  unfold indentation at mem
  dsimp only at mem
  split at mem
  case isTrue =>
    rw [List.mem_singleton] at mem
    exact .inl (mem ▸ rfl)
  case isFalse shallow =>
    rw [List.mem_append, List.mem_map] at mem
    rcases mem with ⟨_, -, rfl⟩ | mem
    · exact .inl rfl
    · split at mem
      · cases mem
      · rename_i differs
        have differs : (levels.dropWhile (width < ·)).headD 0 ≠ width := by simpa using differs
        have unopened := not_mem_of_headD_dropWhile ascending differs
        refine .inr ⟨lt_of_le_of_ne (by omega) fun same => unopened ?_, unopened,
          List.mem_singleton.1 mem⟩
        rw [same]
        cases levels <;> simp

/-- The tokens that a line begins with stand at its contents, behind trivia. -/
theorem beginLine_skips (l : Lexer) :
    Skips false l.cursor l.beginLine.2.cursor ∧
      ∀ t ∈ l.beginLine.1, t.span = .empty l.beginLine.2.cursor.offset := by
  have skips := skips_lineStart false 0 l.cursor.offset l.cursor.rest
  unfold beginLine
  split
  · split
    · rename_i c found
      rw [found] at skips
      exact ⟨skips, nofun⟩
    · rename_i width c found
      rw [found] at skips
      exact ⟨skips, fun t mem => (indentation_spec l.levels width c.offset t mem).1⟩
  · exact ⟨.refl _, nofun⟩

/-- A token that a line begins with is a layout token or flags the line. -/
theorem isLayout_or_flags (sound : l.Sound source) (mem : t ∈ l.beginLine.1) :
    t.kind.isLayout = true ∨ l.Flags t := by
  unfold beginLine at mem
  split at mem
  · rename_i begins
    obtain ⟨atStart, outside⟩ := Bool.and_eq_true_iff.1 begins
    split at mem
    · cases mem
    · rename_i width c found
      refine (isLayout_or_of_mem_indentation sound.ascending mem).imp_right fun flags => ?_
      exact ⟨atStart, beq_iff_eq.1 outside, width, c, found, flags⟩
  · cases mem

/-- Beginning a line keeps what holds of every lexer, and no line begins after it. -/
theorem Sound.beginLine (sound : l.Sound source) :
    l.beginLine.2.Sound source ∧ l.beginLine.2.atLineStart = false := by
  have within := sound.within.trans l.beginLine_skips.1.ahead
  unfold Lexer.beginLine at within ⊢
  split
  · rename_i begins
    rw [if_pos begins] at within
    split
    · rename_i c found
      rw [found] at within
      exact ⟨⟨within, sound.ascending, nofun⟩, rfl⟩
    · rename_i width c found
      rw [found] at within
      exact ⟨⟨within, pairwise_indentation sound.ascending width c.offset, nofun⟩, rfl⟩
  · rename_i continues
    refine ⟨sound, ?_⟩
    cases atStart : l.atLineStart with
    | false => rfl
    | true => simp [atStart, sound.outside atStart] at continues

/-- What reading a lexeme can come to, behind trivia: the end of the text, a line break outside
brackets, or a stretch of text that is no layout. -/
inductive Reads (l : Lexer) : List Token × Option Lexer → Prop where
  | ends {c : Cursor} (skips : Skips false l.cursor c) (done : c.rest = []) :
      Reads l (closing l.last l.levels c.offset, none)
  | breaks {c : Cursor} {word : List Char} (skips : Skips false l.cursor c)
      (reached : c.Reaches word c.skipBreak) (nonempty : word ≠ [])
      (breaks : c.rest.head?.any isBreak = true) (outside : l.depth = 0) :
      Reads l ([tokenBetween .newline c c.skipBreak],
        some { l with cursor := c.skipBreak, atLineStart := true, last := some .newline })
  | scans {c d : Cursor} {kind : Kind} {word : List Char} (skips : Skips false l.cursor c)
      (reached : c.Reaches word d) (nonempty : word ≠ []) (lexeme : kind.isLayout = false) :
      Reads l ([tokenBetween kind c d],
        some { l with cursor := d, depth := depthAfter l.depth kind, last := some kind })

theorem ne_nil_of_length_lt {c d : Cursor} {word : List Char} (reached : c.Reaches word d)
    (shorter : d.rest.length < c.rest.length) : word ≠ [] := by
  rintro rfl
  rw [reached.1] at shorter
  exact Nat.lt_irrefl _ shorter

theorem reads_lexeme (l : Lexer) : l.Reads l.lexeme := by
  have skips := skips_skipTrivia (l.depth != 0) false l.cursor.offset l.cursor.rest
  unfold lexeme
  dsimp only
  split
  · rename_i done
    exact .ends skips done
  · rename_i ch cs more
    have nonempty : (skipTrivia (l.depth != 0) false l.cursor.offset l.cursor.rest).rest ≠ [] := by
      simp [more]
    split
    · rename_i breaks
      obtain ⟨word, reached⟩ := ahead_skipBreak
        (skipTrivia (l.depth != 0) false l.cursor.offset l.cursor.rest)
      have outside := eq_false_of_skipTrivia more breaks
      exact .breaks skips reached (ne_nil_of_length_lt reached (length_skipBreak_lt nonempty))
        (by simpa [more] using breaks) (by simpa using outside)
    · obtain ⟨word, reached⟩ := Lexeme.ahead_scan
        (skipTrivia (l.depth != 0) false l.cursor.offset l.cursor.rest)
      exact .scans skips reached
        (ne_nil_of_length_lt reached (Lexeme.length_scan_lt nonempty))
        (Lexeme.isLayout_scan nonempty)

/-- A step begins a line and reads a lexeme. -/
theorem exists_reads_of_step {more : Option Lexer} (found : l.step = (ts, more)) :
    ∃ tokens, ts = l.beginLine.1 ++ tokens ∧ l.beginLine.2.Reads (tokens, more) := by
  obtain ⟨rfl, rfl⟩ := Prod.mk.inj found
  exact ⟨_, rfl, l.beginLine.2.reads_lexeme⟩

/-- A step keeps what holds of every lexer. -/
theorem Sound.step (sound : l.Sound source) (found : l.step = (ts, some next)) :
    next.Sound source := by
  obtain ⟨begun, started⟩ := sound.beginLine
  obtain ⟨tokens, -, reads⟩ := exists_reads_of_step found
  cases reads with
  | breaks skips reached _ _ outside =>
    exact ⟨(begun.within.trans skips.ahead).trans ⟨_, reached⟩, begun.ascending, fun _ => outside⟩
  | scans skips reached =>
    refine ⟨(begun.within.trans skips.ahead).trans ⟨_, reached⟩, begun.ascending, fun begins => ?_⟩
    exact absurd (started.symm.trans begins) (by decide)

theorem sound_ofText (source : List Char) : (ofText source).Sound source :=
  ⟨.refl _, by simp [ofText], fun _ => rfl⟩

theorem Reached.sound (reached : Reached source l) : l.Sound source := by
  induction reached with
  | start => exact sound_ofText source
  | step _ found ih => exact ih.step found

/-! ### All tokens -/

theorem stop_tokenBetween {kind : Kind} {c d : Cursor} (ahead : c.Ahead d) :
    (tokenBetween kind c d).span.stop = d.offset := Nat.max_eq_right ahead.offset_le

theorem lt_stop_tokenBetween {kind : Kind} {c d : Cursor} {word : List Char}
    (reached : c.Reaches word d) (nonempty : word ≠ []) :
    (tokenBetween kind c d).span.start < (tokenBetween kind c d).span.stop := by
  rw [stop_tokenBetween ⟨_, reached⟩, reached.2]
  exact Nat.lt_add_of_pos_right (Nat.pos_of_ne_zero fun zero =>
    nonempty (Text.eq_nil_of_byteLength zero))

theorem closing_eq_append (last : Option Kind) (levels : List Nat) (offset : Nat) :
    ∃ front, closing last levels offset = front ++ [.empty .eof offset] ∧
      ∀ t ∈ front, t.span = .empty offset := by
  obtain ⟨front, eq, spec⟩ := closing_spec last levels offset
  exact ⟨front, eq, fun t mem => (spec t mem).1⟩

theorem isLayout_of_mem_closing {last : Option Kind} {levels : List Nat} {offset : Nat}
    (mem : t ∈ closing last levels offset) : t.kind.isLayout = true := by
  unfold closing at mem
  simp only [List.mem_append, List.mem_map, List.mem_singleton] at mem
  rcases mem with (mem | ⟨_, -, rfl⟩) | rfl
  · split at mem
    · rw [List.mem_singleton.1 mem]
      rfl
    · cases mem
  · rfl
  · rfl

/-- The tokens from a place on cover the text from there on. -/
theorem covers_tokens (l : Lexer) : Covers l.cursor.offset l.cursor.rest l.tokens := by
  induction l using Lexer.tokens.induct with
  | case1 l ts found =>
    obtain ⟨tokens, rfl, reads⟩ := exists_reads_of_step found
    obtain ⟨begun, opening⟩ := l.beginLine_skips
    rw [tokens_of_step_none found]
    cases reads with
    | @ends c skips done =>
      obtain ⟨front, eq, empty⟩ := closing_eq_append l.beginLine.2.last l.beginLine.2.levels c.offset
      have last : Covers c.offset c.rest [.empty .eof c.offset] :=
        .token (.refl c) rfl rfl (done.symm ▸ .nil c.offset)
      rw [eq]
      refine .skip begun (by simp) (.empties opening (.skip skips (by simp) (.empties empty last)))
  | case2 l ts next found ih =>
    obtain ⟨tokens, rfl, reads⟩ := exists_reads_of_step found
    obtain ⟨begun, opening⟩ := l.beginLine_skips
    rw [tokens_of_step_some found, List.append_assoc]
    cases reads with
    | breaks skips reached | scans skips reached =>
      refine .skip begun (by simp) (.empties opening (.skip skips (by simp) ?_))
      exact .token reached rfl (stop_tokenBetween ⟨_, reached⟩) ih

/-- A token without text is a layout token or flags the beginning of a line. -/
theorem flags_of_empty (reached : Reached source l) (mem : t ∈ l.tokens)
    (lexeme : t.kind.isLayout = false) (empty : t.span.start = t.span.stop) :
    ∃ l, Reached source l ∧ l.Flags t := by
  have opening {l : Lexer} (reached : Reached source l) (mem : t ∈ l.beginLine.1) :
      ∃ l, Reached source l ∧ l.Flags t :=
    ⟨l, reached, (isLayout_or_flags reached.sound mem).resolve_left (by simp [lexeme])⟩
  induction l using Lexer.tokens.induct with
  | case1 l ts found =>
    obtain ⟨tokens, rfl, reads⟩ := exists_reads_of_step found
    rw [tokens_of_step_none found] at mem
    rcases List.mem_append.1 mem with mem | mem
    · exact opening reached mem
    · cases reads with
      | ends =>
        have layout := isLayout_of_mem_closing mem
        simp [lexeme] at layout
  | case2 l ts next found ih =>
    obtain ⟨tokens, rfl, reads⟩ := exists_reads_of_step found
    rw [tokens_of_step_some found, List.mem_append, List.mem_append] at mem
    rcases mem with (first | lexed) | later
    · exact opening reached first
    · cases reads with
      | breaks _ ahead nonempty | scans _ ahead nonempty =>
        rw [List.mem_singleton.1 lexed] at empty
        exact absurd empty (lt_stop_tokenBetween ahead nonempty).ne
    · exact ih (.step reached found) later

theorem ne_nil_of_step (found : l.step = (ts, some next)) : ts ≠ [] := by
  obtain ⟨tokens, rfl, reads⟩ := exists_reads_of_step found
  cases reads <;> simp

end Lexer

/-! ### Streams -/

namespace TokenStream

variable {source : List Char} {stream : TokenStream} {t : Token} {ts : List Token}

/-- A stream still has some tokens of a text to hand out. -/
inductive Yields (source : List Char) : TokenStream → List Token → Prop where
  | lexer {l : Lexer} (within : (Cursor.ofText source).Ahead l.cursor) (ready : List Token) :
      Yields source ⟨ready, .inl l⟩ (ready ++ l.tokens)
  | stopped (ready : List Token) : Yields source ⟨ready, .inr (Text.byteLength source)⟩ ready

/-- The next token is the first of those to be handed out. -/
theorem Yields.next (yields : Yields source stream (t :: ts)) :
    ∃ rest, stream.next = (t, rest) ∧ Yields source rest ts := by
  generalize all_eq : t :: ts = all at yields
  cases yields with
  | stopped ready =>
    subst all_eq
    exact ⟨_, rfl, .stopped ts⟩
  | @lexer l within ready =>
    cases ready with
    | cons first ready =>
      obtain ⟨rfl, rfl⟩ := List.cons.inj all_eq
      exact ⟨_, rfl, .lexer within ready⟩
    | nil =>
      rw [List.nil_append] at all_eq
      unfold TokenStream.next
      dsimp only
      rcases Lexer.step_spec within with ⟨next, us, found, ahead, -⟩ | ⟨front, found, -⟩
      · have nonempty := Lexer.ne_nil_of_step found
        rw [Lexer.tokens_of_step_some found] at all_eq
        rw [found]
        obtain ⟨first, ready, rfl⟩ := List.exists_cons_of_ne_nil nonempty
        obtain ⟨rfl, rfl⟩ := List.cons.inj all_eq
        exact ⟨_, rfl, .lexer (within.trans ahead) ready⟩
      · rw [Lexer.tokens_of_step_none found] at all_eq
        rw [found, ← all_eq]
        refine ⟨_, rfl, ?_⟩
        rw [all_eq, List.getLast?_append]
        exact .stopped ts

/-- When all tokens have been handed out, the next token is the end of the text, and so on. -/
theorem Yields.next_nil (yields : Yields source stream []) :
    stream.next = (.empty .eof (Text.byteLength source), stream) := by
  generalize all_eq : [] = all at yields
  cases yields with
  | stopped ready =>
    subst all_eq
    rfl
  | @lexer l within ready =>
    obtain ⟨front, eq, -⟩ := Lexer.tokens_spec within
    simp [eq] at all_eq

theorem Yields.nextTokens (yields : Yields source stream ts) (count : Nat) :
    stream.nextTokens (ts.length + count)
      = ts ++ List.replicate count (.empty .eof (Text.byteLength source)) := by
  induction ts generalizing stream with
  | nil =>
    rw [List.length_nil, Nat.zero_add, List.nil_append]
    induction count with
    | zero => rfl
    | succ count ih =>
      rw [TokenStream.nextTokens, yields.next_nil]
      dsimp only
      rw [ih, List.replicate_succ]
  | cons t ts ih =>
    obtain ⟨rest, next, yields⟩ := yields.next
    rw [List.length_cons, Nat.add_right_comm, TokenStream.nextTokens, next]
    dsimp only
    rw [ih yields, List.cons_append]

end TokenStream

/-- A token without text is a layout token or flags an indentation that fits no open block. -/
theorem texts_tokenize {text : String} {t : Token} (mem : t ∈ tokenize text) :
    t.kind.isLayout = true ∨ t.span.start < t.span.stop ∨
      ∃ l, Lexer.Reached text.toList l ∧ l.Flags t := by
  rcases lt_or_eq_of_le t.span.ordered with lt | empty
  · exact .inr (.inl lt)
  · cases lexeme : t.kind.isLayout with
    | true => exact .inl rfl
    | false => exact .inr (.inr (Lexer.flags_of_empty .start mem lexeme empty))

/-- The tokens of a text cover it in order: before each there are only trivia, and its ends are
between characters. The last one, and no other, is the end of the text. A token without text is a
layout token or flags an indentation that fits no open block. A stream of the tokens hands them out
and then the end of the text for ever. -/
theorem tokenize_covers (text : String) :
    Covers 0 text.toList (tokenize text) ∧
      (∀ t ∈ tokenize text,
        Text.Boundary text.toList t.span.start ∧ Text.Boundary text.toList t.span.stop) ∧
      (∃ front, tokenize text = front ++ [.empty .eof (Text.byteLength text.toList)] ∧
        ∀ t ∈ front, t.kind ≠ .eof) ∧
      (∀ t ∈ tokenize text, t.kind.isLayout = true ∨ t.span.start < t.span.stop ∨
        ∃ l, Lexer.Reached text.toList l ∧ l.Flags t) ∧
      ∀ count, (TokenStream.ofText text).nextTokens ((tokenize text).length + count)
        = tokenize text ++ List.replicate count (.empty .eof (Text.byteLength text.toList)) := by
  obtain ⟨front, eq, laid, unended⟩ := tokenize_eq_append text
  refine ⟨Lexer.covers_tokens (.ofText text.toList), ?_, ⟨front, eq, unended⟩, ?_,
    (TokenStream.Yields.lexer (.refl _) []).nextTokens⟩
  · intro t mem
    rw [eq] at mem
    rcases List.mem_append.1 mem with mem | mem
    · exact laid.mem mem
    · rw [List.mem_singleton.1 mem]
      exact ⟨Text.boundary_byteLength _, Text.boundary_byteLength _⟩
  · exact fun t mem => texts_tokenize mem

end SureCode
