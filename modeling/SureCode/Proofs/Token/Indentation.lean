import Mathlib
import SureCode.Proofs.Token.Trivia

/-!
# Open blocks

The open blocks of a lexer are a stack of widths. `Lexer.lineOpening` says what a line of some width
does to a stack: a wider line opens a block, any other closes the blocks that are wider than it, and
a line whose width is that of no block is flagged. The width of a line is that of its margin, behind
blank lines and comments (`lineStart_blankLines`). A lexer does just that (`beginLine_eq`), so its
stacks ascend from zero, and in the tokens of a text every block that opens is closed
(`tokenize_indentation`).
-/

namespace SureCode

open Cursor

/-! ### Margins -/

/-- The characters that a line is indented by. -/
def isMargin (ch : Char) : Bool := ch == ' ' || ch == '\t' || ch == '\x0c'

/-- The width of a margin with one character more: a blank is one column, a tabulator goes on to the
next tab stop, and a form feed goes back to the first column. -/
def widen (width : Nat) (ch : Char) : Nat :=
  if ch = '\t' then (width / tabWidth + 1) * tabWidth else if ch = '\x0c' then 0 else width + 1

/-- The width of a margin. -/
def marginWidth (margin : List Char) : Nat := margin.foldl widen 0

/-- Tab stops stand in the same columns on both sides of where widths wrap around. -/
theorem ofNat_widen_tab (width : Nat) :
    UInt32.ofNat (widen width '\t') = (.ofNat width / .ofNat tabWidth + 1) * .ofNat tabWidth := by
  apply UInt32.toNat_inj.1
  have stop : (UInt32.ofNat tabWidth).toNat = 8 := rfl
  simp only [widen, if_true, UInt32.toNat_ofNat', UInt32.toNat_mul, UInt32.toNat_add,
    UInt32.toNat_div, UInt32.toNat_one, stop]
  rw [tabWidth]
  omega

/-- The characters that the contents of a line may begin with. -/
def isContents (ch : Char) : Bool := !(isMargin ch || isBreak ch || ch == '#')

/-- Lines without contents: each has only a margin, and perhaps a comment up to its end. -/
inductive BlankLines : List Char → Prop where
  | nil : BlankLines []
  | empty {margin rest : List Char} {ch : Char} (margins : ∀ c ∈ margin, isMargin c = true)
      (breaks : isBreak ch = true) (lines : BlankLines rest) : BlankLines (margin ++ ch :: rest)
  | comment {margin text rest : List Char} {ch : Char} (margins : ∀ c ∈ margin, isMargin c = true)
      (inside : ∀ c ∈ text, isBreak c = false) (breaks : isBreak ch = true)
      (lines : BlankLines rest) : BlankLines (margin ++ '#' :: (text ++ ch :: rest))

/-- A text begins with blank lines. Behind them and a margin come the contents of a line, or the text
ends there or with a comment. -/
theorem exists_line (cs : List Char) :
    ∃ lines margin rest, cs = lines ++ (margin ++ rest) ∧ BlankLines lines ∧
      (∀ ch ∈ margin, isMargin ch = true) ∧
        (rest.head?.any isContents = true ∨ rest = [] ∨
          ∃ text, rest = '#' :: text ∧ ∀ ch ∈ text, isBreak ch = false) := by
  induction n : cs.length using Nat.strong_induction_on generalizing cs with
  | _ n ih =>
    have margins : ∀ ch ∈ cs.takeWhile isMargin, isMargin ch = true := fun _ mem =>
      List.mem_takeWhile_imp mem
    have split : cs = cs.takeWhile isMargin ++ cs.dropWhile isMargin :=
      List.takeWhile_append_dropWhile.symm
    generalize cs.takeWhile isMargin = margin at margins split
    cases behind : cs.dropWhile isMargin with
    | nil => exact ⟨[], margin, [], by simpa [behind] using split, .nil, margins, .inr (.inl rfl)⟩
    | cons first tail =>
      have outside : isMargin first = false := by
        simpa [behind] using List.head?_dropWhile_not isMargin cs
      rw [behind] at split
      by_cases breaks : isBreak first = true
      · obtain ⟨lines, margin', rest, eq, blank, last⟩ :=
          ih tail.length (by rw [← n, split]; simp; omega) tail rfl
        exact ⟨margin ++ first :: lines, margin', rest, by simp [split, eq],
          .empty margins breaks blank, last⟩
      by_cases hash : first = '#'
      · subst hash
        have inside : ∀ ch ∈ tail.takeWhile (!isBreak ·), isBreak ch = false := fun _ mem => by
          simpa using List.mem_takeWhile_imp mem
        have comment : tail = tail.takeWhile (!isBreak ·) ++ tail.dropWhile (!isBreak ·) :=
          List.takeWhile_append_dropWhile.symm
        generalize tail.takeWhile (!isBreak ·) = text at inside comment
        cases after : tail.dropWhile (!isBreak ·) with
        | nil =>
          rw [after, List.append_nil] at comment
          exact ⟨[], margin, _, split, .nil, margins, .inr (.inr ⟨tail, rfl, comment ▸ inside⟩)⟩
        | cons ch more =>
          have ends : isBreak ch = true := by
            simpa [after] using List.head?_dropWhile_not (!isBreak ·) tail
          rw [after] at comment
          obtain ⟨lines, margin', rest, eq, blank, last⟩ :=
            ih more.length (by rw [← n, split, comment]; simp; omega) more rfl
          exact ⟨margin ++ '#' :: (text ++ ch :: lines), margin', rest, by simp [split, comment, eq],
            .comment margins inside ends blank, last⟩
      · exact ⟨[], margin, _, split, .nil, margins, .inl (by simp [isContents, outside, breaks, hash])⟩

namespace Cursor

variable {width : UInt32} {columns offset : Nat} {margin text cs : List Char} {ch : Char}

/-- The characters of a margin are counted, with the columns before it. -/
theorem lineStart_columns (margins : ∀ c ∈ margin, isMargin c = true) :
    lineStart false (.ofNat columns) offset (margin ++ cs)
      = lineStart false (.ofNat (margin.foldl widen columns)) (offset + Text.byteLength margin)
          cs := by
  induction margin generalizing columns offset with
  | nil => rfl
  | cons c margin ih =>
    rw [List.forall_mem_cons] at margins
    rw [List.cons_append, List.foldl_cons, Text.byteLength_cons, ← Nat.add_assoc, ← ih margins.2]
    have cases_ : c = ' ' ∨ c = '\t' ∨ c = '\x0c' := by
      simpa [isMargin, or_assoc] using margins.1
    rcases cases_ with rfl | rfl | rfl
    · simp [lineStart, isBreak, widen, UInt32.ofNat_add]
    · rw [ofNat_widen_tab]
      simp [lineStart, isBreak]
    · simp [lineStart, isBreak, widen]

/-- The characters of a margin are counted. -/
theorem lineStart_margin (margins : ∀ c ∈ margin, isMargin c = true) :
    lineStart false 0 offset (margin ++ cs)
      = lineStart false (.ofNat (marginWidth margin)) (offset + Text.byteLength margin) cs :=
  @lineStart_columns 0 offset margin cs margins

/-- A comment is passed over to its end. -/
theorem lineStart_comment (inside : ∀ c ∈ text, isBreak c = false) (breaks : isBreak ch = true) :
    lineStart true width offset (text ++ ch :: cs)
      = lineStart false 0 (offset + Text.byteLength (text ++ [ch])) cs := by
  induction text generalizing width offset with
  | nil => simp [lineStart, breaks]
  | cons c text ih =>
    rw [List.forall_mem_cons] at inside
    rw [List.cons_append, lineStart, if_neg (by simp [inside.1]), if_pos rfl, ih inside.2,
      List.cons_append, Text.byteLength_cons, Nat.add_assoc]

/-- Lines without contents are passed over. -/
theorem lineStart_blankLines {lines : List Char} (blank : BlankLines lines) :
    lineStart false 0 offset (lines ++ cs)
      = lineStart false 0 (offset + Text.byteLength lines) cs := by
  induction blank generalizing offset with
  | nil => rfl
  | empty margins breaks _ ih =>
    rw [List.append_assoc, lineStart_margin margins, List.cons_append, lineStart, if_pos breaks, ih,
      Text.byteLength_append, Text.byteLength_cons]
    simp only [Nat.add_assoc]
  | comment margins inside breaks _ ih =>
    have hash : isBreak '#' = false := by decide
    rw [List.append_assoc, lineStart_margin margins, List.cons_append, lineStart,
      if_neg (by simp [hash])]
    simp only [Bool.false_eq_true, if_false, Char.reduceBEq, if_true, List.append_assoc,
      List.cons_append]
    rw [lineStart_comment inside breaks, ih]
    simp only [Text.byteLength_append, Text.byteLength_cons, Text.byteLength_nil, Nat.add_assoc,
      Nat.add_zero]

/-- The contents of a line begin behind its margin. -/
theorem lineStart_contents (contents : cs.head?.any isContents = true) :
    lineStart false width offset cs = (some width.toNat, ⟨offset, cs⟩) := by
  cases cs with
  | nil => cases contents
  | cons c cs =>
    have plain : isBreak c = false ∧ c ≠ ' ' ∧ c ≠ '\t' ∧ c ≠ '\x0c' ∧ c ≠ '#' := by
      simpa [isContents, isMargin, and_assoc, not_or, and_comm, and_left_comm] using contents
    obtain ⟨breaks, blank, tab, feed, hash⟩ := plain
    simp [lineStart, breaks, blank, tab, feed, hash]

/-- Without contents there is no line. -/
theorem lineStart_end (ends : cs = [] ∨ ∃ text, cs = '#' :: text ∧ ∀ c ∈ text, isBreak c = false) :
    ∃ last, lineStart false width offset cs = (none, ⟨last, []⟩) := by
  have comment {text : List Char} {width : UInt32} {offset : Nat}
      (inside : ∀ c ∈ text, isBreak c = false) :
      ∃ last, lineStart true width offset text = (none, ⟨last, []⟩) := by
    induction text generalizing width offset with
    | nil => exact ⟨offset, rfl⟩
    | cons c text ih =>
      rw [List.forall_mem_cons] at inside
      rw [lineStart, if_neg (by simp [inside.1]), if_pos rfl]
      exact ih inside.2
  rcases ends with rfl | ⟨text, rfl, inside⟩
  · exact ⟨offset, rfl⟩
  · exact comment inside

end Cursor

/-! ### Stacks -/

namespace Lexer

/-- The widths of the open blocks, outermost first, on top of the width zero. -/
def stack (l : Lexer) : List Nat := 0 :: l.levels.reverse

/-- The kinds of tokens that a line of some width begins with, and the widths that are open then. -/
def lineOpening (stack : List Nat) (width : Nat) : List Kind × List Nat :=
  if stack.getLastD 0 < width then ([.indent], stack ++ [width])
  else
    let remaining := stack.filter (· ≤ width)
    (List.replicate (stack.countP (width < ·)) .dedent
      ++ (if width ∈ remaining then [] else [.unknown]), remaining)

variable {source : List Char} {l next : Lexer} {levels : List Nat} {width : Nat}

/-- The levels that are wider than a line are the innermost ones. -/
theorem takeWhile_eq_filter (descending : levels.Pairwise (· > ·)) (width : Nat) :
    levels.takeWhile (width < ·) = levels.filter (width < ·) ∧
      levels.dropWhile (width < ·) = levels.filter (· ≤ width) := by
  induction levels with
  | nil => exact ⟨rfl, rfl⟩
  | cons level levels ih =>
    rw [List.pairwise_cons] at descending
    obtain ⟨closed, remaining⟩ := ih descending.2
    by_cases wider : width < level
    · simp [wider, closed, remaining]
    · have narrow : ∀ inner ∈ levels, inner ≤ width := fun inner mem => by
        have := descending.1 inner mem
        omega
      have all : levels.filter (· ≤ width) = levels := by simpa using narrow
      simpa [wider, not_lt.1 wider, all] using narrow

/-- The widths of the open blocks ascend from zero. -/
theorem Sound.pairwise_stack (sound : l.Sound source) : l.stack.Pairwise (· < ·) := by
  have ascending := sound.ascending
  rw [← List.pairwise_reverse, stack, List.reverse_cons, List.reverse_reverse]
  exact ascending

theorem getLastD_stack (levels : List Nat) : (0 :: levels.reverse).getLastD 0 = levels.headD 0 := by
  cases levels with
  | nil => rfl
  | cons level levels => rw [List.reverse_cons, ← List.cons_append, List.getLastD_concat]; rfl

/-- A width is that of no open block when the innermost block that is not wider has another. -/
theorem mem_stack_iff (ascending : (levels ++ [0]).Pairwise (· > ·)) (width : Nat) :
    width ∈ 0 :: levels.reverse ↔ (levels.dropWhile (width < ·)).headD 0 = width := by
  have mem_iff : width ∈ 0 :: levels.reverse ↔ width ∈ levels ++ [0] := by simp [or_comm]
  rw [mem_iff]
  refine ⟨fun mem => ?_, fun innermost => ?_⟩
  · by_contra differs
    exact not_mem_of_headD_dropWhile ascending differs mem
  · cases remaining : levels.dropWhile (width < ·) with
    | nil =>
      rw [remaining] at innermost
      simp [← innermost]
    | cons level inner =>
      rw [remaining, List.headD_cons] at innermost
      have mem : level ∈ levels := (List.dropWhile_sublist _).mem (remaining ▸ List.mem_cons_self)
      rw [← innermost]
      exact List.mem_append_left _ mem

/-- The tokens that a line begins with, and the levels that are open then. -/
theorem indentation_eq (ascending : (levels ++ [0]).Pairwise (· > ·)) (width offset : Nat) :
    ((indentation levels width offset).1.map (·.kind),
        0 :: (indentation levels width offset).2.reverse)
      = lineOpening (0 :: levels.reverse) width := by
  rw [indentation, lineOpening, getLastD_stack]
  split
  case isTrue => simp [Token.empty]
  case isFalse =>
    obtain ⟨closed, remaining⟩ := takeWhile_eq_filter (List.pairwise_append.1 ascending).1 width
    have fits := mem_stack_iff ascending width
    rw [remaining] at fits
    have count : (0 :: levels.reverse).countP (width < ·) = (levels.filter (width < ·)).length := by
      simp [List.countP_eq_length_filter]
    have open_ : (0 :: levels.reverse).filter (· ≤ width)
        = 0 :: (levels.filter (· ≤ width)).reverse := by
      simp
    have mem : width ∈ 0 :: (levels.filter (· ≤ width)).reverse ↔ width ∈ 0 :: levels.reverse := by
      simp
    simp only [closed, remaining, count, open_, mem, fits, List.map_append, List.map_map,
      beq_iff_eq]
    split <;> simp [Token.empty, Function.comp_def]

/-- A lexer stands before a line with contents: behind blank lines and a margin come the contents. -/
structure Faces (l : Lexer) (lines margin contents : List Char) : Prop where
  begins : l.atLineStart = true
  rest : l.cursor.rest = lines ++ (margin ++ contents)
  blank : BlankLines lines
  margins : ∀ ch ∈ margin, isMargin ch = true
  first : contents.head?.any isContents = true

theorem Sound.begins_eq_true (sound : l.Sound source) (begins : l.atLineStart = true) :
    (l.atLineStart && l.depth == 0) = true := by
  rw [begins, sound.outside begins]
  rfl

/-- Before the contents of a line a lexer yields the tokens that the line begins with, and goes on
behind the margin. -/
theorem Faces.beginLine {lines margin contents : List Char} (faces : l.Faces lines margin contents)
    (sound : l.Sound source) :
    l.beginLine.2.cursor
        = ⟨l.cursor.offset + Text.byteLength (lines ++ margin), contents⟩ ∧
      l.beginLine.2.atLineStart = false ∧
      (l.beginLine.1.map (·.kind), l.beginLine.2.stack)
        = lineOpening l.stack (marginWidth margin % UInt32.size) := by
  have start : lineStart false 0 l.cursor.offset l.cursor.rest
      = (some (marginWidth margin % UInt32.size),
        ⟨l.cursor.offset + Text.byteLength (lines ++ margin), contents⟩) := by
    rw [faces.rest, lineStart_blankLines faces.blank, lineStart_margin faces.margins,
      lineStart_contents faces.first, UInt32.toNat_ofNat', Text.byteLength_append, Nat.add_assoc]
  have opening := indentation_eq sound.ascending (marginWidth margin % UInt32.size)
    (l.cursor.offset + Text.byteLength (lines ++ margin))
  rw [Lexer.beginLine, if_pos (sound.begins_eq_true faces.begins), start]
  exact ⟨rfl, rfl, opening⟩

/-- Where a line may begin, one does, or the text ends without further tokens at the beginning of a
line. -/
theorem Sound.exists_faces (sound : l.Sound source) (begins : l.atLineStart = true) :
    (∃ lines margin contents, l.Faces lines margin contents) ∨
      l.beginLine.1 = [] ∧ l.beginLine.2.cursor.rest = [] := by
  obtain ⟨lines, margin, rest, split, blank, margins, contents | none⟩ := exists_line l.cursor.rest
  · exact .inl ⟨lines, margin, rest, begins, split, blank, margins, contents⟩
  · right
    obtain ⟨last, ended⟩ := @lineStart_end (.ofNat (marginWidth margin))
      (l.cursor.offset + Text.byteLength lines + Text.byteLength margin) rest none
    have start : lineStart false 0 l.cursor.offset l.cursor.rest = (Option.none, ⟨last, []⟩) := by
      rw [split, lineStart_blankLines blank, lineStart_margin margins]
      exact ended
    rw [Lexer.beginLine, if_pos (sound.begins_eq_true begins), start]
    exact ⟨rfl, rfl⟩

/-- The tokens of a line that has begun follow those that it begins with. -/
theorem tokens_eq_beginLine (sound : l.Sound source) :
    l.tokens = l.beginLine.1 ++ l.beginLine.2.tokens := by
  have started : l.beginLine.2.beginLine = ([], l.beginLine.2) := by
    rw [beginLine, sound.beginLine.2]
    rfl
  have again : l.beginLine.2.step = l.beginLine.2.lexeme := by
    rw [step, started]
    rfl
  have step_eq := l.step_eq
  cases found : l.beginLine.2.lexeme with
  | mk ts more =>
    rw [found] at again step_eq
    cases more with
    | none => rw [tokens_of_step_none step_eq, tokens_of_step_none again]
    | some next =>
      rw [tokens_of_step_some step_eq, tokens_of_step_some again, List.append_assoc]

/-- The tokens that a lexer still reads are the last ones of its text. -/
theorem Reached.exists_tokens (reached : Reached source l) :
    ∃ front, (ofText source).tokens = front ++ l.tokens := by
  induction reached with
  | start => exact ⟨[], rfl⟩
  | step _ found ih =>
    obtain ⟨front, eq⟩ := ih
    exact ⟨front ++ _, by rw [eq, tokens_of_step_some found, List.append_assoc]⟩

end Lexer

/-! ### Openings and closings -/

/-- How many of some tokens are of a kind. -/
def countKind (kind : Kind) (ts : List Token) : Nat := ts.countP (·.kind == kind)

/-- Some tokens lead from one number of open blocks to another, and none of them closes a block where
none is open. -/
structure Balances (open_ : Nat) (ts : List Token) (left : Nat) : Prop where
  closes : ∀ front, front <+: ts → countKind .dedent front ≤ open_ + countKind .indent front
  leaves : open_ + countKind .indent ts = left + countKind .dedent ts

namespace Balances

variable {open_ middle left : Nat} {ts us : List Token}

theorem append (first : Balances open_ ts middle) (second : Balances middle us left) :
    Balances open_ (ts ++ us) left := by
  have split (kind : Kind) (ts us : List Token) :
      countKind kind (ts ++ us) = countKind kind ts + countKind kind us := List.countP_append
  have moved := first.leaves
  refine ⟨fun front within => ?_, ?_⟩
  · obtain ⟨back, eq⟩ := within
    rcases List.append_eq_append_iff.1 eq with ⟨rest, rfl, -⟩ | ⟨more, rfl, rfl⟩
    · exact first.closes front (List.prefix_append front rest)
    · have := second.closes more (List.prefix_append more back)
      rw [split, split]
      omega
  · have := second.leaves
    rw [split, split]
    omega

/-- Tokens that neither open nor close a block. -/
theorem of_other (other : ∀ t ∈ ts, t.kind ≠ .indent ∧ t.kind ≠ .dedent) :
    Balances open_ ts open_ := by
  have none (front : List Token) (sub : ∀ t ∈ front, t ∈ ts) :
      countKind .indent front = 0 ∧ countKind .dedent front = 0 := by
    constructor
    all_goals
      refine List.countP_eq_zero.2 fun t mem => ?_
      have := other t (sub t mem)
      simp [this]
  refine ⟨fun front within => ?_, ?_⟩
  · rw [(none front fun t mem => within.mem mem).2]
    exact Nat.zero_le _
  · rw [(none ts fun _ mem => mem).1, (none ts fun _ mem => mem).2]

/-- A token that opens a block. -/
theorem indent (offset : Nat) : Balances open_ [.empty .indent offset] (open_ + 1) := by
  refine ⟨fun front within => ?_, rfl⟩
  rcases List.prefix_cons_iff.1 within with rfl | ⟨more, rfl, inside⟩
  · exact Nat.zero_le _
  · rw [List.prefix_nil.1 inside]
    exact Nat.zero_le _

/-- Tokens that close blocks, as many as are open. -/
theorem dedents {levels : List Nat} (offset : Nat) :
    Balances (left + levels.length) (levels.map fun _ => .empty .dedent offset) left := by
  have count (n : Nat) : countKind .indent (List.replicate n (.empty .dedent offset)) = 0 ∧
      countKind .dedent (List.replicate n (.empty .dedent offset)) = n := by
    simp [countKind, List.countP_replicate, Token.empty]
  rw [List.map_const']
  refine ⟨fun front within => ?_, ?_⟩
  · obtain ⟨le, eq⟩ := List.prefix_replicate_iff.1 within
    rw [eq, (count _).1, (count _).2]
    omega
  · rw [(count _).1, (count _).2]
    rfl

end Balances

namespace Lexer

variable {l next : Lexer} {ts : List Token} {levels : List Nat}

/-- The tokens that a line begins with open or close as many blocks as the levels say. -/
theorem balances_indentation (levels : List Nat) (width offset : Nat) :
    Balances levels.length (indentation levels width offset).1
      (indentation levels width offset).2.length := by
  unfold indentation
  dsimp only
  split
  case isTrue => exact .indent offset
  case isFalse =>
    have flagged (left : Nat) :
        Balances left (if (levels.dropWhile (width < ·)).headD 0 == width then []
          else [.empty .unknown offset]) left := by
      refine .of_other fun t mem => ?_
      split at mem
      · cases mem
      · rw [List.mem_singleton.1 mem]
        exact ⟨nofun, nofun⟩
    have length_eq : levels.length
        = (levels.dropWhile (width < ·)).length + (levels.takeWhile (width < ·)).length := by
      rw [Nat.add_comm, ← List.length_append, List.takeWhile_append_dropWhile]
    rw [length_eq]
    exact (Balances.dedents offset).append (flagged _)

theorem balances_beginLine (l : Lexer) :
    Balances l.levels.length l.beginLine.1 l.beginLine.2.levels.length := by
  unfold beginLine
  split
  · split
    · exact .of_other nofun
    · exact balances_indentation _ _ _
  · exact .of_other nofun

/-- At the end of a text every open block is closed. -/
theorem balances_closing (last : Option Kind) (levels : List Nat) (offset : Nat) :
    Balances levels.length (closing last levels offset) 0 := by
  have unfinished : Balances levels.length
      (if last.any fun kind => !(kind == .newline || kind == .indent || kind == .dedent)
        then [.empty .newline offset] else []) levels.length := by
    refine .of_other fun t mem => ?_
    split at mem
    · rw [List.mem_singleton.1 mem]
      exact ⟨nofun, nofun⟩
    · cases mem
  have blocks : Balances (0 + levels.length) (levels.map fun _ => .empty .dedent offset) 0 :=
    .dedents offset
  rw [Nat.zero_add] at blocks
  refine (unfinished.append blocks).append (.of_other fun t mem => ?_)
  rw [List.mem_singleton.1 mem]
  exact ⟨nofun, nofun⟩

/-- A lexeme neither opens nor closes a block; the end of the text closes all. -/
theorem Reads.balances {more : Option Lexer} (reads : l.Reads (ts, more)) :
    Balances l.levels.length ts ((more.map (·.levels.length)).getD 0) := by
  cases reads with
  | ends => exact balances_closing _ _ _
  | breaks =>
    refine .of_other fun t mem => ?_
    rw [List.mem_singleton.1 mem]
    exact ⟨nofun, nofun⟩
  | scans _ _ _ lexeme =>
    refine .of_other fun t mem => ?_
    rw [List.mem_singleton.1 mem]
    constructor
    all_goals
      rintro rfl
      cases lexeme

/-- Every block that is open or opens is closed. -/
theorem balances_tokens (l : Lexer) : Balances l.levels.length l.tokens 0 := by
  induction l using Lexer.tokens.induct with
  | case1 l ts found =>
    obtain ⟨tokens, rfl, reads⟩ := exists_reads_of_step found
    rw [tokens_of_step_none found]
    exact l.balances_beginLine.append reads.balances
  | case2 l ts next found ih =>
    obtain ⟨tokens, rfl, reads⟩ := exists_reads_of_step found
    rw [tokens_of_step_some found]
    exact (l.balances_beginLine.append reads.balances).append ih

end Lexer

/-- Blocks of a text nest. In every lexer of the text, before a line and behind its margin, the
widths of the open blocks ascend from zero. No token closes a block before it opens, and every block
is closed. A line can begin only outside brackets. Behind blank lines and its margin it begins with
the tokens that its width asks for, all of them empty: one that opens a block if the line is wider
than the innermost one, else one that closes a block for each that is wider, and one that flags the
line if it has the width of none of those that remain. Where no line is left there are no such
tokens. A width is a 32-bit number, so it is that of the margin up to multiples of `2 ^ 32`. -/
theorem tokenize_indentation (text : String) :
    (∀ l, Lexer.Reached text.toList l →
      (l.stack.head? = some 0 ∧ l.stack.Pairwise (· < ·)) ∧
        l.beginLine.2.stack.head? = some 0 ∧ l.beginLine.2.stack.Pairwise (· < ·)) ∧
    (∀ front, front <+: tokenize text → countKind .dedent front ≤ countKind .indent front) ∧
    countKind .indent (tokenize text) = countKind .dedent (tokenize text) ∧
    ∀ l, Lexer.Reached text.toList l → l.atLineStart = true →
      l.depth = 0 ∧
      (∃ front, tokenize text = front ++ (l.beginLine.1 ++ l.beginLine.2.tokens)) ∧
      ((∃ lines margin contents, l.Faces lines margin contents) ∨
        l.beginLine.1 = [] ∧ l.beginLine.2.cursor.rest = []) ∧
      ∀ lines margin contents, l.Faces lines margin contents →
        (l.beginLine.2.cursor = ⟨l.cursor.offset + Text.byteLength (lines ++ margin), contents⟩ ∧
          l.beginLine.2.atLineStart = false) ∧
        (l.beginLine.1.map (·.kind), l.beginLine.2.stack)
          = Lexer.lineOpening l.stack (marginWidth margin % UInt32.size) ∧
        ∀ t ∈ l.beginLine.1,
          t.span = .empty (l.cursor.offset + Text.byteLength (lines ++ margin)) := by
  have balanced : Balances 0 (tokenize text) 0 := Lexer.balances_tokens (.ofText text.toList)
  refine ⟨fun l reached => ?_, fun front within => ?_, ?_, fun l reached begins => ?_⟩
  · exact ⟨⟨rfl, reached.sound.pairwise_stack⟩, rfl, reached.sound.beginLine.1.pairwise_stack⟩
  · simpa using balanced.closes front within
  · simpa using balanced.leaves
  · obtain ⟨front, tokens_eq⟩ := reached.exists_tokens
    rw [Lexer.tokens_eq_beginLine reached.sound] at tokens_eq
    refine ⟨reached.sound.outside begins, ⟨front, tokens_eq⟩, reached.sound.exists_faces begins,
      fun lines margin contents faces => ?_⟩
    obtain ⟨cursor, started, opening⟩ := faces.beginLine reached.sound
    refine ⟨⟨cursor, started⟩, opening, fun t mem => ?_⟩
    rw [l.beginLine_skips.2 t mem, cursor]

/-- A text whose last line, behind a comment, is narrower than the block before it and wider than
what is around the block. -/
def looseEnd : String := "~\n  ~\n#\n ~"

/-- The lexer behind the block of `looseEnd`. -/
def beforeLooseEnd : Lexer := ⟨⟨6, "#\n ~".toList⟩, [2], 0, true, some .newline⟩

theorem reached_beforeLooseEnd : Lexer.Reached looseEnd.toList beforeLooseEnd := by
  have first : (Lexer.ofText looseEnd.toList).step
      = ([⟨.tilde, 0, 1, by decide⟩],
        some ⟨⟨1, "\n  ~\n#\n ~".toList⟩, [], 0, false, some .tilde⟩) := by
    decide +kernel
  have second : (⟨⟨1, "\n  ~\n#\n ~".toList⟩, [], 0, false, some .tilde⟩ : Lexer).step
      = ([⟨.newline, 1, 2, by decide⟩],
        some ⟨⟨2, "  ~\n#\n ~".toList⟩, [], 0, true, some .newline⟩) := by
    decide +kernel
  have third : (⟨⟨2, "  ~\n#\n ~".toList⟩, [], 0, true, some .newline⟩ : Lexer).step
      = ([.empty .indent 4, ⟨.tilde, 4, 5, by decide⟩],
        some ⟨⟨5, "\n#\n ~".toList⟩, [2], 0, false, some .tilde⟩) := by
    decide +kernel
  have fourth : (⟨⟨5, "\n#\n ~".toList⟩, [2], 0, false, some .tilde⟩ : Lexer).step
      = ([⟨.newline, 5, 6, by decide⟩], some beforeLooseEnd) := by
    decide +kernel
  exact .step (.step (.step (.step .start first) second) third) fourth

/-- The last line closes the block and is flagged. -/
theorem tokenize_indentation_looseEnd :
    Lexer.Reached looseEnd.toList beforeLooseEnd ∧ beforeLooseEnd.atLineStart = true ∧
      beforeLooseEnd.Faces ['#', '\n'] [' '] ['~'] ∧
      (beforeLooseEnd.beginLine.1.map (·.kind), beforeLooseEnd.beginLine.2.stack)
        = ([.dedent, .unknown], [0]) := by
  have comment : BlankLines ['#', '\n'] := @BlankLines.comment [] [] [] '\n' nofun nofun rfl .nil
  have faces : beforeLooseEnd.Faces ['#', '\n'] [' '] ['~'] :=
    ⟨rfl, by decide, comment, by simp [isMargin], by decide⟩
  have reached := reached_beforeLooseEnd
  obtain ⟨-, -, -, lines⟩ := tokenize_indentation looseEnd
  obtain ⟨-, -, -, opening⟩ := lines beforeLooseEnd reached rfl
  have line := (opening ['#', '\n'] [' '] ['~'] faces).2.1
  refine ⟨reached, rfl, faces, ?_⟩
  rw [line]
  decide

end SureCode
