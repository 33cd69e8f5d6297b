import Mathlib
import SureCode.Proofs.Token.Coverage

/-!
# Spelling

A word spells a kind when it lexes to a token of that kind wherever a blank, a colon or the end of
the line comes after it (`Spells`). Names, integer literals, keywords and marks do. The tokens of a
line of such words are the words in their places (`tokens_line`).
-/

namespace SureCode

open Cursor Lexeme

/-- The characters that may come after a word here. -/
def endsWord (ch : Char) : Bool := ch == ' ' || ch == ':' || ch == '\n'

/-- Nothing comes after a word, or a character that ends it. -/
def WordEnd (rest : List Char) : Prop := ∀ ch ∈ rest.head?, endsWord ch = true

/-- The characters that are neither blank nor the beginning of a comment or of a continued line. -/
def isSolid (ch : Char) : Bool :=
  !(isBreak ch || ch == ' ' || ch == '\t' || ch == '\x0c' || ch == '#' || ch == '\\')

/-- A word is read as a token of a kind. -/
structure Spells (word : List Char) (kind : Kind) : Prop where
  solid : ∃ first rest, word = first :: rest ∧ isSolid first = true
  scan : ∀ {offset : Nat} {rest : List Char}, WordEnd rest →
    Lexeme.scan ⟨offset, word ++ rest⟩ = (kind, ⟨offset + Text.byteLength word, rest⟩)

/-! ### Characters -/

theorem le_of_startsWord {ch : Char} (starts : startsWord ch = true) : 0x41 ≤ ch.toNat := by
  by_contra below
  have letter : Text.isLetter ch = false := Text.CodeRanges.contains_of_lt (by omega)
  have differs : ch ≠ '_' := by
    rintro rfl
    exact below (by decide)
  simp [startsWord, letter, differs] at starts

theorem isSolid_of_startsWord {ch : Char} (starts : startsWord ch = true) : isSolid ch = true := by
  have le := le_of_startsWord starts
  have differs (other : Char) (small : other.toNat < 0x41) : ch ≠ other := by
    rintro rfl
    omega
  have backslash : ch ≠ '\\' := by
    rintro rfl
    exact absurd starts (by decide)
  simp [isSolid, isBreak, differs '\n' (by decide), differs '\r' (by decide),
    differs ' ' (by decide), differs '\t' (by decide), differs '\x0c' (by decide),
    differs '#' (by decide), backslash]

theorem isDigit_of_startsWord {ch : Char} (starts : startsWord ch = true) : ch.isDigit = false := by
  have le := le_of_startsWord starts
  have above : ¬ ch.val ≤ 57 := fun small => by
    have : ch.toNat ≤ 57 := small
    omega
  simp [Char.isDigit, above]

/-- A character of a class without quotes is none. -/
theorem isQuote_eq_false {p : Char → Bool} {ch : Char} (holds : p ch = true)
    (single : p '\'' = false) (double : p '"' = false) : isQuote ch = false := by
  by_contra quote
  rw [Bool.not_eq_false, isQuote, Bool.or_eq_true, beq_iff_eq, beq_iff_eq] at quote
  rcases quote with rfl | rfl
  · exact Bool.false_ne_true (single.symm.trans holds)
  · exact Bool.false_ne_true (double.symm.trans holds)

theorem isQuote_of_continuesWord {ch : Char} (continues : continuesWord ch = true) :
    isQuote ch = false :=
  isQuote_eq_false continues (by decide) (by decide)

theorem endsWord_cases {ch : Char} (ends : endsWord ch = true) :
    ch = ' ' ∨ ch = ':' ∨ ch = '\n' := by
  simpa [endsWord, or_assoc] using ends

theorem continuesWord_of_endsWord {ch : Char} (ends : endsWord ch = true) :
    continuesWord ch = false := by
  rcases endsWord_cases ends with rfl | rfl | rfl <;> decide

theorem isQuote_of_endsWord {ch : Char} (ends : endsWord ch = true) : isQuote ch = false := by
  rcases endsWord_cases ends with rfl | rfl | rfl <;> decide

theorem continuesWord_of_startsWord {ch : Char} (starts : startsWord ch = true) :
    continuesWord ch = true := by
  rw [startsWord, Bool.or_eq_true] at starts
  rcases starts with letter | line <;> simp [continuesWord, *]

/-! ### Words of letters -/

theorem skipFrom_append {p : Char → Bool} {offset : Nat} {cs rest : List Char}
    (all : ∀ ch ∈ cs, p ch = true) (stops : ∀ ch ∈ rest.head?, p ch = false) :
    skipFrom p offset (cs ++ rest) = ⟨offset + Text.byteLength cs, rest⟩ := by
  induction cs generalizing offset with
  | nil =>
    cases rest with
    | nil => rfl
    | cons ch rest => simp [skipFrom, stops ch rfl]
  | cons ch cs ih =>
    rw [List.forall_mem_cons] at all
    rw [List.cons_append, skipFrom, if_pos all.1, ih all.2, Text.byteLength_cons, Nat.add_assoc]

theorem takeWhile_append {p : Char → Bool} {cs rest : List Char} (all : ∀ ch ∈ cs, p ch = true)
    (stops : ∀ ch ∈ rest.head?, p ch = false) : (cs ++ rest).takeWhile p = cs := by
  rw [List.takeWhile_append_of_pos all]
  cases rest with
  | nil => simp
  | cons ch rest => simp [stops ch rfl]

theorem isStringLetter_of_endsWord {ch : Char} (ends : endsWord ch = true) :
    isStringLetter ch = false := by
  rcases endsWord_cases ends with rfl | rfl | rfl <;> decide

/-- No string literal begins with characters that are no quotes. -/
theorem startsString_eq_false {offset : Nat} {cs rest : List Char} (nonempty : cs ≠ [])
    (plain : ∀ ch ∈ cs, isQuote ch = false) (ends : WordEnd rest) :
    startsString ⟨offset, cs ++ rest⟩ = false := by
  have quote : rest.head?.any isQuote = false := by
    cases rest with
    | nil => rfl
    | cons ch rest => exact isQuote_of_endsWord (ends ch rfl)
  have letter : rest.head?.any isStringLetter = false := by
    cases rest with
    | nil => rfl
    | cons ch rest => exact isStringLetter_of_endsWord (ends ch rfl)
  match cs with
  | [] => exact absurd rfl nonempty
  | [a] =>
    have second : (a :: rest)[1]? = rest.head? := by cases rest <;> rfl
    simp_all [startsString, peek, Cursor.second]
  | [a, b] =>
    have third : (a :: b :: rest)[2]? = rest.head? := by cases rest <;> rfl
    simp_all [startsString, peek, Cursor.second, Cursor.third]
  | a :: b :: d :: cs => simp_all [startsString, peek, Cursor.second, Cursor.third]

/-- A word is read up to its end, as a keyword or as a name. -/
theorem scan_word {first : Char} {cs rest : List Char} {offset : Nat}
    (starts : startsWord first = true) (continues : ∀ ch ∈ cs, continuesWord ch = true)
    (ends : WordEnd rest) :
    scan ⟨offset, first :: cs ++ rest⟩
      = ((Kind.ofKeyword? (String.ofList (first :: cs))).getD .name,
        ⟨offset + Text.byteLength (first :: cs), rest⟩) := by
  have stops : ∀ ch ∈ rest.head?, continuesWord ch = false := fun ch head =>
    continuesWord_of_endsWord (ends ch head)
  have plain : ∀ ch ∈ first :: cs, isQuote ch = false :=
    List.forall_mem_cons.2 ⟨isQuote_of_continuesWord (continuesWord_of_startsWord starts),
      fun ch mem => isQuote_of_continuesWord (continues ch mem)⟩
  have dot : first ≠ '.' := by
    rintro rfl
    exact absurd starts (by decide)
  rw [scan, startsString_eq_false (by simp) plain ends]
  simp only [peek, List.cons_append, List.head?_cons, Bool.false_eq_true, if_false,
    isDigit_of_startsWord starts, beq_iff_eq, dot, starts, if_true, advance,
    Bool.and_eq_true, false_and]
  rw [word, takeWhile_append continues stops, skipWhile, skipFrom_append continues stops,
    Text.byteLength_cons, Nat.add_assoc]

/-- A word with letters for all its characters spells a keyword or a name. -/
theorem spells_word {first : Char} {cs : List Char} {kind : Kind}
    (starts : startsWord first = true) (continues : ∀ ch ∈ cs, continuesWord ch = true)
    (known : (Kind.ofKeyword? (String.ofList (first :: cs))).getD .name = kind) :
    Spells (first :: cs) kind where
  solid := ⟨first, cs, rfl, isSolid_of_startsWord starts⟩
  scan ends := by rw [scan_word starts continues ends, known]

/-- Characters that are a keyword or a name. -/
def isWord (word : List Char) (kind : Kind) : Bool :=
  word.head?.any startsWord && word.tail.all continuesWord &&
    (Kind.ofKeyword? (String.ofList word)).getD .name == kind

theorem spells_of_isWord {word : List Char} {kind : Kind} (known : isWord word kind = true) :
    Spells word kind := by
  simp only [isWord, Bool.and_eq_true, beq_iff_eq] at known
  obtain ⟨⟨starts, continues⟩, keyword⟩ := known
  cases word with
  | nil => cases starts
  | cons first cs => exact spells_word starts (List.all_eq_true.1 continues) keyword

/-! ### Numbers -/

theorem isDigit_of_endsWord {ch : Char} (hex : Bool) (ends : endsWord ch = true) :
    Lexeme.isDigit hex ch = false := by
  rcases endsWord_cases ends with rfl | rfl | rfl <;> cases hex <;> decide

theorem isQuote_of_isDigit {ch : Char} {hex : Bool} (digit : Lexeme.isDigit hex ch = true) :
    isQuote ch = false :=
  isQuote_eq_false digit (by cases hex <;> decide) (by cases hex <;> decide)

theorem isDigit_of_charDigit {ch : Char} (hex : Bool) (digit : ch.isDigit = true) :
    Lexeme.isDigit hex ch = true := by
  simp [Lexeme.isDigit, digit]

theorem isSolid_of_isDigit {ch : Char} (digit : ch.isDigit = true) : isSolid ch = true := by
  by_contra hollow
  rw [Bool.not_eq_true, isSolid, Bool.not_eq_false'] at hollow
  have cases_ : ch = '\n' ∨ ch = '\r' ∨ ch = ' ' ∨ ch = '\t' ∨ ch = '\x0c' ∨ ch = '#' ∨
      ch = '\\' := by
    simpa [isBreak, or_assoc] using hollow
  rcases cases_ with rfl | rfl | rfl | rfl | rfl | rfl | rfl <;> exact absurd digit (by decide)

/-- What follows the digits of a number, when nothing of the number does. -/
theorem number_end {offset : Nat} {rest : List Char} (ends : WordEnd rest) :
    (⟨offset, rest⟩ : Cursor).eat '.' = (false, ⟨offset, rest⟩) ∧
      exponent? ⟨offset, rest⟩ = none ∧ imaginary ⟨offset, rest⟩ = (false, ⟨offset, rest⟩) := by
  cases rest with
  | nil => exact ⟨rfl, rfl, rfl⟩
  | cons ch rest =>
    rcases endsWord_cases (ends ch rfl) with rfl | rfl | rfl <;> exact ⟨rfl, rfl, rfl⟩

/-- The letters that give a number another base than ten. -/
def isBase (ch : Char) : Bool := "xXoObB".toList.contains ch

theorem isBase_cases {ch : Char} (base : isBase ch = true) :
    ch = 'x' ∨ ch = 'X' ∨ ch = 'o' ∨ ch = 'O' ∨ ch = 'b' ∨ ch = 'B' := by
  have letters : "xXoObB".toList = ['x', 'X', 'o', 'O', 'b', 'B'] := by decide
  rw [isBase, letters, List.contains_iff_mem] at base
  simpa using base

theorem isBase_of_isDigit {ch : Char} (digit : Lexeme.isDigit false ch = true) :
    isBase ch = false := by
  by_contra base
  rcases isBase_cases (Bool.eq_true_of_not_eq_false base) with rfl | rfl | rfl | rfl | rfl | rfl <;>
    exact absurd digit (by decide)

theorem isBase_of_endsWord {ch : Char} (ends : endsWord ch = true) : isBase ch = false := by
  rcases endsWord_cases ends with rfl | rfl | rfl <;> decide

theorem digits_append {hex : Bool} {offset : Nat} {cs rest : List Char}
    (all : ∀ ch ∈ cs, Lexeme.isDigit hex ch = true) (ends : WordEnd rest) :
    digits hex ⟨offset, cs ++ rest⟩ = ⟨offset + Text.byteLength cs, rest⟩ :=
  skipFrom_append all fun ch head => isDigit_of_endsWord hex (ends ch head)

/-- A number begins with a digit. -/
theorem scan_digit {first : Char} {cs rest : List Char} {offset : Nat}
    (digit : first.isDigit = true) (plain : ∀ ch ∈ cs, isQuote ch = false) (ends : WordEnd rest) :
    scan ⟨offset, first :: cs ++ rest⟩ = number first ⟨offset + first.utf8Size, cs ++ rest⟩ := by
  have plain : ∀ ch ∈ first :: cs, isQuote ch = false :=
    List.forall_mem_cons.2 ⟨isQuote_of_isDigit (isDigit_of_charDigit false digit), plain⟩
  rw [scan, startsString_eq_false (by simp) plain ends]
  simp [peek, digit, advance]

/-- Digits, and perhaps underscores among them, spell an integer. -/
theorem spells_decimal {first : Char} {cs : List Char} (digit : first.isDigit = true)
    (all : ∀ ch ∈ cs, Lexeme.isDigit false ch = true) : Spells (first :: cs) .intNumber where
  solid := ⟨first, cs, rfl, isSolid_of_isDigit digit⟩
  scan {offset rest} ends := by
    have base : ((cs ++ rest).head?.any isBase) = false := by
      cases cs with
      | cons ch cs => exact isBase_of_isDigit (all ch List.mem_cons_self)
      | nil =>
        cases rest with
        | nil => rfl
        | cons ch rest => exact isBase_of_endsWord (ends ch rfl)
    have none : ¬ ((first == '0' && (cs ++ rest).head?.any isBase) = true) := by
      rw [base, Bool.and_false]
      exact Bool.false_ne_true
    obtain ⟨point, exponent, imaginary⟩ :=
      @number_end (offset + first.utf8Size + Text.byteLength cs) rest ends
    rw [scan_digit digit (fun ch mem => isQuote_of_isDigit (all ch mem)) ends, number]
    refine (if_neg none).trans ?_
    dsimp only
    rw [digits_append all ends, point, exponent, imaginary, Text.byteLength_cons, Nat.add_assoc]
    rfl

/-- Digits of another base than ten spell an integer. -/
theorem spells_based {base : Char} {cs : List Char} (letter : isBase base = true)
    (all : ∀ ch ∈ cs, Lexeme.isDigit (base == 'x' || base == 'X') ch = true) :
    Spells ('0' :: base :: cs) .intNumber where
  solid := ⟨'0', base :: cs, rfl, by decide⟩
  scan {offset rest} ends := by
    have plain : ∀ ch ∈ base :: cs, isQuote ch = false := by
      refine List.forall_mem_cons.2 ⟨?_, fun ch mem => isQuote_of_isDigit (all ch mem)⟩
      rcases isBase_cases letter with rfl | rfl | rfl | rfl | rfl | rfl <;> decide
    rw [scan_digit (by decide) plain ends, number]
    refine (if_pos (show isBase base = true from letter)).trans ?_
    simp only [peek, advance, List.cons_append, List.head?_cons, Option.any_some]
    rw [digits_append all ends, Text.byteLength_cons, Text.byteLength_cons, Nat.add_assoc,
      Nat.add_assoc]

/-! ### Marks -/

theorem isPrefixOf_append {cs text rest : List Char}
    (inside : cs.all (fun ch => !endsWord ch) = true)
    (ends : WordEnd rest) : cs.isPrefixOf (text ++ rest) = cs.isPrefixOf text := by
  induction text generalizing cs with
  | nil =>
    cases cs with
    | nil => rfl
    | cons ch cs =>
      rw [List.all_cons, Bool.and_eq_true, Bool.not_eq_true'] at inside
      cases rest with
      | nil => rfl
      | cons next rest =>
        have differs : ch ≠ next := by
          rintro rfl
          exact absurd (ends ch rfl) (by simp [inside.1])
        simp [List.isPrefixOf, differs]
  | cons next text ih =>
    cases cs with
    | nil => rfl
    | cons ch cs =>
      rw [List.all_cons, Bool.and_eq_true] at inside
      rw [List.cons_append, List.isPrefixOf, List.isPrefixOf, ih inside.2]

/-- The longest mark at the beginning of a text does not reach into what comes after a word. -/
theorem mark?_append {first : Char} {text rest : List Char} (ends : WordEnd rest) :
    mark? (first :: text ++ rest) = mark? (first :: text) := by
  have table : ∀ entry ∈ marksByLength, entry.1.tail.all (fun ch => !endsWord ch) = true := by
    decide +kernel
  unfold mark?
  refine List.find?_congr fun entry mem => ?_
  have inside := table entry mem
  cases split : entry.1 with
  | nil => rfl
  | cons ch cs =>
    rw [split, List.tail_cons] at inside
    rw [List.cons_append, List.isPrefixOf, List.isPrefixOf, isPrefixOf_append inside ends]

/-- Characters that are the longest mark in themselves, and begin nothing else. -/
def isMark (word : List Char) (kind : Kind) : Bool :=
  mark? word == some (word, kind) && word.length ≤ 3 && word.all (fun ch => !isQuote ch) &&
    word.head?.any fun ch => isSolid ch && !ch.isDigit && ch != '.' && !startsWord ch

theorem spells_mark {word : List Char} {kind : Kind} (marks : isMark word kind = true) :
    Spells word kind := by
  simp only [isMark, Bool.and_eq_true, beq_iff_eq, decide_eq_true_eq] at marks
  obtain ⟨⟨⟨found, short⟩, plain⟩, begins⟩ := marks
  cases word with
  | nil => cases begins
  | cons first cs =>
    simp only [List.head?_cons, Option.any_some, Bool.and_eq_true, Bool.not_eq_true', bne_iff_ne]
      at begins
    obtain ⟨⟨⟨solid, digit⟩, dot⟩, starts⟩ := begins
    refine ⟨⟨first, cs, rfl, solid⟩, fun {offset rest} ends => ?_⟩
    have plain : ∀ ch ∈ first :: cs, isQuote ch = false := by simpa using plain
    rw [scan, startsString_eq_false (by simp) plain ends]
    simp only [peek, List.cons_append, List.head?_cons, Bool.false_eq_true, if_false, digit,
      beq_iff_eq, dot, starts, advance, Bool.and_eq_true, false_and]
    rw [mark, ← List.cons_append, mark?_append ends, found]
    obtain _ | ⟨a, _ | ⟨b, _ | ⟨c, cs⟩⟩⟩ := cs
    · simp
    · simp [advance, Nat.add_assoc]
    · simp [advance, Nat.add_assoc]
    · simp only [List.length_cons] at short
      omega

/-! ### Lines of words -/

theorem solid_ne {ch : Char} (solid : isSolid ch = true) :
    isBreak ch = false ∧ ch ≠ ' ' ∧ ch ≠ '\t' ∧ ch ≠ '\x0c' ∧ ch ≠ '#' ∧ ch ≠ '\\' := by
  simpa [isSolid, and_assoc, not_or] using solid

theorem skipTrivia_solid {inBrackets : Bool} {offset : Nat} {first : Char} {cs : List Char}
    (solid : isSolid first = true) :
    skipTrivia inBrackets false offset (first :: cs) = ⟨offset, first :: cs⟩ := by
  obtain ⟨breaks, blank, tab, feed, hash, backslash⟩ := solid_ne solid
  rw [skipTrivia.eq_def]
  split
  · rename_i eq
    cases eq
  · rename_i eq
    exact absurd (List.cons.inj eq).1 backslash
  · rename_i eq
    obtain ⟨rfl, rfl⟩ := List.cons.inj eq
    simp [breaks, blank, tab, feed, hash, backslash]

theorem skipTrivia_blank (inBrackets : Bool) (offset : Nat) (cs : List Char) :
    skipTrivia inBrackets false offset (' ' :: cs)
      = skipTrivia inBrackets false (offset + 1) cs := by
  rw [skipTrivia.eq_def]
  rfl

/-- Blanks before a word are passed over. -/
theorem skipTrivia_blanks {inBrackets : Bool} {offset n : Nat} {first : Char} {cs : List Char}
    (solid : isSolid first = true) :
    skipTrivia inBrackets false offset (List.replicate n ' ' ++ first :: cs)
      = ⟨offset + n, first :: cs⟩ := by
  induction n generalizing offset with
  | zero => exact skipTrivia_solid solid
  | succ n ih =>
    rw [List.replicate_succ, List.cons_append, skipTrivia_blank, ih, Nat.add_right_comm,
      Nat.add_assoc]

/-- Blanks at the beginning of a line are counted. -/
theorem lineStart_blanks {columns offset n : Nat} {first : Char} {cs : List Char}
    (solid : isSolid first = true) (narrow : columns + n < UInt32.size) :
    lineStart false (.ofNat columns) offset (List.replicate n ' ' ++ first :: cs)
      = (some (columns + n), ⟨offset + n, first :: cs⟩) := by
  induction n generalizing columns offset with
  | zero =>
    obtain ⟨breaks, blank, tab, feed, hash, -⟩ := solid_ne solid
    have exact_ : (UInt32.ofNat columns).toNat = columns := UInt32.toNat_ofNat_of_lt' narrow
    simp [lineStart, breaks, blank, tab, feed, hash, exact_]
  | succ n ih =>
    have size : (' ').utf8Size = 1 := by decide
    have next := @ih (columns + 1) (offset + 1) (by omega)
    rw [UInt32.ofNat_add] at next
    rw [List.replicate_succ, List.cons_append]
    simpa [lineStart, isBreak, size, Nat.add_assoc, Nat.add_comm 1 n] using next

/-- A word of a line, with the number of blanks before it. -/
structure Word where
  gap : Nat
  text : List Char
  kind : Kind
deriving Repr

namespace Word

/-- The text of a word with the blanks before it. -/
def written (w : Word) : List Char := List.replicate w.gap ' ' ++ w.text

/-- The token of a word that is written from an offset on. -/
def token (offset : Nat) (w : Word) : Token :=
  ⟨w.kind, offset + w.gap, offset + w.gap + Text.byteLength w.text, by omega⟩

/-- The tokens of words that are written from an offset on. -/
def tokens (offset : Nat) : List Word → List Token
  | [] => []
  | w :: ws => w.token offset :: tokens (w.token offset).span.stop ws

/-- The text of a line of words. -/
def line (ws : List Word) : List Char := ws.flatMap written

theorem byteLength_blanks (n : Nat) : Text.byteLength (List.replicate n ' ') = n := by
  have size : (' ').utf8Size = 1 := by decide
  induction n with
  | zero => rfl
  | succ n ih => rw [List.replicate_succ, Text.byteLength_cons, ih, size, Nat.add_comm]

theorem stop_token (offset : Nat) (w : Word) :
    (w.token offset).span.stop = offset + Text.byteLength w.written := by
  rw [written, Text.byteLength_append, byteLength_blanks, ← Nat.add_assoc]
  rfl

theorem line_cons (w : Word) (ws : List Word) : line (w :: ws) = w.written ++ line ws :=
  List.flatMap_cons ..

theorem line_append (ws vs : List Word) : line (ws ++ vs) = line ws ++ line vs :=
  List.flatMap_append ..

theorem tokens_append (offset : Nat) (ws vs : List Word) :
    tokens offset (ws ++ vs)
      = tokens offset ws ++ tokens (offset + Text.byteLength (line ws)) vs := by
  induction ws generalizing offset with
  | nil => rfl
  | cons w ws ih =>
    rw [List.cons_append, tokens, tokens, ih, line_cons, stop_token, Text.byteLength_append,
      Nat.add_assoc, List.cons_append]

theorem length_tokens (offset : Nat) (ws : List Word) : (tokens offset ws).length = ws.length := by
  induction ws generalizing offset with
  | nil => rfl
  | cons w ws ih => rw [tokens, List.length_cons, ih, List.length_cons]

theorem map_kind_tokens (offset : Nat) (ws : List Word) :
    (tokens offset ws).map (·.kind) = ws.map (·.kind) := by
  induction ws generalizing offset with
  | nil => rfl
  | cons w ws ih => rw [tokens, List.map_cons, ih, List.map_cons]; rfl

theorem getElem?_tokens (offset : Nat) (front : List Word) (w : Word) (back : List Word) :
    (tokens offset (front ++ w :: back))[front.length]?
      = some (w.token (offset + Text.byteLength (line front))) := by
  rw [tokens_append, List.getElem?_append_right (length_tokens offset front).le, length_tokens,
    Nat.sub_self]
  rfl

end Word

namespace Lexer

variable {offset depth : Nat} {levels : List Nat} {last : Option Kind} {rest : List Char} {w : Word}

theorem lexeme_word (spells : Spells w.text w.kind) (ends : WordEnd rest) :
    (⟨⟨offset, w.written ++ rest⟩, levels, depth, false, last⟩ : Lexer).lexeme
      = ([w.token offset], some ⟨⟨(w.token offset).span.stop, rest⟩, levels,
          depthAfter depth w.kind, false, some w.kind⟩) := by
  obtain ⟨first, cs, eq, solid⟩ := spells.solid
  have skipped : skipTrivia (depth != 0) false offset (w.written ++ rest)
      = ⟨offset + w.gap, w.text ++ rest⟩ := by
    rw [Word.written, List.append_assoc, eq, List.cons_append]
    exact skipTrivia_blanks solid
  unfold lexeme
  dsimp only
  rw [skipped]
  simp only [eq, List.cons_append, (solid_ne solid).1, Bool.false_eq_true, if_false]
  rw [← List.cons_append, ← eq, spells.scan ends]
  simp [tokenBetween, Word.token]

/-- A word is read inside a line. -/
theorem step_word (spells : Spells w.text w.kind) (ends : WordEnd rest) :
    (⟨⟨offset, w.written ++ rest⟩, levels, depth, false, last⟩ : Lexer).step
      = ([w.token offset], some ⟨⟨(w.token offset).span.stop, rest⟩, levels,
          depthAfter depth w.kind, false, some w.kind⟩) := by
  rw [step, beginLine]
  exact lexeme_word spells ends

/-- The first word of a line is read behind the tokens that the line begins with. -/
theorem step_firstWord (spells : Spells w.text w.kind) (ends : WordEnd rest)
    (narrow : w.gap < UInt32.size) :
    (⟨⟨offset, w.written ++ rest⟩, levels, 0, true, last⟩ : Lexer).step
      = ((indentation levels w.gap (offset + w.gap)).1 ++ [w.token offset],
          some ⟨⟨(w.token offset).span.stop, rest⟩,
            (indentation levels w.gap (offset + w.gap)).2, depthAfter 0 w.kind, false,
            some w.kind⟩) := by
  obtain ⟨first, cs, eq, solid⟩ := spells.solid
  have begun : lineStart false 0 offset (w.written ++ rest)
      = (some w.gap, ⟨offset + w.gap, w.text ++ rest⟩) := by
    have counted := @lineStart_blanks 0 offset w.gap first (cs ++ rest) solid (by omega)
    rw [Nat.zero_add] at counted
    rw [Word.written, List.append_assoc, eq, List.cons_append]
    exact counted
  have read := @lexeme_word (offset + w.gap) 0 (indentation levels w.gap (offset + w.gap)).2
    (((indentation levels w.gap (offset + w.gap)).1.getLast?.map (·.kind)).or last) rest
    ⟨0, w.text, w.kind⟩ spells ends
  rw [step, beginLine]
  simp only [Bool.true_and, beq_self_eq_true, if_true, begun]
  rw [Word.written, List.replicate_zero, List.nil_append] at read
  rw [read]
  rfl

/-- The number of open brackets after some words. -/
def depthAfterAll (depth : Nat) (ws : List Word) : Nat :=
  ws.foldl (fun depth w => depthAfter depth w.kind) depth

/-- What comes after a word of a line is a word that stands apart or the end of the line. -/
theorem wordEnd_line {ws : List Word} (apart : ∀ w ∈ ws, 0 < w.gap ∨ w.text.head? = some ':')
    (ends : WordEnd rest) : WordEnd (Word.line ws ++ rest) := by
  cases ws with
  | nil => exact ends
  | cons w ws =>
    intro ch head
    rw [Word.line, List.flatMap_cons, List.append_assoc, Word.written] at head
    rcases apart w List.mem_cons_self with blank | colon
    · obtain ⟨n, eq⟩ := Nat.exists_eq_add_of_lt blank
      rw [eq, Nat.zero_add, List.replicate_succ] at head
      obtain rfl := Option.some.inj head
      decide
    · cases gap : w.gap with
      | succ n =>
        rw [gap, List.replicate_succ] at head
        obtain rfl := Option.some.inj head
        decide
      | zero =>
        rw [gap, List.replicate_zero, List.nil_append, List.head?_append, colon] at head
        obtain rfl := Option.some.inj head
        decide

/-- The words of a line are read one by one. -/
theorem tokens_line {ws : List Word} (spells : ∀ w ∈ ws, Spells w.text w.kind)
    (apart : ∀ w ∈ ws.tail, 0 < w.gap ∨ w.text.head? = some ':') (ends : WordEnd rest) :
    (⟨⟨offset, Word.line ws ++ rest⟩, levels, depth, false, last⟩ : Lexer).tokens
      = Word.tokens offset ws
        ++ (⟨⟨offset + Text.byteLength (Word.line ws), rest⟩, levels, depthAfterAll depth ws, false,
            (ws.getLast?.map (·.kind)).or last⟩ : Lexer).tokens := by
  induction ws generalizing offset depth last with
  | nil => rfl
  | cons w ws ih =>
    obtain ⟨here, later⟩ := List.forall_mem_cons.1 spells
    have further : WordEnd (Word.line ws ++ rest) := wordEnd_line apart ends
    have step := @step_word offset depth levels last _ w here further
    have kind : ((w :: ws).getLast?.map (·.kind)).or last
        = (ws.getLast?.map (·.kind)).or (some w.kind) := by
      rw [List.getLast?_cons]
      cases ws.getLast? <;> rfl
    rw [Word.line_cons, List.append_assoc, tokens_of_step_some step,
      ih later (fun v mem => apart v (List.mem_of_mem_tail mem)), Word.stop_token, kind,
      Text.byteLength_append, ← Nat.add_assoc, Word.tokens, Word.stop_token]
    rfl

/-- The words of the first line of a text, or of a later one, are read behind the tokens that the
line begins with. -/
theorem tokens_firstWord {ws : List Word} (spells : ∀ v ∈ w :: ws, Spells v.text v.kind)
    (apart : ∀ v ∈ ws, 0 < v.gap ∨ v.text.head? = some ':') (ends : WordEnd rest)
    (narrow : w.gap < UInt32.size) :
    (⟨⟨offset, Word.line (w :: ws) ++ rest⟩, levels, 0, true, last⟩ : Lexer).tokens
      = (indentation levels w.gap (offset + w.gap)).1 ++ Word.tokens offset (w :: ws)
        ++ (⟨⟨offset + Text.byteLength (Word.line (w :: ws)), rest⟩,
              (indentation levels w.gap (offset + w.gap)).2, depthAfterAll 0 (w :: ws), false,
              some ((w :: ws).getLast (List.cons_ne_nil w ws)).kind⟩ : Lexer).tokens := by
  obtain ⟨here, later⟩ := List.forall_mem_cons.1 spells
  have further : WordEnd (Word.line ws ++ rest) := wordEnd_line apart ends
  have step := @step_firstWord offset levels last _ w here further narrow
  have kind : (ws.getLast?.map (·.kind)).or (some w.kind)
      = some ((w :: ws).getLast (List.cons_ne_nil w ws)).kind := by
    cases ws with
    | nil => rfl
    | cons v ws =>
      rw [List.getLast_cons_cons, List.getLast?_eq_some_getLast (List.cons_ne_nil v ws)]
      rfl
  rw [Word.line_cons, List.append_assoc, tokens_of_step_some step,
    tokens_line later (fun v mem => apart v (List.mem_of_mem_tail mem)) ends, Word.stop_token, kind,
    Text.byteLength_append, ← Nat.add_assoc, Word.tokens, Word.stop_token]
  simp [depthAfterAll]

/-- The end of a line behind its words. -/
theorem tokens_break :
    (⟨⟨offset, '\n' :: rest⟩, levels, 0, false, last⟩ : Lexer).tokens
      = ⟨.newline, offset, offset + 1, Nat.le_succ offset⟩
        :: (⟨⟨offset + 1, rest⟩, levels, 0, true, some .newline⟩ : Lexer).tokens := by
  have skipped : skipTrivia false false offset ('\n' :: rest) = ⟨offset, '\n' :: rest⟩ := by
    rw [skipTrivia.eq_def]
    rfl
  have size : ('\n').utf8Size = 1 := by decide
  refine tokens_of_step_some (?_ : _ = ([_], some _))
  rw [step, beginLine]
  simp [lexeme, skipped, isBreak, tokenBetween, skipBreak, eat, eatIf, peek, advance, size]

/-- Behind a word the end of a text ends the line and all blocks. -/
theorem closing_of_lexeme {kind : Kind} (lexeme : kind.isLayout = false) :
    closing (some kind) levels offset
      = .empty .newline offset :: (levels.map fun _ => .empty .dedent offset)
        ++ [.empty .eof offset] := by
  have differs (layout : Kind) (isLayout : layout.isLayout = true) : kind ≠ layout := by
    rintro rfl
    exact absurd isLayout (by simp [lexeme])
  simp [closing, differs .newline rfl, differs .indent rfl, differs .dedent rfl]

/-- The end of a text behind the last line break. -/
theorem tokens_lineEnd :
    (⟨⟨offset, []⟩, levels, 0, true, last⟩ : Lexer).tokens = closing last levels offset :=
  tokens_of_step_none rfl

/-- The end of a text. -/
theorem tokens_end :
    (⟨⟨offset, []⟩, levels, depth, false, last⟩ : Lexer).tokens = closing last levels offset :=
  tokens_of_step_none rfl

end Lexer

end SureCode
