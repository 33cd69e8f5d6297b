import Mathlib
import SureCode.Proofs.Token.Literals

/-!
# Lexemes by themselves

A lexeme is read from its own text as from the text it stands in (`scan_alone`), because reading it
depends on nothing behind it. So the text of a token determines its kind: read by itself, it is a line
with that one token (`tokenize_alone`).
-/

namespace SureCode

open Cursor

namespace Lexeme

/-- A lexeme is read from its own text as from the text it stands in, wherever a line ends behind it.
-/
theorem scan_alone {word rest : List Char} {kind : Kind} {first : Char} {offset : Nat} {c d : Cursor}
    (next : c.peek = some first) (inline : isBreak first = false) (read : scan c = (kind, d))
    (known : kind ≠ .unknown) (reached : c.Reaches word d) (stops : Stops rest) :
    scan ⟨offset, word ++ rest⟩ = (kind, ⟨offset + Text.byteLength word, rest⟩) := by
  cases begins : startsString c with
  | true =>
    obtain ⟨rfl, o, body, reached', closes, -⟩ := Opening.exists_literal begins read known
    obtain rfl : word = o.text ++ body :=
      List.append_cancel_right (reached.1.symm.trans reached'.1)
    refine Opening.scan_literal closes (Opening.fits_of_closes closes fun quote => ?_)
    have breaks : isBreak o.quote = true := by simpa [Stops, quote] using stops
    simp [inline_isQuote.isBreak o.isQuote] at breaks
  | false =>
    have parallel : Parallel d.rest rest c ⟨offset, word ++ rest⟩ := ⟨word, reached.1, rfl⟩
    obtain ⟨same, cs, behind, behind'⟩ :=
      agree_scan stops parallel next inline begins (.inr (by rw [read]))
    rw [read] at same behind
    obtain rfl : cs = [] := by simpa using behind
    obtain ⟨passed, reached'⟩ := ahead_scan ⟨offset, word ++ rest⟩
    have whole : (⟨offset, word ++ rest⟩ : Cursor).Reaches word
        ⟨offset + Text.byteLength word, rest⟩ := ⟨rfl, rfl⟩
    obtain rfl : word = passed := by
      refine List.append_cancel_right (reached'.1.trans ?_)
      rw [behind', List.nil_append]
    exact Prod.ext same (reached'.unique whole)

/-- A backslash begins no lexeme. -/
theorem kind_scan_backslash {c : Cursor} (next : c.peek = some '\\') : (scan c).1 = .unknown := by
  have plain : startsString c = false := by
    have others : isQuote '\\' = false ∧ isStringLetter '\\' = false := by decide
    simp [startsString, next, others]
  have none : mark? ('\\' :: c.advance.rest) = none := by
    have table : ∀ entry ∈ marksByLength, entry.1.head?.all (· != '\\') = true := by
      decide +kernel
    refine List.find?_eq_none.2 fun entry mem begins => ?_
    obtain ⟨nonempty, -⟩ := marks_inside entry mem
    have first := table entry mem
    obtain ⟨ch, text, split⟩ := List.exists_cons_of_ne_nil nonempty
    rw [split] at begins first
    simp_all [List.isPrefixOf]
  have others : Char.isDigit '\\' = false ∧ startsWord '\\' = false := by decide
  simp [scan, next, plain, others, mark, none]

end Lexeme

/-! ### Where lexemes begin -/

/-- Before a lexeme or a line break there is nothing left to pass over. -/
theorem Cursor.isSolid_of_skipTrivia {inBrackets inComment : Bool} {offset : Nat} {ch : Char}
    {cs rest : List Char} (stops : (skipTrivia inBrackets inComment offset cs).rest = ch :: rest) :
    isBreak ch = true ∨ isSolid ch = true ∨ ch = '\\' := by
  fun_induction skipTrivia inBrackets inComment offset cs with
  | case1 => cases stops
  | case2 _ _ ih | case3 _ _ _ _ ih | case4 _ _ _ _ _ _ _ _ ih | case6 _ _ _ _ _ _ ih
  | case7 _ _ _ _ _ _ _ _ _ ih | case8 _ _ _ _ _ _ _ _ _ _ ih
  | case9 _ _ _ _ _ _ _ _ _ _ _ _ _ ih => exact ih stops
  | case5 _ _ _ _ _ breaks =>
    obtain ⟨rfl, -⟩ := List.cons.inj stops
    exact .inl breaks
  | case10 _ _ _ _ _ _ _ backslash | case11 _ _ _ _ _ _ _ backslash =>
    obtain ⟨rfl, -⟩ := List.cons.inj stops
    exact .inr (.inr (beq_iff_eq.1 backslash))
  | case12 =>
    obtain ⟨rfl, -⟩ := List.cons.inj stops
    right; left
    simp_all [isSolid]

namespace Lexer

variable {source : List Char} {l : Lexer} {t : Token}

/-- The token is what the scan of a lexeme found, here or further on. -/
def ScannedFrom (origin : Cursor) (t : Token) : Prop :=
  ∃ c d first, origin.Ahead c ∧ c.peek = some first ∧ isSolid first = true ∧
    Lexeme.scan c = (t.kind, d) ∧ t = tokenBetween t.kind c d

theorem ScannedFrom.trans {origin here : Cursor} (ahead : origin.Ahead here)
    (scanned : ScannedFrom here t) : ScannedFrom origin t := by
  obtain ⟨c, d, first, ahead', spec⟩ := scanned
  exact ⟨c, d, first, ahead.trans ahead', spec⟩

/-- A token that is neither layout nor unknown is what the scan of a lexeme found. -/
theorem scannedFrom_lexeme (mem : t ∈ l.lexeme.1) (lexeme : t.kind.isLayout = false)
    (known : t.kind ≠ .unknown) :
    ScannedFrom l.cursor t := by
  have skipped := ahead_skipTrivia (l.depth != 0) false l.cursor.offset l.cursor.rest
  have stops {ch rest} := @isSolid_of_skipTrivia (l.depth != 0) false l.cursor.offset ch
    l.cursor.rest rest
  unfold Lexer.lexeme at mem
  dsimp only at mem
  generalize skipTrivia (l.depth != 0) false l.cursor.offset l.cursor.rest = c at mem skipped stops
  split at mem
  · have layout := isLayout_of_mem_closing mem
    simp [lexeme] at layout
  · rename_i ch rest split_rest
    split at mem
    · rw [List.mem_singleton.1 mem] at lexeme
      cases lexeme
    · rename_i inline
      have next : c.peek = some ch := by rw [peek, split_rest]; rfl
      obtain rfl := List.mem_singleton.1 mem
      refine ⟨c, (Lexeme.scan c).2, ch, skipped, next, ?_, rfl, rfl⟩
      rcases stops split_rest with breaks | solid | rfl
      · exact absurd breaks inline
      · exact solid
      · exact absurd (Lexeme.kind_scan_backslash next) known

theorem scannedFrom_step (sound : l.Sound source) (mem : t ∈ l.step.1)
    (lexeme : t.kind.isLayout = false) (known : t.kind ≠ .unknown) :
    ScannedFrom (Cursor.ofText source) t := by
  rcases List.mem_append.1 mem with opening | mem
  · rcases isLayout_or_flags sound opening with layout | ⟨-, -, _, _, -, -, -, rfl⟩
    · simp [lexeme] at layout
    · exact absurd rfl known
  · exact (scannedFrom_lexeme mem lexeme known).trans sound.beginLine.1.within

theorem scannedFrom_tokens (reached : Reached source l) (mem : t ∈ l.tokens)
    (lexeme : t.kind.isLayout = false) (known : t.kind ≠ .unknown) :
    ScannedFrom (Cursor.ofText source) t := by
  induction l using Lexer.tokens.induct with
  | case1 l ts found =>
    rw [tokens_of_step_none found] at mem
    exact scannedFrom_step reached.sound (by rwa [found]) lexeme known
  | case2 l ts next found ih =>
    rw [tokens_of_step_some found, List.mem_append] at mem
    rcases mem with mem | later
    · exact scannedFrom_step reached.sound (by rwa [found]) lexeme known
    · exact ih (.step reached found) later

/-- Where nothing is to be passed over, a lexeme is read at once. -/
theorem lexeme_of_scan {kind : Kind} {first : Char} {d : Cursor}
    (next : l.cursor.peek = some first) (solid : isSolid first = true)
    (read : Lexeme.scan l.cursor = (kind, d)) :
    l.lexeme = ([tokenBetween kind l.cursor d],
      some { l with cursor := d, depth := depthAfter l.depth kind, last := some kind }) := by
  have skipped : skipTrivia (l.depth != 0) false l.cursor.offset l.cursor.rest = l.cursor := by
    rw [← cons_advance next, skipTrivia_solid solid, cons_advance next]
  rw [Lexer.lexeme, skipped]
  dsimp only
  split
  · rename_i done
    simp [peek, done] at next
  · rename_i ch cs more
    obtain rfl : ch = first := by simpa [peek, more] using next
    rw [if_neg (by simp [(solid_ne solid).1]), read]

/-- A text that is one lexeme is a line with that token. -/
theorem tokens_lexeme {word : List Char} {kind : Kind} {first : Char} {cs : List Char}
    (split : word = first :: cs) (solid : isSolid first = true) (lexeme : kind.isLayout = false)
    (read : Lexeme.scan ⟨0, word⟩ = (kind, ⟨Text.byteLength word, []⟩)) :
    (ofText word).tokens = [⟨kind, 0, Text.byteLength word, Nat.zero_le _⟩,
      .empty .newline (Text.byteLength word), .empty .eof (Text.byteLength word)] := by
  have start : lineStart false 0 0 word = (some 0, ⟨0, word⟩) := by
    rw [split]
    exact @lineStart_blanks 0 0 0 first cs solid (by decide)
  have begun : (ofText word).beginLine = ([], ⟨⟨0, word⟩, [], 0, false, none⟩) := by
    rw [beginLine]
    simp [ofText, Cursor.ofText, start, indentation]
  have token : tokenBetween kind ⟨0, word⟩ ⟨Text.byteLength word, []⟩
      = ⟨kind, 0, Text.byteLength word, Nat.zero_le _⟩ := by
    simp [tokenBetween]
  have step_eq : (ofText word).step = ([⟨kind, 0, Text.byteLength word, Nat.zero_le _⟩],
      some ⟨⟨Text.byteLength word, []⟩, [], depthAfter 0 kind, false, some kind⟩) := by
    rw [step, begun]
    dsimp only
    rw [lexeme_of_scan (by rw [split]; rfl) solid read, token]
    rfl
  rw [tokens_of_step_some step_eq, tokens_end, closing_of_lexeme lexeme]
  rfl

end Lexer

/-- A token that is neither layout nor unknown has a text, and that text by itself is a line with one
token of the same kind. -/
theorem tokenize_alone (text : String) {t : Token} (mem : t ∈ tokenize text)
    (lexeme : t.kind.isLayout = false) (known : t.kind ≠ .unknown) :
    ∃ word, t.text? text.toList = some word ∧
      tokenize (String.ofList word) = [⟨t.kind, 0, Text.byteLength word, Nat.zero_le _⟩,
        .empty .newline (Text.byteLength word), .empty .eof (Text.byteLength word)] := by
  obtain ⟨c, d, first, within, next, solid, read, eq⟩ :=
    Lexer.scannedFrom_tokens .start mem lexeme known
  obtain ⟨word, reached⟩ := Lexeme.ahead_scan c
  rw [read] at reached
  refine ⟨word, ?_, ?_⟩
  · rw [eq]
    exact Token.text?_tokenBetween within reached
  · obtain ⟨cs, split⟩ : ∃ cs, word = first :: cs := by
      have nonempty : c.rest ≠ [] := fun none => by simp [peek, none] at next
      have shorter := Lexeme.length_scan_lt nonempty
      rw [read] at shorter
      obtain ⟨ch, cs, rfl⟩ :=
        List.exists_cons_of_ne_nil (Lexer.ne_nil_of_length_lt reached shorter)
      rw [reaches_cons_iff, next] at reached
      exact ⟨cs, by rw [Option.some.inj reached.1]⟩
    have alone : Lexeme.scan ⟨0, word ++ []⟩ = (t.kind, ⟨0 + Text.byteLength word, []⟩) :=
      Lexeme.scan_alone next (solid_ne solid).1 read known reached rfl
    rw [List.append_nil, Nat.zero_add] at alone
    rw [tokenize, String.toList_ofList]
    exact Lexer.tokens_lexeme split solid lexeme alone

/-- A number is the same number without the letter behind it that begins no exponent. -/
theorem tokenize_alone_looseExponent :
    ⟨.intNumber, 0, 1, by decide⟩ ∈ tokenize "1e" ∧
      tokenize "1" = [⟨.intNumber, 0, 1, by decide⟩, .empty .newline 1, .empty .eof 1] := by
  have first : (Lexer.ofText "1e".toList).step
      = ([⟨.intNumber, 0, 1, by decide⟩], some ⟨⟨1, ['e']⟩, [], 0, false, some .intNumber⟩) := by
    decide +kernel
  have mem : ⟨.intNumber, 0, 1, by decide⟩ ∈ tokenize "1e" := by
    rw [tokenize, Lexer.tokens_of_step_some first]
    exact List.mem_cons_self
  obtain ⟨word, cut, alone⟩ := tokenize_alone "1e" mem rfl (by decide)
  obtain rfl : word = ['1'] := Option.some.inj (cut.symm.trans (by decide +kernel))
  exact ⟨mem, alone⟩

end SureCode
