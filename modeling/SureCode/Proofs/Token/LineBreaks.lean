import Mathlib
import SureCode.Proofs.Token.Alone

/-!
# Line breaks of two characters

`Text.withReturns` makes every line feed of a text a carriage return and a line feed. A lexer at the
same place of both texts reads tokens that go with each other: of the same kind, and with the text
that the carriage returns make of the other (`beside_step`). The exception is a string literal between
single quotes that a backslash continues in a second line: with a carriage return after it the
backslash takes only that, and the line feed ends the literal (`Closes.unclosed`). So the tokens of a
text stay the same, carriage returns apart, if and only if it has no such literal
(`tokenize_withReturns_tfae`).
-/

namespace SureCode

open Cursor

/-! ### Texts with carriage returns -/

namespace Text

/-- A carriage return before every line feed. -/
def withReturns (cs : List Char) : List Char :=
  cs.flatMap fun ch => if ch = '\n' then ['\r', '\n'] else [ch]

variable {ch : Char} {cs ds : List Char}

@[simp] theorem withReturns_nil : withReturns [] = [] := rfl

@[simp] theorem withReturns_append (cs ds : List Char) :
    withReturns (cs ++ ds) = withReturns cs ++ withReturns ds := List.flatMap_append ..

@[simp] theorem withReturns_feed (cs : List Char) :
    withReturns ('\n' :: cs) = '\r' :: '\n' :: withReturns cs := rfl

theorem withReturns_cons (other : ch ≠ '\n') : withReturns (ch :: cs) = ch :: withReturns cs := by
  simp [withReturns, other]

theorem withReturns_of_notMem (none : '\n' ∉ cs) : withReturns cs = cs := by
  induction cs with
  | nil => rfl
  | cons ch cs ih =>
    rw [List.mem_cons, not_or] at none
    rw [withReturns_cons (Ne.symm none.1), ih none.2]

theorem ne_feed (inline : ¬ isBreak ch = true) : ch ≠ '\n' := by
  rintro rfl
  exact inline (by decide)

/-- Quotes at the beginning of a text stay there, and no others come there. -/
theorem isPrefix_withReturns_iff {quote : Char} (inline : isBreak quote = false) :
    [quote, quote] <+: withReturns cs ↔ [quote, quote] <+: cs := by
  have differs : quote ≠ '\n' ∧ quote ≠ '\r' := by
    constructor <;> (rintro rfl; exact absurd inline (by decide))
  have head (ch : Char) (cs : List Char) : quote :: [] <+: withReturns (ch :: cs) ↔ quote = ch := by
    by_cases feed : ch = '\n'
    · subst feed
      simp [differs]
    · simp [withReturns_cons feed]
  cases cs with
  | nil => rfl
  | cons a cs =>
    by_cases feed : a = '\n'
    · subst feed
      simp [differs]
    · rw [withReturns_cons feed, List.cons_prefix_cons, List.cons_prefix_cons]
      refine and_congr_right fun _ => ?_
      cases cs with
      | nil => rfl
      | cons b cs => rw [head, List.cons_prefix_cons]; simp

end Text

open Text

namespace Cursor

variable {inBrackets inComment : Bool} {width : UInt32} {offset : Nat} {cs : List Char}

/-- The contents of a line are found behind the same width. -/
theorem lineStart_withReturns (clean : '\r' ∉ cs) (offset' : Nat) :
    (lineStart inComment width offset' (withReturns cs)).1 = (lineStart inComment width offset cs).1 ∧
      (lineStart inComment width offset' (withReturns cs)).2.rest
        = withReturns (lineStart inComment width offset cs).2.rest := by
  have later {ch : Char} {cs : List Char} (clean : '\r' ∉ ch :: cs) : '\r' ∉ cs :=
    fun mem => clean (List.mem_cons_of_mem ch mem)
  fun_induction lineStart inComment width offset cs generalizing offset' with
  | case1 => exact ⟨rfl, rfl⟩
  | case2 inComment width offset ch cs after breaks ih =>
    obtain rfl := eq_feed breaks clean
    have returned : isBreak '\r' = true := by decide
    rw [withReturns_feed, lineStart, if_pos returned, lineStart, if_pos breaks]
    exact ih (later clean) _
  | case3 width offset ch cs after inline ih =>
    rw [withReturns_cons (ne_feed inline), lineStart, if_neg inline, if_pos rfl]
    exact ih (later clean) _
  | case4 inComment width offset ch cs after inline outside blank ih =>
    rw [withReturns_cons (ne_feed inline), lineStart, if_neg inline, if_neg outside, if_pos blank]
    exact ih (later clean) _
  | case5 inComment width offset ch cs after inline outside blank tab ih =>
    rw [withReturns_cons (ne_feed inline), lineStart, if_neg inline, if_neg outside, if_neg blank,
      if_pos tab]
    exact ih (later clean) _
  | case6 inComment width offset ch cs after inline outside blank tab feed ih =>
    rw [withReturns_cons (ne_feed inline), lineStart, if_neg inline, if_neg outside, if_neg blank,
      if_neg tab, if_pos feed]
    exact ih (later clean) _
  | case7 inComment width offset ch cs after inline outside blank tab feed hash ih =>
    rw [withReturns_cons (ne_feed inline), lineStart, if_neg inline, if_neg outside, if_neg blank,
      if_neg tab, if_neg feed, if_pos hash]
    exact ih (later clean) _
  | case8 inComment width offset ch cs inline outside blank tab feed hash =>
    rw [withReturns_cons (ne_feed inline), lineStart, if_neg inline, if_neg outside, if_neg blank,
      if_neg tab, if_neg feed, if_neg hash]
    exact ⟨rfl, rfl⟩

/-- The next lexeme or line break is found. -/
theorem skipTrivia_withReturns (clean : '\r' ∉ cs) (offset' : Nat) :
    (skipTrivia inBrackets inComment offset' (withReturns cs)).rest
      = withReturns (skipTrivia inBrackets inComment offset cs).rest := by
  have later {ch : Char} {cs : List Char} (clean : '\r' ∉ ch :: cs) : '\r' ∉ cs :=
    fun mem => clean (List.mem_cons_of_mem ch mem)
  fun_induction skipTrivia inBrackets inComment offset cs generalizing offset' with
  | case1 => rfl
  | case2 | case3 => simp at clean
  | case4 inComment offset ch cs _ _ breaks inside ih =>
    obtain rfl := eq_feed breaks clean
    have returned : isBreak '\r' = true := by decide
    rw [withReturns_feed, skipTrivia_cons (by decide), if_pos returned, if_pos inside,
      skipTrivia_cons (by decide), if_pos breaks, if_pos inside]
    exact ih (later clean) _
  | case5 inComment offset ch cs _ breaks outside =>
    obtain rfl := eq_feed breaks clean
    have returned : isBreak '\r' = true := by decide
    rw [withReturns_feed, skipTrivia_cons (by decide), if_pos returned, if_neg outside]
  | case6 offset ch cs _ _ inline ih =>
    rw [withReturns_cons (ne_feed inline)]
    by_cases backslash : ch = '\\'
    · subst backslash
      rw [skipTrivia_backslash]
      exact ih (later clean) _
    · rw [skipTrivia_cons backslash, if_neg inline, if_pos rfl]
      exact ih (later clean) _
  | case7 inComment offset ch cs _ _ inline outside blank ih =>
    have plain : ch ≠ '\\' := by
      rintro rfl
      exact absurd blank (by decide)
    rw [withReturns_cons (ne_feed inline), skipTrivia_cons plain, if_neg inline, if_neg outside,
      if_pos blank]
    exact ih (later clean) _
  | case8 inComment offset ch cs _ _ inline outside blank hash ih =>
    have plain : ch ≠ '\\' := by
      rintro rfl
      exact absurd hash (by decide)
    rw [withReturns_cons (ne_feed inline), skipTrivia_cons plain, if_neg inline, if_neg outside,
      if_neg blank, if_pos hash]
    exact ih (later clean) _
  | case9 inComment offset ch _ _ outside _ _ backslash next cs breaks _ ih =>
    obtain rfl := beq_iff_eq.1 backslash
    obtain rfl := eq_feed breaks (later clean)
    rw [withReturns_cons (by decide), withReturns_feed, skipTrivia, if_neg outside]
    exact ih (later (later clean)) _
  | case10 inComment offset ch _ outside _ _ backslash next cs inline =>
    obtain rfl := beq_iff_eq.1 backslash
    obtain rfl := Bool.eq_false_iff.2 outside
    rw [withReturns_cons (by decide), withReturns_cons (ne_feed inline), skipTrivia_loose inline]
  | case11 inComment offset ch _ outside _ _ backslash =>
    obtain rfl := beq_iff_eq.1 backslash
    obtain rfl := Bool.eq_false_iff.2 outside
    rfl
  | case12 inComment offset ch cs _ inline outside blank hash backslash =>
    have plain : ch ≠ '\\' := by simpa using backslash
    rw [withReturns_cons (ne_feed inline), skipTrivia_cons plain, if_neg inline, if_neg outside,
      if_neg blank, if_neg hash]

end Cursor

/-! ### Lexemes -/

namespace Lexeme

variable {quote : Char} {triple : Bool} {offset : Nat} {body cs word : List Char} {o : Opening}

/-- Between three quotes a line break is like any other character. -/
theorem Closes.lineBreak {ch : Char} (isQuote : isQuote quote = true) (breaks : isBreak ch = true)
    (closes : Closes quote true body) : Closes quote true (ch :: body) := by
  refine .char ?_ (fun _ => rfl) (fun same => ?_) closes
  · rintro rfl
    exact absurd breaks (by decide)
  · rw [same, inline_isQuote.isBreak isQuote] at breaks
    cases breaks

/-- So is a line break of two characters. -/
theorem Closes.withReturns (isQuote : isQuote quote = true) (closes : Closes quote triple body)
    (isTriple : triple = true) : Closes quote triple (withReturns body) := by
  have inline := inline_isQuote.isBreak isQuote
  induction closes with
  | single => cases isTriple
  | triple =>
    have feed : quote ≠ '\n' := ne_feed (by simp [inline])
    rw [withReturns_of_notMem (by simp [feed.symm])]
    exact .triple
  | @escape triple body ch _ ih =>
    subst isTriple
    rw [withReturns_cons (by decide)]
    by_cases feed : ch = '\n'
    · subst feed
      exact .escape '\r' ((ih rfl).lineBreak isQuote (by decide))
    · rw [withReturns_cons feed]
      exact .escape ch (ih rfl)
  | @char triple ch body plain _ inside _ ih =>
    subst isTriple
    by_cases feed : ch = '\n'
    · subst feed
      exact ((ih rfl).lineBreak isQuote (by decide)).lineBreak isQuote (by decide)
    · rw [withReturns_cons feed]
      refine .char plain (fun _ => rfl) (fun same => ⟨rfl, ?_⟩) (ih rfl)
      rw [isPrefix_withReturns_iff inline]
      exact (inside same).2

/-- Between single quotes, where only a backslash can come before a line feed, it takes the carriage
return instead, and the line feed ends the literal unclosed. -/
theorem Closes.unclosed (isQuote : isQuote quote = true) (closes : Closes quote triple body)
    (single : triple = false) (mem : '\n' ∈ body) :
    (stringBody quote triple offset (Text.withReturns body ++ cs)).1 = false := by
  induction closes generalizing offset with
  | triple => cases single
  | single =>
    rw [← List.mem_singleton.1 mem] at isQuote
    exact absurd isQuote (by decide)
  | @escape triple body ch rest ih =>
    rw [withReturns_cons (by decide)]
    by_cases isFeed : ch = '\n'
    · subst isFeed
      have feed : isBreak '\n' = true := by decide
      simp only [withReturns_feed, List.cons_append, stringBody]
      rw [stringBody_cons (by decide), if_pos (by simp [feed, single])]
    · have later : '\n' ∈ body := by simpa [Ne.symm isFeed] using mem
      rw [withReturns_cons isFeed]
      simpa [stringBody] using ih single later
  | @char triple ch body plain inline inside rest ih =>
    have isFeed : ch ≠ '\n' := by
      rintro rfl
      exact absurd (inline (by decide)) (by simp [single])
    have later : '\n' ∈ body := by simpa [Ne.symm isFeed] using mem
    rw [withReturns_cons isFeed, List.cons_append, stringBody_char plain inline fun same => ?_]
    · exact ih single later
    · simpa [single] using (inside same).1

/-- Whether the first quote of a text is the first of three. -/
def isTriple (word : List Char) : Bool :=
  match word.dropWhile fun ch => !isQuote ch with
  | a :: b :: c :: _ => a == b && b == c
  | _ => false

/-- A string literal between single quotes with a line feed in it. -/
def Broken (kind : Kind) (word : List Char) : Prop :=
  kind = .string ∧ isTriple word = false ∧ '\n' ∈ word

theorem isTriple_literal (closes : Closes o.quote o.triple body) :
    isTriple (o.text ++ body) = o.triple := by
  have letters : (o.text ++ body).dropWhile (fun ch => !isQuote ch)
      = (if o.triple then [o.quote, o.quote, o.quote] else [o.quote]) ++ body := by
    rw [Opening.text, List.append_assoc, List.dropWhile_append_of_pos]
    · cases o.triple <;> simp [o.isQuote]
    · intro ch mem
      simp [Opening.isQuote_of_isStringLetter (o.areLetters ch mem)]
  rw [isTriple, letters]
  cases triple : o.triple with
  | true => simp
  | false =>
    rw [triple] at closes
    have quote := o.isQuote
    cases closes with
    | single => simp
    | escape ch _ =>
      have plain : o.quote ≠ '\\' := by
        rintro same
        rw [same] at quote
        exact absurd quote (by decide)
      simp [plain]
    | @char _ ch body _ _ inside rest =>
      have differs : o.quote ≠ ch := fun same => by simpa using (inside same.symm).1
      cases body <;> simp [differs]

theorem notMem_text (o : Opening) : '\n' ∉ o.text := by
  have letters : '\n' ∉ o.letters := fun mem => absurd (o.areLetters _ mem) (by decide)
  have quote : '\n' ≠ o.quote := fun same => by
    have isQuote := o.isQuote
    rw [← same] at isQuote
    exact absurd isQuote (by decide)
  cases triple : o.triple <;> simp [Opening.text, triple, letters, quote]

variable {c d : Cursor} {kind : Kind} {first : Char}

/-- A literal that a line feed does not break is read as before, and one that it breaks is not. -/
theorem scan_literal_withReturns (begins : startsString c = true) (read : scan c = (kind, d))
    (known : kind ≠ .unknown) (reached : c.Reaches word d) (offset' : Nat) :
    (¬ Broken kind word → scan ⟨offset', withReturns c.rest⟩
        = (kind, ⟨offset' + byteLength (withReturns word), withReturns d.rest⟩)) ∧
      (Broken kind word → (scan ⟨offset', withReturns c.rest⟩).1 = .unknown) := by
  obtain ⟨rfl, o, body, reached', closes, fits⟩ := Opening.exists_literal begins read known
  obtain rfl : word = o.text ++ body := List.append_cancel_right (reached.1.symm.trans reached'.1)
  have split : withReturns c.rest
      = o.text ++ (withReturns body ++ withReturns d.rest) := by
    rw [reached.1, withReturns_append, withReturns_append, withReturns_of_notMem (notMem_text o),
      List.append_assoc]
  have fits' : o.Fits (withReturns body ++ withReturns d.rest) := fun single => by
    rw [← withReturns_append, isPrefix_withReturns_iff (inline_isQuote.isBreak o.isQuote)]
    exact fits single
  have whole : withReturns (o.text ++ body) = o.text ++ withReturns body := by
    rw [withReturns_append, withReturns_of_notMem (notMem_text o)]
  rw [split, whole, Broken, isTriple_literal closes]
  constructor
  · intro intact
    have closes' : Closes o.quote o.triple (withReturns body) := by
      cases triple : o.triple with
      | true => exact triple ▸ closes.withReturns o.isQuote triple
      | false =>
        have none : '\n' ∉ body := fun mem => intact ⟨rfl, triple, List.mem_append_right _ mem⟩
        rw [withReturns_of_notMem none, ← triple]
        exact closes
    rw [← List.append_assoc]
    exact Opening.scan_literal closes' fits'
  · rintro ⟨-, single, mem⟩
    have mem : '\n' ∈ body := (List.mem_append.1 mem).resolve_left (notMem_text o)
    rw [o.scan_eq fits', if_neg]
    rw [closes.unclosed o.isQuote single mem]
    exact Bool.false_ne_true

theorem stops_withReturns {more : List Char} (stops : Stops more) : Stops (withReturns more) := by
  cases more with
  | nil => exact stops
  | cons ch more =>
    by_cases feed : ch = '\n'
    · subst feed
      rfl
    · rw [withReturns_cons feed]
      exact stops

/-- Any other lexeme is read as before. -/
theorem scan_withReturns (plain : startsString c = false) (next : c.peek = some first)
    (inline : isBreak first = false) (read : scan c = (kind, d)) (reached : c.Reaches word d)
    (offset' : Nat) :
    ¬ Broken kind word ∧ scan ⟨offset', withReturns c.rest⟩
      = (kind, ⟨offset' + byteLength (withReturns word), withReturns d.rest⟩) := by
  obtain ⟨line, more, split, inside, stops⟩ := exists_stops c.rest
  have notMem {cs : List Char} (inside : ∀ ch ∈ cs, isBreak ch = false) : '\n' ∉ cs := fun mem =>
    absurd (inside _ mem) (by decide)
  have parallel : Parallel more (withReturns more) c ⟨offset', withReturns c.rest⟩ := by
    refine ⟨line, split, ?_⟩
    rw [split, withReturns_append, withReturns_of_notMem (notMem inside)]
  obtain ⟨same, cs, behind, behind'⟩ := agree_scan (stops_withReturns stops) parallel next inline
    plain (.inl stops)
  rw [read] at same behind
  have together : word ++ cs ++ more = line ++ more := by
    rw [List.append_assoc, ← behind, ← reached.1, split]
  obtain rfl := List.append_cancel_right together
  have whole : (⟨offset', withReturns c.rest⟩ : Cursor).Reaches (withReturns word)
      ⟨offset' + byteLength (withReturns word), withReturns d.rest⟩ :=
    ⟨by rw [reached.1, withReturns_append], rfl⟩
  have left : withReturns d.rest = cs ++ withReturns more := by
    rw [behind, withReturns_append,
      withReturns_of_notMem (notMem fun ch mem => inside ch (List.mem_append_right _ mem))]
  obtain ⟨passed, reached'⟩ := ahead_scan ⟨offset', withReturns c.rest⟩
  have together' : withReturns word ++ withReturns d.rest = passed ++ withReturns d.rest := by
    rw [left, ← behind', ← reached'.1, behind', ← left, ← whole.1]
  obtain rfl := List.append_cancel_right together'
  exact ⟨fun broken => notMem (fun ch mem => inside ch (List.mem_append_left _ mem)) broken.2.2,
    Prod.ext same (reached'.unique whole)⟩

/-- A lexeme that no line feed breaks is read as before, and one that a line feed breaks is not. -/
theorem scan_returned (next : c.peek = some first) (inline : isBreak first = false)
    (read : scan c = (kind, d)) (known : kind ≠ .unknown) (reached : c.Reaches word d)
    (offset' : Nat) :
    (¬ Broken kind word → scan ⟨offset', withReturns c.rest⟩
        = (kind, ⟨offset' + byteLength (withReturns word), withReturns d.rest⟩)) ∧
      (Broken kind word → (scan ⟨offset', withReturns c.rest⟩).1 = .unknown) := by
  cases begins : startsString c with
  | true => exact scan_literal_withReturns begins read known reached offset'
  | false =>
    obtain ⟨intact, again⟩ := scan_withReturns begins next inline read reached offset'
    exact ⟨fun _ => again, fun broken => absurd broken intact⟩

end Lexeme

/-! ### Lexers -/

/-- The kind of a token and its text. -/
def Token.reading (source : List Char) (t : Token) : Kind × Option (List Char) :=
  (t.kind, t.text? source)

/-- A token that is no string literal between single quotes with a line feed in it. -/
def Token.Intact (source : List Char) (t : Token) : Prop :=
  t.kind = .string → ∀ word, t.text? source = some word → Lexeme.isTriple word = false → '\n' ∉ word

/-- Tokens of a text and as many of the text with carriage returns, of the same kinds and with the
texts that go with each other. -/
def Agreeing (source : List Char) (ts ts' : List Token) : Prop :=
  ts'.map (Token.reading (withReturns source))
    = (ts.map (Token.reading source)).map (Prod.map id (Option.map withReturns))

namespace Agreeing

variable {source : List Char} {ts ts' us us' : List Token}

theorem append (first : Agreeing source ts ts') (second : Agreeing source us us') :
    Agreeing source (ts ++ us) (ts' ++ us') := by
  rw [Agreeing, List.map_append, first, second, List.map_append, List.map_append]

theorem map_kind (agreeing : Agreeing source ts ts') : ts'.map (·.kind) = ts.map (·.kind) := by
  have kinds := congrArg (List.map Prod.fst) agreeing
  simpa [List.map_map, Function.comp_def, Token.reading] using kinds

/-- Tokens without text go with others of the same kinds. -/
theorem of_empty {offset offset' : Nat} (kinds : ts'.map (·.kind) = ts.map (·.kind))
    (boundary : Text.Boundary source offset) (empty : ∀ t ∈ ts, t.span = .empty offset)
    (boundary' : Text.Boundary (withReturns source) offset')
    (empty' : ∀ t ∈ ts', t.span = .empty offset') : Agreeing source ts ts' := by
  have readings {source : List Char} {ts : List Token} {offset : Nat}
      (boundary : Text.Boundary source offset) (empty : ∀ t ∈ ts, t.span = .empty offset) :
      ts.map (Token.reading source) = (ts.map (·.kind)).map fun kind => (kind, some []) := by
    rw [List.map_map]
    refine List.map_congr_left fun t mem => ?_
    rw [Token.reading, Token.text?_of_empty (empty t mem) boundary]
    rfl
  rw [Agreeing, readings boundary empty, readings boundary' empty', kinds, List.map_map,
    List.map_map]
  rfl

end Agreeing

/-- A token is broken if its text is. -/
theorem Token.intact_iff {source word : List Char} {t : Token} (cut : t.text? source = some word) :
    t.Intact source ↔ ¬ Lexeme.Broken t.kind word := by
  constructor
  · rintro intact ⟨isString, single, mem⟩
    exact intact isString word cut single mem
  · rintro intact isString word' cut' single mem
    obtain rfl : word = word' := Option.some.inj (cut.symm.trans cut')
    exact intact ⟨isString, single, mem⟩

/-- A token without text has no line feed in it. -/
theorem Token.intact_of_empty {source : List Char} {t : Token} {offset : Nat}
    (empty : t.span = .empty offset) (boundary : Text.Boundary source offset) : t.Intact source :=
  (intact_iff (text?_of_empty empty boundary)).2 fun broken => List.not_mem_nil broken.2.2

namespace Lexer

variable {source : List Char} {l : Lexer} {offset : Nat}

/-- The lexer at the same place of the text with carriage returns. -/
def returned (l : Lexer) (offset : Nat) : Lexer :=
  { l with cursor := ⟨offset, withReturns l.cursor.rest⟩ }

/-- What a lexer and the one at the same place of the text with carriage returns come to: tokens that
go with each other, or the first literal that a line feed breaks. -/
inductive Beside (source : List Char) :
    List Token × Option Lexer → List Token × Option Lexer → Prop where
  | ends {ts ts' : List Token} (agreeing : Agreeing source ts ts')
      (intact : ∀ t ∈ ts, t.Intact source) : Beside source (ts, none) (ts', none)
  | goes {ts ts' : List Token} {next : Lexer} {offset : Nat} (agreeing : Agreeing source ts ts')
      (intact : ∀ t ∈ ts, t.Intact source) :
      Beside source (ts, some next) (ts', some (next.returned offset))
  | breaks {ts ts' : List Token} {t t' : Token} {next next' : Lexer}
      (length : ts'.length = ts.length) (broken : ¬ t.Intact source) (kind : t.kind = .string)
      (kind' : t'.kind = .unknown) :
      Beside source (ts ++ [t], some next) (ts' ++ [t'], some next')

/-- Tokens that go with each other may come before. -/
theorem Beside.prepend {ts ts' : List Token} {read read' : List Token × Option Lexer}
    (agreeing : Agreeing source ts ts') (intact : ∀ t ∈ ts, t.Intact source)
    (beside : Beside source read read') :
    Beside source (ts ++ read.1, read.2) (ts' ++ read'.1, read'.2) := by
  have both {us : List Token} (later : ∀ t ∈ us, t.Intact source) : ∀ t ∈ ts ++ us, t.Intact source :=
    fun t mem => (List.mem_append.1 mem).elim (intact t) (later t)
  cases beside with
  | ends agreeing' intact' => exact .ends (agreeing.append agreeing') (both intact')
  | goes agreeing' intact' => exact .goes (agreeing.append agreeing') (both intact')
  | breaks length broken kind kind' =>
    have same : ts'.length = ts.length := by simpa using congrArg List.length agreeing.map_kind
    dsimp only
    rw [← List.append_assoc, ← List.append_assoc]
    exact .breaks (by simp [same, length]) broken kind kind'

/-- The tokens that a line begins with have the same kinds everywhere. -/
theorem indentation_offset (levels : List Nat) (width offset offset' : Nat) :
    (indentation levels width offset').1.map (·.kind)
        = (indentation levels width offset).1.map (·.kind) ∧
      (indentation levels width offset').2 = (indentation levels width offset).2 := by
  unfold indentation
  dsimp only
  split
  · exact ⟨rfl, rfl⟩
  · refine ⟨?_, rfl⟩
    split <;> simp [Token.empty]

theorem closing_offset (last : Option Kind) (levels : List Nat) (offset offset' : Nat) :
    (closing last levels offset').map (·.kind) = (closing last levels offset).map (·.kind) := by
  unfold closing
  dsimp only
  split <;> simp [Token.empty]

/-- The text with carriage returns has the same lines. -/
theorem beginLine_returned (clean : '\r' ∉ l.cursor.rest) (offset : Nat) :
    ∃ offset', (l.returned offset).beginLine.2 = l.beginLine.2.returned offset' ∧
      (l.returned offset).beginLine.1.map (·.kind) = l.beginLine.1.map (·.kind) := by
  by_cases begins : (l.atLineStart && l.depth == 0) = true
  · obtain ⟨same, rest⟩ := @lineStart_withReturns false 0 l.cursor.offset l.cursor.rest clean offset
    have begins' : ((l.returned offset).atLineStart && (l.returned offset).depth == 0) = true :=
      begins
    rw [beginLine, beginLine, if_pos begins, if_pos begins']
    dsimp only [returned]
    generalize lineStart false 0 offset (withReturns l.cursor.rest) = found' at same rest
    generalize lineStart false 0 l.cursor.offset l.cursor.rest = found at same rest
    obtain ⟨width', offset', rest'⟩ := found'
    obtain ⟨width, c⟩ := found
    obtain rfl : width' = width := same
    obtain rfl : rest' = withReturns c.rest := rest
    refine ⟨offset', ?_⟩
    cases width' with
    | none => exact ⟨rfl, rfl⟩
    | some width =>
      obtain ⟨kinds, levels⟩ := indentation_offset l.levels width c.offset offset'
      refine ⟨?_, kinds⟩
      simp only [levels, ← List.getLast?_map, kinds]
  · have begins' : ¬ ((l.returned offset).atLineStart && (l.returned offset).depth == 0) = true :=
      begins
    rw [beginLine, beginLine, if_neg begins, if_neg begins']
    exact ⟨offset, rfl, rfl⟩

theorem agreeing_tokenBetween {c d c' d' : Cursor} {kind : Kind} {word : List Char}
    (within : (Cursor.ofText source).Ahead c) (within' : (Cursor.ofText (withReturns source)).Ahead c')
    (reached : c.Reaches word d) (reached' : c'.Reaches (withReturns word) d') :
    Agreeing source [tokenBetween kind c d] [tokenBetween kind c' d'] := by
  simp only [Agreeing, List.map_cons, List.map_nil, Token.reading,
    Token.text?_tokenBetween within reached, Token.text?_tokenBetween within' reached']
  rfl

/-- A lexeme, with the lexer after it. -/
theorem beside_scan {c : Cursor} {first : Char} (next : c.peek = some first)
    (inline : isBreak first = false) (known : (Lexeme.scan c).1 ≠ .unknown)
    (here : (Cursor.ofText source).Ahead c)
    (here' : (Cursor.ofText (withReturns source)).Ahead ⟨offset, withReturns c.rest⟩) :
    let after (read : Kind × Cursor) : Lexer :=
      { l with cursor := read.2, depth := depthAfter l.depth read.1, last := some read.1 }
    let read := Lexeme.scan c
    let read' := Lexeme.scan ⟨offset, withReturns c.rest⟩
    Beside source ([tokenBetween read.1 c read.2], some (after read))
      ([tokenBetween read'.1 ⟨offset, withReturns c.rest⟩ read'.2], some (after read')) := by
  intro after read read'
  obtain ⟨word, reached⟩ := Lexeme.ahead_scan c
  have cut : (tokenBetween read.1 c read.2).text? source = some word :=
    Token.text?_tokenBetween here reached
  obtain ⟨intact, broken⟩ := Lexeme.scan_returned next inline rfl known reached offset
  by_cases isBroken : Lexeme.Broken read.1 word
  · change Beside source ([] ++ [_], some _) ([] ++ [_], some _)
    exact .breaks rfl (fun whole => (Token.intact_iff cut).1 whole isBroken) isBroken.1
      (broken isBroken)
  · have again : read' = _ := intact isBroken
    have reached' : (⟨offset, withReturns c.rest⟩ : Cursor).Reaches (withReturns word)
        ⟨offset + byteLength (withReturns word), withReturns read.2.rest⟩ :=
      ⟨by rw [reached.1, withReturns_append], rfl⟩
    rw [again]
    refine .goes (agreeing_tokenBetween here here' reached reached') fun t mem => ?_
    rw [List.mem_singleton.1 mem]
    exact (Token.intact_iff cut).2 isBroken

/-- The lexeme or line break that comes next. -/
theorem beside_lexeme (clean : '\r' ∉ l.cursor.rest) (within : (Cursor.ofText source).Ahead l.cursor)
    (within' : (Cursor.ofText (withReturns source)).Ahead (l.returned offset).cursor)
    (known : ∀ t ∈ l.lexeme.1, t.kind ≠ .unknown) :
    Beside source l.lexeme (l.returned offset).lexeme := by
  have skipped := ahead_skipTrivia (l.depth != 0) false l.cursor.offset l.cursor.rest
  have skipped' := ahead_skipTrivia (l.depth != 0) false offset (withReturns l.cursor.rest)
  have rest := @skipTrivia_withReturns (l.depth != 0) false l.cursor.offset l.cursor.rest clean offset
  have here := within.trans skipped
  have cleaned := skipped.notMem clean
  have here' := within'.trans skipped'
  rw [Lexer.lexeme] at known ⊢
  rw [Lexer.lexeme]
  dsimp only [returned] at known ⊢
  generalize skipTrivia (l.depth != 0) false offset (withReturns l.cursor.rest) = c' at rest here' ⊢
  generalize skipTrivia (l.depth != 0) false l.cursor.offset l.cursor.rest = c at *
  obtain ⟨offset', rest'⟩ := c'
  obtain rfl : rest' = withReturns c.rest := rest
  cases split : c.rest with
  | nil =>
    have empty (offset : Nat) : ∀ t ∈ closing l.last l.levels offset, t.span = .empty offset := by
      obtain ⟨front, eq, empty⟩ := closing_eq_append l.last l.levels offset
      rw [eq]
      intro t mem
      exact (List.mem_append.1 mem).elim (empty t) fun last => by rw [List.mem_singleton.1 last]; rfl
    refine .ends ?_ fun t mem => Token.intact_of_empty (empty _ t mem) here.boundary
    exact .of_empty (closing_offset ..) here.boundary (empty _) here'.boundary (empty _)
  | cons ch cs =>
    have next : c.peek = some ch := by rw [peek, split]; rfl
    rw [split] at known
    by_cases breaks : isBreak ch = true
    · obtain rfl := eq_feed breaks (split ▸ cleaned)
      obtain ⟨start, rest⟩ := c
      obtain rfl : rest = '\n' :: cs := split
      have reached : (⟨start, '\n' :: cs⟩ : Cursor).Reaches ['\n'] ⟨start + 1, cs⟩ := ⟨rfl, rfl⟩
      have reached' : (⟨offset', '\r' :: '\n' :: withReturns cs⟩ : Cursor).Reaches ['\r', '\n']
          ⟨offset' + 1 + 1, withReturns cs⟩ := ⟨rfl, rfl⟩
      refine .goes (agreeing_tokenBetween here here' reached reached') fun t mem kind => ?_
      rw [List.mem_singleton.1 mem] at kind
      cases kind
    · simp only [breaks, Bool.false_eq_true, if_false] at known
      have known := known _ (List.mem_singleton_self _)
      simp only [withReturns_cons (ne_feed breaks), breaks, Bool.false_eq_true, if_false]
      rw [← withReturns_cons (ne_feed breaks), ← split]
      exact beside_scan next (Bool.eq_false_iff.2 breaks) known here here'

/-- One step of a lexer and of the one at the same place of the text with carriage returns. -/
theorem beside_step (clean : '\r' ∉ source) (reached : Reached source l)
    (reached' : Reached (withReturns source) (l.returned offset))
    (known : ∀ t ∈ l.step.1, t.kind ≠ .unknown) :
    Beside source l.step (l.returned offset).step := by
  obtain ⟨offset', started, kinds⟩ :=
    beginLine_returned (reached.sound.within.notMem clean) offset
  have begun := reached.sound.beginLine.1
  have begun' := reached'.sound.beginLine.1
  have empty := l.beginLine_skips.2
  have empty' := (l.returned offset).beginLine_skips.2
  have opening : Agreeing source l.beginLine.1 (l.returned offset).beginLine.1 :=
    .of_empty kinds begun.within.boundary empty begun'.within.boundary empty'
  rw [started] at begun'
  have later := beside_lexeme (begun.within.notMem clean) begun.within begun'.within fun t mem =>
    known t (List.mem_append_right _ mem)
  rw [← started] at later
  exact later.prepend opening fun t mem => Token.intact_of_empty (empty t mem) begun.within.boundary

/-- Either all tokens go with each other, or the kinds differ from the first literal on that a line
feed breaks. -/
theorem tokens_beside (clean : '\r' ∉ source) (reached : Reached source l)
    (reached' : Reached (withReturns source) (l.returned offset))
    (known : ∀ t ∈ l.tokens, t.kind ≠ .unknown) :
    (Agreeing source l.tokens (l.returned offset).tokens ∧ ∀ t ∈ l.tokens, t.Intact source) ∨
      ((l.returned offset).tokens.map (·.kind) ≠ l.tokens.map (·.kind) ∧
        ∃ t ∈ l.tokens, ¬ t.Intact source) := by
  induction l using Lexer.tokens.induct generalizing offset with
  | case1 l ts found =>
    rw [tokens_of_step_none found] at known ⊢
    have beside := beside_step clean reached reached' (by rwa [found])
    rw [found] at beside
    generalize read : (l.returned offset).step = read' at beside
    cases beside with
    | ends agreeing intact =>
      rw [tokens_of_step_none read]
      exact .inl ⟨agreeing, intact⟩
  | case2 l ts next found ih =>
    rw [tokens_of_step_some found] at known ⊢
    rw [List.forall_mem_append] at known
    have beside := beside_step clean reached reached' (by rw [found]; exact known.1)
    rw [found] at beside
    generalize read : (l.returned offset).step = read' at beside
    cases beside with
    | goes agreeing intact =>
      rw [tokens_of_step_some read]
      rcases ih (.step reached found) (.step reached' read) known.2 with
        ⟨later, intact'⟩ | ⟨differ, t, mem, broken⟩
      · exact .inl ⟨agreeing.append later, List.forall_mem_append.2 ⟨intact, intact'⟩⟩
      · refine .inr ⟨fun same => differ ?_, t, List.mem_append_right _ mem, broken⟩
        rw [List.map_append, List.map_append, agreeing.map_kind] at same
        exact List.append_cancel_left same
    | breaks length broken kind kind' =>
      rw [tokens_of_step_some read]
      refine .inr ⟨fun same => ?_, _, by simp, broken⟩
      simp only [List.map_append, List.map_cons, List.map_nil, List.append_assoc] at same
      have later := List.append_inj_right same (by simp [length])
      simp [kind, kind'] at later

end Lexer

/-- Where no token of a text is unknown, the tokens of the text with carriage returns are of the same
kinds, and their texts are those of the tokens with carriage returns, if and only if no string literal
between single quotes goes on in a second line. -/
theorem tokenize_withReturns_tfae (text : String) (clean : '\r' ∉ text.toList)
    (known : ∀ t ∈ tokenize text, t.kind ≠ .unknown) :
    [(tokenize (String.ofList (withReturns text.toList))).map
          (Token.reading (withReturns text.toList))
        = (tokenize text).map fun t => (t.kind, (t.text? text.toList).map withReturns),
      (tokenize (String.ofList (withReturns text.toList))).map (·.kind)
        = (tokenize text).map (·.kind),
      ∀ t ∈ tokenize text, t.kind = .string → ∀ word, t.text? text.toList = some word →
        Lexeme.isTriple word = false → '\n' ∉ word].TFAE := by
  have reached' : Lexer.Reached (withReturns text.toList) ((Lexer.ofText text.toList).returned 0) :=
    .start
  rw [tokenize, tokenize, String.toList_ofList]
  have beside := Lexer.tokens_beside clean .start reached' known
  tfae_have 1 → 2 := fun readings => by
    have kinds := congrArg (List.map Prod.fst) readings
    simpa [List.map_map, Function.comp_def, Token.reading] using kinds
  tfae_have 2 → 3 := fun same => by
    rcases beside with ⟨-, intact⟩ | ⟨differ, -⟩
    · exact intact
    · exact absurd same differ
  tfae_have 3 → 1 := fun intact => by
    rcases beside with ⟨agreeing, -⟩ | ⟨-, t, mem, broken⟩
    · rw [Agreeing, List.map_map] at agreeing
      exact agreeing
    · exact absurd (intact t mem) broken
  tfae_finish

/-- A literal between three quotes that goes on in a second line, before a line that does. -/
def threeQuotes : String := "'''\n''' \\\n~"

theorem tokenize_threeQuotes : tokenize threeQuotes
    = [⟨.string, 0, 7, by decide⟩, ⟨.tilde, 10, 11, by decide⟩, .empty .newline 11,
        .empty .eof 11] := by
  have first : (Lexer.ofText threeQuotes.toList).step
      = ([⟨.string, 0, 7, by decide⟩],
        some ⟨⟨7, " \\\n~".toList⟩, [], 0, false, some .string⟩) := by
    decide +kernel
  have second : (⟨⟨7, " \\\n~".toList⟩, [], 0, false, some .string⟩ : Lexer).step
      = ([⟨.tilde, 10, 11, by decide⟩], some ⟨⟨11, []⟩, [], 0, false, some .tilde⟩) := by
    decide +kernel
  rw [tokenize, Lexer.tokens_of_step_some first, Lexer.tokens_of_step_some second, Lexer.tokens_end]
  rfl

/-- Both lines are read with carriage returns. -/
theorem tokenize_withReturns_threeQuotes :
    (∀ t ∈ tokenize threeQuotes, t.kind ≠ .unknown) ∧
      (tokenize (String.ofList (withReturns threeQuotes.toList))).map
          (Token.reading (withReturns threeQuotes.toList))
        = [(.string, some "'''\r\n'''".toList), (.tilde, some ['~']), (.newline, some []),
            (.eof, some [])] := by
  have clean : '\r' ∉ threeQuotes.toList := by decide
  have known : ∀ t ∈ tokenize threeQuotes, t.kind ≠ .unknown := by
    rw [tokenize_threeQuotes]
    decide
  have intact : ∀ t ∈ tokenize threeQuotes, t.kind = .string → ∀ word,
      t.text? threeQuotes.toList = some word → Lexeme.isTriple word = false → '\n' ∉ word := by
    rw [tokenize_threeQuotes]
    refine List.forall_mem_cons.2 ⟨fun _ word cut single => ?_, by simp [Token.empty]⟩
    obtain rfl : word = "'''\n'''".toList := Option.some.inj (cut.symm.trans (by decide +kernel))
    exact absurd single (by decide)
  have readings := ((tokenize_withReturns_tfae threeQuotes clean known).out 2 0).1 intact
  refine ⟨known, readings.trans ?_⟩
  rw [tokenize_threeQuotes]
  decide +kernel

/-- A literal between single quotes that goes on in a second line. -/
def continuedLiteral : String := "'x\\\ny'"

/-- The backslash takes the carriage return, and the line feed ends the literal. -/
theorem tokenize_withReturns_continuedLiteral :
    '\r' ∉ continuedLiteral.toList ∧ (∀ t ∈ tokenize continuedLiteral, t.kind ≠ .unknown) ∧
      (tokenize continuedLiteral).map (·.kind) = [.string, .newline, .eof] ∧
      (tokenize (String.ofList (withReturns continuedLiteral.toList))).map (·.kind)
        = [.unknown, .name, .unknown, .newline, .eof] := by
  have whole : (Lexer.ofText continuedLiteral.toList).step
      = ([⟨.string, 0, 6, by decide⟩], some ⟨⟨6, []⟩, [], 0, false, some .string⟩) := by
    decide +kernel
  have first : (Lexer.ofText (withReturns continuedLiteral.toList)).step
      = ([⟨.unknown, 0, 5, by decide⟩], some ⟨⟨5, "y'".toList⟩, [], 0, false, some .unknown⟩) := by
    decide +kernel
  have second : (⟨⟨5, "y'".toList⟩, [], 0, false, some .unknown⟩ : Lexer).step
      = ([⟨.name, 5, 6, by decide⟩], some ⟨⟨6, "'".toList⟩, [], 0, false, some .name⟩) := by
    decide +kernel
  have third : (⟨⟨6, "'".toList⟩, [], 0, false, some .name⟩ : Lexer).step
      = ([⟨.unknown, 6, 7, by decide⟩], some ⟨⟨7, []⟩, [], 0, false, some .unknown⟩) := by
    decide +kernel
  have tokens : tokenize continuedLiteral
      = [⟨.string, 0, 6, by decide⟩, .empty .newline 6, .empty .eof 6] := by
    rw [tokenize, Lexer.tokens_of_step_some whole, Lexer.tokens_end]
    rfl
  refine ⟨by decide, by rw [tokens]; decide, by rw [tokens]; rfl, ?_⟩
  rw [tokenize, String.toList_ofList, Lexer.tokens_of_step_some first,
    Lexer.tokens_of_step_some second, Lexer.tokens_of_step_some third, Lexer.tokens_end]
  rfl

end SureCode
