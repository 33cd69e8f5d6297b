import Mathlib
import SureCode.Proofs.Token.Lookahead

/-!
# String literals

A string literal is an `Opening`, which is at most two letters and one quote or three, and what
`Closes` it: its contents up to the quotes that the opening asks for. Nothing else is read as a
literal (`exists_literal`), and a literal is read as one, whatever comes after it (`scan_literal`).
-/

namespace SureCode.Lexeme

open Cursor

/-! ### What closes a literal -/

/-- The contents of a string literal and its closing quote. -/
inductive Closes (quote : Char) : Bool → List Char → Prop where
  | single : Closes quote false [quote]
  | triple : Closes quote true [quote, quote, quote]
  | escape {triple : Bool} {body : List Char} (ch : Char) (rest : Closes quote triple body) :
      Closes quote triple ('\\' :: ch :: body)
  | char {triple : Bool} {ch : Char} {body : List Char} (plain : ch ≠ '\\')
      (inline : isBreak ch = true → triple = true)
      (inside : ch = quote → triple = true ∧ ¬ [quote, quote] <+: body)
      (rest : Closes quote triple body) : Closes quote triple (ch :: body)

section Strings

variable {quote : Char} {triple : Bool} {offset : Nat} {cs body rest : List Char} {c d : Cursor}

/-- What is read of a literal that is closed. -/
theorem exists_closes (closed : stringBody quote triple offset cs = (true, d)) :
    ∃ body, (⟨offset, cs⟩ : Cursor).Reaches body d ∧ Closes quote triple body := by
  have plain {ch : Char} {cs : List Char} (last : ch = '\\' → cs = [] → False)
      (escape : ∀ a as, ch = '\\' → cs = a :: as → False) : ch ≠ '\\' := fun backslash => by
    cases cs with
    | nil => exact last backslash rfl
    | cons a as => exact escape a as backslash rfl
  fun_induction stringBody quote triple offset cs with
  | case1 | case2 | case4 => simp at closed
  | case3 offset ch cs ih =>
    obtain ⟨body, reached, closes⟩ := ih closed
    exact ⟨_, reaches_cons (reaches_cons reached), .escape ch closes⟩
  | case5 offset ch cs _ _ _ _ isQuote single =>
    obtain rfl := beq_iff_eq.1 isQuote
    obtain rfl : triple = false := by simpa using single
    obtain rfl := (Prod.mk.inj closed).2
    exact ⟨[ch], reaches_cons (.refl _), .single⟩
  | case6 offset ch _ _ isQuote notSingle second third rest quotes =>
    obtain rfl := beq_iff_eq.1 isQuote
    obtain rfl : triple = true := by simpa using notSingle
    obtain ⟨rfl, rfl⟩ : second = ch ∧ third = ch := by simpa using quotes
    obtain rfl := (Prod.mk.inj closed).2
    exact ⟨[_, _, _], reaches_cons (reaches_cons (reaches_cons (.refl _))), .triple⟩
  | case7 offset ch _ _ isQuote notSingle second third rest differ last escape ih =>
    obtain ⟨body, reached, closes⟩ := ih closed
    have isTriple : triple = true := by simpa using notSingle
    refine ⟨_, reaches_cons reached,
      .char (plain last escape) (fun _ => isTriple) (fun _ => ⟨isTriple, ?_⟩) closes⟩
    rintro ⟨more, rfl⟩
    obtain ⟨rfl, rfl, -⟩ : second = quote ∧ third = quote ∧ _ := by simpa using reached.1
    simp at differ
  | case8 offset ch _ _ isQuote notSingle cs short last escape ih =>
    obtain ⟨body, reached, closes⟩ := ih closed
    have isTriple : triple = true := by simpa using notSingle
    refine ⟨_, reaches_cons reached,
      .char (plain last escape) (fun _ => isTriple) (fun _ => ⟨isTriple, ?_⟩) closes⟩
    rintro ⟨more, rfl⟩
    exact short _ _ _ reached.1
  | case9 offset ch cs last escape _ inline differs ih =>
    obtain ⟨body, reached, closes⟩ := ih closed
    refine ⟨_, reaches_cons reached, .char (plain last escape) (fun breaks => ?_) ?_ closes⟩
    · simpa [breaks] using inline
    · exact fun same => absurd same (by simpa using differs)

theorem Closes.exists_cons (closes : Closes quote triple body) (isTriple : triple = true) :
    ∃ a b cs, body = a :: b :: cs := by
  have nonempty {triple body} (closes : Closes quote triple body) : body ≠ [] := by
    cases closes <;> simp
  cases closes with
  | single => cases isTriple
  | triple => exact ⟨quote, quote, [quote], rfl⟩
  | @escape _ body ch rest => exact ⟨'\\', ch, body, rfl⟩
  | @char _ ch body _ _ _ rest =>
    obtain ⟨b, cs, rfl⟩ := List.exists_cons_of_ne_nil (nonempty rest)
    exact ⟨ch, b, cs, rfl⟩

/-- What a character that escapes nothing does. -/
theorem stringBody_cons {ch : Char} (plain : ch ≠ '\\') :
    stringBody quote triple offset (ch :: cs)
      = if isBreak ch && !triple then (false, ⟨offset + ch.utf8Size, cs⟩)
        else if ch == quote && (!triple || [quote, quote].isPrefixOf cs) then
          (true, if triple then ⟨offset + ch.utf8Size + quote.utf8Size + quote.utf8Size, cs.drop 2⟩
            else ⟨offset + ch.utf8Size, cs⟩)
        else stringBody quote triple (offset + ch.utf8Size) cs := by
  obtain _ | ⟨a, _ | ⟨b, cs⟩⟩ := cs
  all_goals cases triple <;> simp [stringBody, plain, List.isPrefixOf]
  grind

/-- A character inside a literal is passed. -/
theorem stringBody_char {ch : Char} (plain : ch ≠ '\\')
    (inline : isBreak ch = true → triple = true)
    (inside : ch = quote → triple = true ∧ ¬ [quote, quote] <+: cs) :
    stringBody quote triple offset (ch :: cs)
      = stringBody quote triple (offset + ch.utf8Size) cs := by
  rw [stringBody_cons plain, if_neg fun breaks => by simp_all, if_neg fun closes => ?_]
  obtain ⟨isQuote, ends⟩ := Bool.and_eq_true_iff.1 closes
  obtain ⟨rfl, others⟩ := inside (beq_iff_eq.1 isQuote)
  exact others (List.isPrefixOf_iff_prefix.1 (by simpa using ends))

/-- What closes a literal is read, whatever comes after it. -/
theorem Closes.stringBody_eq (isQuote : isQuote quote = true) (closes : Closes quote triple body) :
    stringBody quote triple offset (body ++ rest)
      = (true, ⟨offset + Text.byteLength body, rest⟩) := by
  have plain : quote ≠ '\\' := by
    rintro rfl
    exact absurd isQuote (by decide)
  have inline := inline_isQuote.isBreak isQuote
  induction closes generalizing offset with
  | single =>
    rw [List.singleton_append, stringBody_cons plain]
    simp [inline]
  | triple => simp [stringBody, plain, inline, Nat.add_assoc]
  | escape ch _ ih =>
    have size : ('\\').utf8Size = 1 := by decide
    simp [stringBody, ih, size, Nat.add_assoc]
  | @char triple ch body plain inline inside closes ih =>
    have inside' (same : ch = quote) : triple = true ∧ ¬ [quote, quote] <+: body ++ rest := by
      obtain ⟨rfl, others⟩ := inside same
      obtain ⟨a, b, cs, rfl⟩ := closes.exists_cons rfl
      exact ⟨rfl, by simpa using others⟩
    rw [List.cons_append, stringBody_char plain inline inside', ih, Text.byteLength_cons,
      Nat.add_assoc]

/-- A literal between single quotes ends at the first quote. -/
theorem Closes.not_isPrefix (isQuote : isQuote quote = true) (closes : Closes quote false body)
    (ends : rest.head? ≠ some quote) : ¬ [quote, quote] <+: body ++ rest := by
  rintro ⟨more, eq⟩
  cases closes with
  | single =>
    obtain rfl : quote :: more = rest := by simpa using eq
    exact ends rfl
  | escape ch _ =>
    obtain ⟨rfl, -⟩ : quote = '\\' ∧ _ := by simpa using eq
    exact absurd isQuote (by decide)
  | char _ _ inside =>
    obtain ⟨rfl, -⟩ : quote = _ ∧ _ := by simpa using eq
    simpa using (inside rfl).1

end Strings

/-- What a string literal begins with: at most two letters and the opening quotes. -/
structure Opening where
  letters : List Char
  quote : Char
  triple : Bool
  short : letters.length ≤ 2
  areLetters : ∀ ch ∈ letters, isStringLetter ch = true
  isQuote : isQuote quote = true

namespace Opening

variable {o : Opening} {offset : Nat} {cs body : List Char} {c d : Cursor}

/-- The letters and the opening quotes. -/
def text (o : Opening) : List Char :=
  o.letters ++ if o.triple then [o.quote, o.quote, o.quote] else [o.quote]

/-- A single opening quote is not the first of three. -/
def Fits (o : Opening) (cs : List Char) : Prop :=
  o.triple = false → ¬ [o.quote, o.quote] <+: cs

theorem isQuote_of_isStringLetter {ch : Char} (letter : isStringLetter ch = true) :
    Lexeme.isQuote ch = false := by
  by_contra quote
  rw [Bool.not_eq_false, Lexeme.isQuote, Bool.or_eq_true, beq_iff_eq, beq_iff_eq] at quote
  rcases quote with rfl | rfl <;> exact absurd letter (by decide)

/-- A literal is read from its first quote on. -/
theorem scan_eq_quotedString (o : Opening) (reached : c.Reaches (o.letters ++ [o.quote]) d) :
    scan c = quotedString o.quote d := by
  have begins : startsString c = true := 
    startsString_iff.2 ⟨o.letters, o.quote, d, o.short, o.areLetters, o.isQuote, reached⟩
  have isQuote := o.isQuote
  have areLetters := o.areLetters
  generalize o.letters = letters at reached areLetters
  cases letters with
  | nil =>
    obtain ⟨next, rfl⟩ : c.peek = some o.quote ∧ c.advance = d := by simpa using reached
    simp [scan, next, begins, string, isQuote]
  | cons a letters =>
    rw [List.forall_mem_cons] at areLetters
    rw [List.cons_append, reaches_cons_iff] at reached
    obtain ⟨next, rest, offset⟩ := reached
    have skipped : c.advance.skipWhile (fun ch => !Lexeme.isQuote ch)
        = ⟨c.advance.offset + Text.byteLength letters, o.quote :: d.rest⟩ := by
      rw [skipWhile, rest, List.append_assoc]
      exact skipFrom_append (fun ch mem => by simp [isQuote_of_isStringLetter (areLetters.2 ch mem)])
        (by simpa using isQuote)
    have read : scan c = string a c.advance := by simp [scan, next, begins]
    rw [read, string, if_neg (by simp [isQuote_of_isStringLetter areLetters.1]), skipped]
    have behind : (⟨c.advance.offset + Text.byteLength letters, o.quote :: d.rest⟩ : Cursor).advance
        = d :=
      (reaches_advance_of_peek rfl).unique ⟨rfl, by simpa [Nat.add_assoc] using offset⟩
    exact congrArg (quotedString o.quote) behind

/-- A literal is read from the end of its opening on. -/
theorem scan_eq (o : Opening) (fits : o.Fits cs) :
    scan ⟨offset, o.text ++ cs⟩
      = (if (stringBody o.quote o.triple (offset + Text.byteLength o.text) cs).1 then .string
          else .unknown,
        (stringBody o.quote o.triple (offset + Text.byteLength o.text) cs).2) := by
  have opens (cs : List Char) : (cs.head? == some o.quote && cs[1]? == some o.quote)
      = [o.quote, o.quote].isPrefixOf cs := by
    obtain _ | ⟨a, _ | ⟨b, cs⟩⟩ := cs <;> grind [List.isPrefixOf]
  cases triple : o.triple with
  | true =>
    have reached : (⟨offset, o.text ++ cs⟩ : Cursor).Reaches (o.letters ++ [o.quote])
        ⟨offset + Text.byteLength (o.letters ++ [o.quote]), o.quote :: o.quote :: cs⟩ := by
      simp [Reaches, text, triple]
    rw [o.scan_eq_quotedString reached, quotedString]
    simp [peek, second, advance, text, triple, Nat.add_assoc]
  | false =>
    have reached : (⟨offset, o.text ++ cs⟩ : Cursor).Reaches (o.letters ++ [o.quote])
        ⟨offset + Text.byteLength (o.letters ++ [o.quote]), cs⟩ := by
      simp [Reaches, text, triple]
    have single : [o.quote, o.quote].isPrefixOf cs = false := by
      rw [← Bool.not_eq_true, List.isPrefixOf_iff_prefix]
      exact fits triple
    rw [o.scan_eq_quotedString reached, quotedString, peek, second, opens, single]
    simp [text, triple]

/-- A string literal has an opening. -/
theorem exists_opening (begins : startsString c = true) :
    ∃ o : Opening, ∃ cs, c.rest = o.text ++ cs ∧ o.Fits cs := by
  obtain ⟨letters, quote, d, short, all, isQuote, reached⟩ := startsString_iff.1 begins
  by_cases triple : [quote, quote] <+: d.rest
  · obtain ⟨cs, rest⟩ := triple
    refine ⟨⟨letters, quote, true, short, all, isQuote⟩, cs, ?_, nofun⟩
    rw [reached.1, ← rest]
    simp [text]
  · refine ⟨⟨letters, quote, false, short, all, isQuote⟩, d.rest, ?_, fun _ => triple⟩
    rw [reached.1]
    rfl

/-- A literal that is closed is an opening and what closes it. -/
theorem exists_literal (begins : startsString c = true) {kind : Kind} (read : scan c = (kind, d))
    (known : kind ≠ .unknown) :
    kind = .string ∧ ∃ o : Opening, ∃ body, c.Reaches (o.text ++ body) d ∧
      Closes o.quote o.triple body ∧ o.Fits (body ++ d.rest) := by
  obtain ⟨o, cs, rest, fits⟩ := exists_opening begins
  obtain ⟨offset, rest'⟩ := c
  obtain rfl : rest' = o.text ++ cs := rest
  rw [o.scan_eq fits] at read
  obtain ⟨rfl, rfl⟩ := Prod.mk.inj read
  split at known
  · rename_i closed
    obtain ⟨body, reached, closes⟩ := exists_closes (Prod.ext closed rfl)
    have passed : (⟨offset, o.text ++ cs⟩ : Cursor).Reaches o.text
        ⟨offset + Text.byteLength o.text, cs⟩ := ⟨rfl, rfl⟩
    rw [show cs = body ++ _ from reached.1] at fits
    exact ⟨if_pos closed, o, body, passed.trans reached, closes, fits⟩
  · exact absurd rfl known

theorem fits_of_closes (closes : Closes o.quote o.triple body) (ends : cs.head? ≠ some o.quote) :
    o.Fits (body ++ cs) := fun single => by
  rw [single] at closes
  exact closes.not_isPrefix o.isQuote ends

/-- A literal that is closed is read as such, whatever comes after it. -/
theorem scan_literal (closes : Closes o.quote o.triple body) (fits : o.Fits (body ++ cs)) :
    scan ⟨offset, o.text ++ body ++ cs⟩
      = (.string, ⟨offset + Text.byteLength (o.text ++ body), cs⟩) := by
  rw [List.append_assoc, o.scan_eq fits, closes.stringBody_eq o.isQuote]
  simp [Nat.add_assoc]

end Opening

end SureCode.Lexeme
