import Mathlib
import SureCode.Json.Printer
import SureCode.Json.Reader

/-!
# Written numbers and strings read back

A number ends where a separator begins, so reading one before a separator is the same as reading it
alone (`number?_append`). Whole numbers are read back from their digits and strings from their
quoted characters.
-/

namespace SureCode.Json

/-! ### Numbers before a separator -/

/-- The text ends, or goes on with what separates or closes. -/
def Ends (rest : List Char) : Prop := ∀ c ∈ rest.head?, c = ',' ∨ c = ']' ∨ c = '\x7d'

theorem ends_nil : Ends [] := nofun

theorem ends_cons {c : Char} {cs : List Char} (separates : c = ',' ∨ c = ']' ∨ c = '\x7d') :
    Ends (c :: cs) := by
  intro d mem
  cases mem
  exact separates

variable {cs rest : List Char}

theorem digitSpan_of_ends (ends : Ends rest) : digitSpan rest = ([], rest) := by
  cases rest with
  | nil => rfl
  | cons c rest =>
    have other : ¬ c.isDigit = true := by
      obtain rfl | rfl | rfl := ends c rfl <;> decide
    rw [digitSpan, List.span_eq_takeWhile_dropWhile, List.takeWhile_cons_of_neg other,
      List.dropWhile_cons_of_neg other]

theorem digitSpan_cons (c : Char) (cs : List Char) : digitSpan (c :: cs)
    = if c.isDigit then (c :: (digitSpan cs).1, (digitSpan cs).2) else ([], c :: cs) := by
  simp only [digitSpan, List.span_eq_takeWhile_dropWhile, List.takeWhile_cons, List.dropWhile_cons]
  cases c.isDigit <;> rfl

theorem digitSpan_append (ends : Ends rest) (cs : List Char) :
    digitSpan (cs ++ rest) = ((digitSpan cs).1, (digitSpan cs).2 ++ rest) := by
  induction cs with
  | nil => exact digitSpan_of_ends ends
  | cons c cs ih =>
    rw [List.cons_append, digitSpan_cons, digitSpan_cons, ih]
    cases c.isDigit <;> rfl

theorem fraction?_point (cs : List Char) : fraction? ('.' :: cs)
    = if (digitSpan cs).1 = [] then none else some (some (digitSpan cs).1, (digitSpan cs).2) := by
  rw [fraction?]
  split
  · rename_i spanned
    rw [spanned, if_pos rfl]
  · rename_i digits rest nonempty spanned
    rw [spanned, if_neg nonempty]

theorem fraction?_of_ne {c : Char} (ne : c ≠ '.') (cs : List Char) :
    fraction? (c :: cs) = some (none, c :: cs) := by
  rw [fraction?]
  intro cs eq
  exact ne (List.cons.inj eq).1

theorem fraction?_append (ends : Ends rest) (cs : List Char) :
    fraction? (cs ++ rest) = (fraction? cs).map fun (places, cs) => (places, cs ++ rest) := by
  cases cs with
  | nil =>
    cases rest with
    | nil => rfl
    | cons c rest =>
      have other : c ≠ '.' := by
        obtain rfl | rfl | rfl := ends c rfl <;> decide
      exact fraction?_of_ne other rest
  | cons c cs =>
    by_cases point : c = '.'
    · subst point
      rw [List.cons_append, fraction?_point, fraction?_point, digitSpan_append ends]
      split <;> rfl
    · rw [List.cons_append, fraction?_of_ne point, fraction?_of_ne point]
      rfl

/-- The sign of an exponent, with what follows it. -/
def signOf : List Char → Int × List Char
  | '+' :: cs => (1, cs)
  | '-' :: cs => (-1, cs)
  | cs => (1, cs)

theorem signOf_of_ne {c : Char} (plus : c ≠ '+') (minus : c ≠ '-') (cs : List Char) :
    signOf (c :: cs) = (1, c :: cs) := by
  unfold signOf
  split
  · rename_i eq
    exact absurd (List.cons.inj eq).1 plus
  · rename_i eq
    exact absurd (List.cons.inj eq).1 minus
  · rfl

theorem signOf_append (ends : Ends rest) (cs : List Char) :
    signOf (cs ++ rest) = ((signOf cs).1, (signOf cs).2 ++ rest) := by
  cases cs with
  | nil =>
    cases rest with
    | nil => rfl
    | cons c rest =>
      refine signOf_of_ne ?_ ?_ rest <;> obtain rfl | rfl | rfl := ends c rfl <;> decide
  | cons c cs =>
    by_cases plus : c = '+'
    · subst plus
      rfl
    by_cases minus : c = '-'
    · subst minus
      rfl
    rw [List.cons_append, signOf_of_ne plus minus, signOf_of_ne plus minus]
    rfl

/-- After its letter an exponent is a sign and at least one digit. -/
theorem exponent?_cons_of_mark {c : Char} (mark : c = 'e' ∨ c = 'E') (cs : List Char) :
    exponent? (c :: cs) = match digitSpan (signOf cs).2 with
      | ([], _) => none
      | (digits, rest) => some (some ((signOf cs).1 * natOfDigits digits), rest) := by
  unfold exponent? signOf
  dsimp only
  exact if_pos mark

theorem exponent?_mark {c : Char} (mark : c = 'e' ∨ c = 'E') (cs : List Char) :
    exponent? (c :: cs) = if (digitSpan (signOf cs).2).1 = [] then none
      else some (some ((signOf cs).1 * natOfDigits (digitSpan (signOf cs).2).1),
        (digitSpan (signOf cs).2).2) := by
  rw [exponent?_cons_of_mark mark]
  split
  · rename_i spanned
    rw [spanned, if_pos rfl]
  · rename_i digits rest nonempty spanned
    rw [spanned, if_neg nonempty]

theorem exponent?_of_ne {c : Char} (other : ¬ (c = 'e' ∨ c = 'E')) (cs : List Char) :
    exponent? (c :: cs) = some (none, c :: cs) := by
  unfold exponent?
  dsimp only
  rw [if_neg other]

theorem exponent?_append (ends : Ends rest) (cs : List Char) :
    exponent? (cs ++ rest) = (exponent? cs).map fun (power, cs) => (power, cs ++ rest) := by
  cases cs with
  | nil =>
    cases rest with
    | nil => rfl
    | cons c rest =>
      refine exponent?_of_ne ?_ rest
      obtain rfl | rfl | rfl := ends c rfl <;> decide
  | cons c cs =>
    by_cases mark : c = 'e' ∨ c = 'E'
    · rw [List.cons_append, exponent?_mark mark, exponent?_mark mark, signOf_append ends,
        digitSpan_append ends]
      split <;> rfl
    · rw [List.cons_append, exponent?_of_ne mark, exponent?_of_ne mark]
      rfl

/-- A number ends where a separator begins. -/
theorem number?_append (ends : Ends rest) (negative : Bool) (cs : List Char) :
    number? negative (cs ++ rest)
      = (number? negative cs).map fun (json, cs) => (json, cs ++ rest) := by
  unfold number?
  rw [digitSpan_append ends]
  generalize digitSpan cs = p
  obtain ⟨whole, after⟩ := p
  dsimp only
  rw [fraction?_append ends]
  generalize (whole ≠ [] && (whole.length == 1 || whole.head? != some '0')) = wanted
  cases wanted with
  | false => rfl
  | true =>
    cases fraction? after with
    | none => rfl
    | some p =>
      obtain ⟨places, after⟩ := p
      simp only [Option.map_some, guard, if_true, Option.bind_eq_bind, Option.bind_some,
        Option.pure_def, exponent?_append ends]
      cases exponent? after with
      | none => rfl
      | some p =>
        obtain ⟨power, after⟩ := p
        simp only [Option.map_some, Option.bind_some]
        split <;> rfl

/-! ### Whole numbers -/

theorem natOfDigits_toDigits (n : Nat) : natOfDigits (Nat.toDigits 10 n) = n := by
  have spelled := Nat.ofDigitChars_ten_toDigits (n := n)
  rwa [Nat.ofDigitChars_eq_foldl] at spelled

/-- The first digit of a positive number is no zero. -/
theorem head?_toDigits_ne {n : Nat} (pos : 0 < n) : (Nat.toDigits 10 n).head? ≠ some '0' := by
  induction n using Nat.strongRecOn with
  | ind n ih =>
    by_cases small : n < 10
    · rw [Nat.toDigits_of_lt_base small]
      interval_cases n <;> decide
    · rw [Nat.toDigits_of_base_le (by decide) (by omega),
        List.head?_append_of_ne_nil _ Nat.toDigits_ne_nil]
      exact ih (n / 10) (by omega) (by omega)

theorem digitSpan_toDigits (n : Nat) : digitSpan (Nat.toDigits 10 n) = (Nat.toDigits 10 n, []) := by
  have all : ∀ c ∈ Nat.toDigits 10 n, c.isDigit = true := fun c mem =>
    Nat.isDigit_of_mem_toDigits (by decide) (by decide) mem
  rw [digitSpan, List.span_eq_takeWhile_dropWhile, List.takeWhile_eq_self_iff.2 all,
    List.dropWhile_eq_nil_iff.2 all]

theorem number?_toDigits (negative : Bool) {n : Nat} (nonzero : negative = true → 0 < n) :
    number? negative (Nat.toDigits 10 n) = some (.int (if negative then -n else n), []) := by
  have plain : (Nat.toDigits 10 n ≠ [] && ((Nat.toDigits 10 n).length == 1
      || (Nat.toDigits 10 n).head? != some '0')) = true := by
    obtain rfl | pos := Nat.eq_zero_or_pos n
    · rfl
    · simp [head?_toDigits_ne pos]
  unfold number?
  simp only [digitSpan_toDigits, plain]
  simpa [guard, fraction?, exponent?, natOfDigits_toDigits] using
    fun signed => (nonzero signed).ne'

/-! ### Strings -/

theorem hexUnit?_digits : ∀ n < 32,
    hexUnit? '0' '0' (Nat.digitChar (n / 16)) (Nat.digitChar (n % 16)) = some n := by
  decide

/-- One unit before those of the rest. -/
def withUnit (unit : Nat) : List Nat × List Char → List Nat × List Char
  | (units, rest) => (unit :: units, rest)

theorem units?_letter {letter c : Char} (escape : simpleEscape? letter = some c) (cs : List Char) :
    units? ('\\' :: letter :: cs) = (units? cs).map (withUnit c.toNat) := by
  have other : letter ≠ 'u' := by
    rintro rfl
    cases escape
  rw [units?]
  · rw [escape]
    cases units? cs <;> rfl
  · intro a b c d cs eq
    exact absurd eq other

theorem units?_escaped (c : Char) (cs : List Char) :
    units? (escaped c ++ cs) = (units? cs).map (withUnit c.toNat) := by
  unfold escaped
  split
  · subst_vars
    exact units?_letter rfl cs
  split
  · subst_vars
    exact units?_letter rfl cs
  split
  · subst_vars
    exact units?_letter rfl cs
  split
  · subst_vars
    exact units?_letter rfl cs
  split
  · subst_vars
    exact units?_letter rfl cs
  split
  · rename_i code
    rw [code]
    exact units?_letter (c := '\x08') rfl cs
  split
  · rename_i code
    rw [code]
    exact units?_letter (c := '\x0c') rfl cs
  split
  · rename_i control
    have control_eq := hexUnit?_digits c.toNat control
    change units? ('\\' :: 'u' :: '0' :: '0' :: Nat.digitChar (c.toNat / 16)
      :: Nat.digitChar (c.toNat % 16) :: cs) = _
    rw [units?, control_eq]
    cases units? cs <;> rfl
  · rename_i quote backslash _ _ _ _ _ printable
    change units? (c :: cs) = _
    rw [units?]
    · have : 32 ≤ c.toNat := Nat.le_of_not_lt printable
      simp only [guard, this, if_true]
      cases units? cs <;> rfl
    · exact quote
    · intro a b c d cs eq
      exact absurd eq backslash
    · intro letter cs eq
      exact absurd eq backslash

theorem units?_quoted (cs rest : List Char) :
    units? (cs.flatMap escaped ++ '"' :: rest) = some (cs.map Char.toNat, rest) := by
  induction cs with
  | nil => simp [units?]
  | cons c cs ih =>
    rw [List.flatMap_cons, List.append_assoc, units?_escaped, ih]
    rfl

theorem textOfUnits?_map_toNat (cs : List Char) : textOfUnits? (cs.map Char.toNat) = some cs := by
  induction cs with
  | nil => simp [textOfUnits?]
  | cons c cs ih =>
    have valid : c.toNat < 0xD800 ∨ 0xDFFF < c.toNat ∧ c.toNat < 0x110000 := c.valid
    rw [List.map_cons, textOfUnits?.eq_def]
    dsimp only
    rw [if_neg (by omega), if_neg (by omega), ih, Option.map_some, Char.ofNat_toNat]

theorem string?_quoted (text : String) (rest : List Char) :
    string? (text.toList.flatMap escaped ++ '"' :: rest) = some (some text, rest) := by
  rw [string?, units?_quoted]
  simp [textOfUnits?_map_toNat]

end SureCode.Json
