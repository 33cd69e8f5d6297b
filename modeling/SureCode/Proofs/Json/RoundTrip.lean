import Mathlib
import SureCode.Proofs.Json.Words
import SureCode.Proofs.Scalar

/-!
# Written documents read back

A document whose strings are all texts is read back from its line, provided that each of its
numbers that is not whole reads back from its own text (`parse?_compact`). Reading needs no more
fuel than there are characters.
-/

namespace SureCode.Json

variable {cs rest : List Char}

/-! ### Lines -/

mutual

/-- The characters of a document on one line. -/
def chars : Json Float → List Char
  | .array [] => ['[', ']']
  | .array (item :: items) => '[' :: (chars item ++ itemChars items)
  | .object [] => ['\x7b', '\x7d']
  | .object ((key, value) :: fields) =>
    '\x7b' :: ((quoted key).toList ++ ':' :: (chars value ++ fieldChars fields))
  | json => (scalarText json).toList

/-- The characters of the items after the first. -/
def itemChars : List (Json Float) → List Char
  | [] => [']']
  | item :: items => ',' :: (chars item ++ itemChars items)

/-- The characters of the fields after the first. -/
def fieldChars : List (String × Json Float) → List Char
  | [] => ['\x7d']
  | (key, value) :: fields =>
    ',' :: ((quoted key).toList ++ ':' :: (chars value ++ fieldChars fields))

end

mutual

theorem toList_writeCompact (json : Json Float) (out : String) :
    (writeCompact json out).toList = out.toList ++ chars json := by
  match json with
  | .null | .untextual | .bool _ | .int _ | .real _ | .string _ =>
    simp [writeCompact, chars]
  | .array [] => simp [writeCompact, chars]
  | .array (item :: items) =>
    rw [writeCompact, chars, toList_writeItems items, toList_writeCompact item]
    simp
  | .object [] => simp [writeCompact, chars]
  | .object ((key, value) :: fields) =>
    rw [writeCompact, chars, toList_writeFields fields, toList_writeCompact value]
    simp

theorem toList_writeItems (items : List (Json Float)) (out : String) :
    (writeItems items out).toList = out.toList ++ itemChars items := by
  match items with
  | [] => simp [writeItems, itemChars]
  | item :: items =>
    rw [writeItems, itemChars, toList_writeItems items, toList_writeCompact item]
    simp

theorem toList_writeFields (fields : List (String × Json Float)) (out : String) :
    (writeFields fields out).toList = out.toList ++ fieldChars fields := by
  match fields with
  | [] => simp [writeFields, fieldChars]
  | (key, value) :: fields =>
    rw [writeFields, fieldChars, toList_writeFields fields, toList_writeCompact value]
    simp

end

/-! ### Values -/

mutual

/-- The numbers in a document that are not whole. -/
def reals {κ : Type} : Json κ → List κ
  | .real x => [x]
  | .array items => realsOfItems items
  | .object fields => realsOfFields fields
  | _ => []

/-- The numbers in some items that are not whole. -/
def realsOfItems {κ : Type} : List (Json κ) → List κ
  | [] => []
  | item :: items => reals item ++ realsOfItems items

/-- The numbers in some fields that are not whole. -/
def realsOfFields {κ : Type} : List (String × Json κ) → List κ
  | [] => []
  | (_, value) :: fields => reals value ++ realsOfFields fields

end

mutual

/-- Whether all strings in a document are texts. -/
def isTextual {κ : Type} : Json κ → Bool
  | .untextual => false
  | .array items => areTextual items
  | .object fields => haveTexts fields
  | _ => true

/-- Whether all strings in some items are texts. -/
def areTextual {κ : Type} : List (Json κ) → Bool
  | [] => true
  | item :: items => isTextual item && areTextual items

/-- Whether all strings in some fields are texts. -/
def haveTexts {κ : Type} : List (String × Json κ) → Bool
  | [] => true
  | (_, value) :: fields => isTextual value && haveTexts fields

end

/-- The text of a number that is not whole is read as just that number. -/
def ReadsBack (x : Float) : Prop :=
  value? 1 (NumberStyle.document.render x).toList = some (.real x, [])

theorem readsBack_iff {x : Float} : ReadsBack x ↔
    (match value? 1 (NumberStyle.document.render x).toList with
      | some (.real y, []) => Scalar.same y x
      | _ => false) = true := by
  unfold ReadsBack
  split
  case h_1 y read => rw [Scalar.same_iff, read, Option.some.injEq, Prod.mk.injEq, real.injEq,
    and_iff_left rfl]
  case h_2 other => exact iff_of_false (other x) Bool.false_ne_true

instance (x : Float) : Decidable (ReadsBack x) := decidable_of_iff _ readsBack_iff.symm

theorem skipBlanks_skipBlanks (cs : List Char) : skipBlanks (skipBlanks cs) = skipBlanks cs :=
  List.dropWhile_idempotent _ _

theorem skipBlanks_append (nonblank : skipBlanks cs ≠ []) (rest : List Char) :
    skipBlanks (cs ++ rest) = skipBlanks cs ++ rest := by
  unfold skipBlanks at nonblank ⊢
  rw [List.dropWhile_append, if_neg (by simpa using nonblank)]

/-- Blanks before a value do not count. -/
theorem value?_skipBlanks (fuel : Nat) (cs : List Char) :
    value? fuel (skipBlanks cs) = value? fuel cs := by
  cases fuel with
  | zero => rfl
  | succ fuel => rw [value?, value?, skipBlanks_skipBlanks]

/-- A number that is read alone is read before a separator. -/
theorem value?_real_append {x : Float} (read : value? 1 cs = some (.real x, [])) (ends : Ends rest)
    (fuel : Nat) : value? (fuel + 1) (cs ++ rest) = some (.real x, rest) := by
  have nonblank : skipBlanks cs ≠ [] := by
    intro blank
    rw [value?, blank] at read
    cases read
  have whole := skipBlanks_append nonblank rest
  rw [value?] at read
  split at read
  case h_4 minus =>
    rw [value?, whole, minus]
    change number? true (_ ++ rest) = _
    rw [number?_append ends, read]
    rfl
  case h_8 quote bracket brace minus null true false =>
    obtain ⟨c, after, eq⟩ := List.exists_cons_of_ne_nil nonblank
    rw [eq] at quote bracket brace minus null true false read whole
    rw [value?, whole, List.cons_append]
    split
    case h_8 => rw [← List.cons_append, number?_append ends, read]; rfl
    all_goals
      rename_i same
      obtain rfl := (List.cons.inj same).1
      simp at quote bracket brace minus null true false
  case h_1 =>
    obtain ⟨⟨text, _⟩, _, eq⟩ := Option.map_eq_some_iff.1 read
    cases text <;> cases eq
  case h_2 =>
    split at read
    · cases read
    · obtain ⟨_, _, eq⟩ := Option.map_eq_some_iff.1 read
      cases eq
  case h_3 =>
    split at read
    · cases read
    · obtain ⟨⟨fields, _⟩, _, eq⟩ := Option.map_eq_some_iff.1 read
      cases fields <;> cases eq
  all_goals
    obtain ⟨_, _, eq⟩ := Option.map_eq_some_iff.1 read
    cases eq

theorem value?_toDigits (fuel n : Nat) (ends : Ends rest) :
    value? (fuel + 1) (Nat.toDigits 10 n ++ rest) = some (.int n, rest) := by
  have digits : ∀ c ∈ Nat.toDigits 10 n, c.isDigit = true := fun c mem =>
    Nat.isDigit_of_mem_toDigits (by decide) (by decide) mem
  have read : number? false (Nat.toDigits 10 n ++ rest) = some (.int n, rest) := by
    rw [number?_append ends, number?_toDigits false nofun]
    rfl
  obtain ⟨c, cs, eq⟩ := List.exists_cons_of_ne_nil (Nat.toDigits_ne_nil (n := n) (b := 10))
  rw [eq] at digits read ⊢
  have digit := digits c List.mem_cons_self
  have first : skipBlanks (c :: cs ++ rest) = c :: cs ++ rest := by
    refine List.dropWhile_cons_of_neg fun blank => ?_
    simp only [Bool.or_eq_true, beq_iff_eq] at blank
    obtain ((rfl | rfl) | rfl) | rfl := blank <;> cases digit
  rw [value?, first, List.cons_append]
  split
  case h_8 => exact read
  all_goals
    rename_i same
    obtain rfl := (List.cons.inj same).1
    cases digit

/-- The three words are read before whatever follows them. -/
theorem value?_literal_append (fuel : Nat) (rest : List Char) :
    value? (fuel + 1) ("null".toList ++ rest) = some (.null, rest) ∧
      value? (fuel + 1) ("true".toList ++ rest) = some (.bool true, rest) ∧
        value? (fuel + 1) ("false".toList ++ rest) = some (.bool false, rest) := by
  refine ⟨?_, ?_, ?_⟩
  · rfl
  · rfl
  · rfl

theorem toList_quoted_append (text : String) (rest : List Char) :
    (quoted text).toList ++ rest = '"' :: (text.toList.flatMap escaped ++ '"' :: rest) := by
  simp [quoted]

theorem ends_itemChars (items : List (Json Float)) (rest : List Char) :
    Ends (itemChars items ++ rest) := by
  cases items with
  | nil => exact ends_cons (.inr (.inl rfl))
  | cons item items => exact ends_cons (.inl rfl)

theorem ends_fieldChars (fields : List (String × Json Float)) (rest : List Char) :
    Ends (fieldChars fields ++ rest) := by
  cases fields with
  | nil => exact ends_cons (.inr (.inr rfl))
  | cons field fields => exact ends_cons (.inl rfl)

theorem value?_string (fuel : Nat) (text : String) (rest : List Char) :
    value? (fuel + 1) ((quoted text).toList ++ rest) = some (.string text, rest) := by
  have opened (cs : List Char) : value? (fuel + 1) ('"' :: cs)
      = (string? cs).map fun read => (read.1.elim .untextual .string, read.2) := rfl
  rw [toList_quoted_append, opened, string?_quoted]
  rfl

theorem value?_int (fuel : Nat) (n : Int) (ends : Ends rest) :
    value? (fuel + 1) ((toString n).toList ++ rest) = some (.int n, rest) := by
  cases n with
  | ofNat n =>
    have text : (toString (Int.ofNat n)).toList = Nat.toDigits 10 n := Nat.toList_repr
    rw [text]
    exact value?_toDigits fuel n ends
  | negSucc n =>
    have text : (toString (Int.negSucc n)).toList = '-' :: Nat.toDigits 10 (n + 1) := by
      change ("-" ++ Nat.repr (n + 1)).toList = _
      rw [String.toList_append, Nat.toList_repr]
      rfl
    have signed (cs : List Char) : value? (fuel + 1) ('-' :: cs) = number? true cs := rfl
    rw [text, List.cons_append, signed, number?_append ends,
      number?_toDigits true fun _ => Nat.succ_pos n]
    rfl

/-- What starts a value starts with a character that is no blank and closes nothing. -/
theorem exists_skipBlanks_eq_cons {fuel : Nat} {json : Json Float}
    (read : value? fuel cs = some (json, rest)) :
    ∃ c after, skipBlanks cs = c :: after ∧ c ≠ ']' := by
  cases fuel with
  | zero => cases read
  | succ fuel =>
    rw [value?] at read
    cases eq : skipBlanks cs with
    | nil =>
      rw [eq] at read
      cases read
    | cons c after =>
      refine ⟨c, after, rfl, ?_⟩
      rintro rfl
      rw [eq] at read
      cases read

theorem items?_skipBlanks (fuel : Nat) (cs : List Char) :
    items? fuel (skipBlanks cs) = items? fuel cs := by
  cases fuel with
  | zero => rfl
  | succ fuel => rw [items?, items?, value?_skipBlanks]

theorem exists_value?_of_items? {fuel : Nat} {items : List (Json Float)}
    (read : items? (fuel + 1) cs = some (items, rest)) :
    ∃ json after, value? fuel cs = some (json, after) := by
  rw [items?] at read
  cases first : value? fuel cs with
  | none =>
    rw [first] at read
    cases read
  | some p => exact ⟨p.1, p.2, rfl⟩

theorem value?_bracket (fuel : Nat) (cs : List Char) :
    value? (fuel + 1) ('[' :: cs) = match skipBlanks cs with
      | ']' :: rest => some (.array [], rest)
      | cs => (items? fuel cs).map fun (items, rest) => (.array items, rest) := rfl

theorem value?_array {fuel : Nat} {items : List (Json Float)}
    (read : items? (fuel + 1) cs = some (items, rest)) :
    value? (fuel + 2) ('[' :: cs) = some (.array items, rest) := by
  obtain ⟨json, after, first⟩ := exists_value?_of_items? read
  obtain ⟨c, after', eq, ne⟩ := exists_skipBlanks_eq_cons first
  rw [← items?_skipBlanks] at read
  rw [value?_bracket]
  split
  · rename_i closed
    rw [eq] at closed
    exact absurd (List.cons.inj closed).1 ne
  · rw [read]
    rfl

theorem items?_last {fuel : Nat} {item : Json Float}
    (first : value? fuel cs = some (item, ']' :: rest)) :
    items? (fuel + 1) cs = some ([item], rest) := by
  rw [items?, first]
  rfl

theorem items?_cons {fuel : Nat} {item : Json Float} {items : List (Json Float)}
    {more : List Char} (first : value? fuel cs = some (item, ',' :: more))
    (others : items? fuel more = some (items, rest)) :
    items? (fuel + 1) cs = some (item :: items, rest) := by
  have next : items? (fuel + 1) cs
      = (items? fuel more).bind fun read => some (item :: read.1, read.2) := by
    rw [items?, first]
    rfl
  rw [next, others]
  rfl

theorem value?_brace (fuel : Nat) (cs : List Char) :
    value? (fuel + 1) ('\x7b' :: '"' :: cs) = (fields? fuel ('"' :: cs)).map fun (fields, rest) =>
      (match fields with | some fields => .object fields | none => .untextual, rest) := rfl

theorem value?_object {fuel : Nat} {key : String} {fields : List (String × Json Float)}
    (read : fields? fuel ((quoted key).toList ++ cs) = some (some fields, rest)) :
    value? (fuel + 1) ('\x7b' :: ((quoted key).toList ++ cs)) = some (.object fields, rest) := by
  rw [toList_quoted_append] at read ⊢
  rw [value?_brace, read]
  rfl

theorem fields?_quote (fuel : Nat) (cs : List Char) :
    fields? (fuel + 1) ('"' :: cs) = (string? cs).bind fun (key, cs) =>
      match skipBlanks cs with
      | ':' :: cs => (value? fuel cs).bind fun (value, cs) =>
        match skipBlanks cs with
        | '\x7d' :: rest => some (key.map fun key => [(key, value)], rest)
        | ',' :: cs => (fields? fuel cs).bind fun (fields, rest) =>
          some (do return ((← key), value) :: (← fields), rest)
        | _ => none
      | _ => none := rfl

/-- After a key and its colon comes the value. -/
theorem fields?_key (fuel : Nat) (key : String) (cs : List Char) :
    fields? (fuel + 1) ((quoted key).toList ++ ':' :: cs) = (value? fuel cs).bind fun (value, cs) =>
      match skipBlanks cs with
      | '\x7d' :: rest => some (some [(key, value)], rest)
      | ',' :: cs => (fields? fuel cs).bind fun (fields, rest) =>
          some (fields.bind fun fields => some ((key, value) :: fields), rest)
      | _ => none := by
  rw [toList_quoted_append, fields?_quote, string?_quoted]
  rfl

theorem fields?_last {fuel : Nat} {value : Json Float} (key : String)
    (first : value? fuel cs = some (value, '\x7d' :: rest)) :
    fields? (fuel + 1) ((quoted key).toList ++ ':' :: cs) = some (some [(key, value)], rest) := by
  rw [fields?_key, first]
  rfl

theorem fields?_cons {fuel : Nat} {value : Json Float} {fields : List (String × Json Float)}
    {more : List Char} (key : String) (first : value? fuel cs = some (value, ',' :: more))
    (others : fields? fuel more = some (some fields, rest)) :
    fields? (fuel + 1) ((quoted key).toList ++ ':' :: cs)
      = some (some ((key, value) :: fields), rest) := by
  have next : fields? (fuel + 1) ((quoted key).toList ++ ':' :: cs)
      = (fields? fuel more).bind fun read =>
        some (read.1.bind fun fields => some ((key, value) :: fields), read.2) := by
    rw [fields?_key, first]
    rfl
  rw [next, others]
  rfl

theorem length_itemChars_pos (items : List (Json Float)) : 0 < (itemChars items).length := by
  cases items <;> exact Nat.succ_pos _

theorem length_fieldChars_pos (fields : List (String × Json Float)) :
    0 < (fieldChars fields).length := by
  cases fields <;> exact Nat.succ_pos _

mutual

/-- A document is read back from its characters before a separator. -/
theorem value?_chars (json : Json Float) (textual : json.isTextual = true)
    (readsBack : ∀ x ∈ json.reals, ReadsBack x) {fuel : Nat} (room : (chars json).length < fuel)
    {rest : List Char} (ends : Ends rest) :
    value? fuel (chars json ++ rest) = some (json, rest) := by
  obtain ⟨fuel, rfl⟩ := Nat.exists_eq_add_one.2 (Nat.zero_lt_of_lt room)
  match json with
  | .null => exact (value?_literal_append fuel rest).1
  | .untextual => cases textual
  | .bool true => exact (value?_literal_append fuel rest).2.1
  | .bool false => exact (value?_literal_append fuel rest).2.2
  | .int n => exact value?_int fuel n ends
  | .real x => exact value?_real_append (readsBack x (List.mem_singleton_self x)) ends fuel
  | .string text => exact value?_string fuel text rest
  | .array [] => rfl
  | .array (item :: items) =>
    have enough : (itemChars (item :: items)).length ≤ fuel := Nat.lt_succ_iff.1 room
    obtain ⟨fuel, rfl⟩ := Nat.exists_eq_add_one.2 ((length_itemChars_pos _).trans_le enough)
    exact value?_array (items?_chars (item :: items) (List.cons_ne_nil _ _) textual readsBack
      enough rest)
  | .object [] => rfl
  | .object ((key, value) :: fields) =>
    have enough : (fieldChars ((key, value) :: fields)).length ≤ fuel := Nat.lt_succ_iff.1 room
    have read := fields?_chars ((key, value) :: fields) (List.cons_ne_nil _ _) textual readsBack
      enough rest
    rw [fieldChars, List.tail_cons, List.append_assoc] at read
    rw [chars, List.cons_append, List.append_assoc]
    exact value?_object read

/-- Items are read back from their characters, without the separator before the first. -/
theorem items?_chars (all : List (Json Float)) (nonempty : all ≠ [])
    (textual : areTextual all = true) (readsBack : ∀ x ∈ realsOfItems all, ReadsBack x) {fuel : Nat}
    (room : (itemChars all).length ≤ fuel) (rest : List Char) :
    items? fuel ((itemChars all).tail ++ rest) = some (all, rest) := by
  match all with
  | [] => exact absurd rfl nonempty
  | item :: items =>
    rw [areTextual, Bool.and_eq_true] at textual
    rw [realsOfItems, List.forall_mem_append] at readsBack
    rw [itemChars, List.length_cons, List.length_append] at room
    obtain ⟨fuel, rfl⟩ := Nat.exists_eq_add_one.2 (Nat.zero_lt_of_lt room)
    have close := length_itemChars_pos items
    have first : value? fuel (chars item ++ (itemChars items ++ rest)) = _ :=
      value?_chars item textual.1 readsBack.1 (by omega) (ends_itemChars items rest)
    rw [itemChars, List.tail_cons, List.append_assoc]
    match items with
    | [] => exact items?_last first
    | item' :: items =>
      exact items?_cons first (items?_chars (item' :: items) (List.cons_ne_nil _ _) textual.2
        readsBack.2 (by omega) rest)

/-- Fields are read back from their characters, without the separator before the first. -/
theorem fields?_chars (all : List (String × Json Float)) (nonempty : all ≠ [])
    (textual : haveTexts all = true) (readsBack : ∀ x ∈ realsOfFields all, ReadsBack x) {fuel : Nat}
    (room : (fieldChars all).length ≤ fuel) (rest : List Char) :
    fields? fuel ((fieldChars all).tail ++ rest) = some (some all, rest) := by
  match all with
  | [] => exact absurd rfl nonempty
  | (key, value) :: fields =>
    rw [haveTexts, Bool.and_eq_true] at textual
    rw [realsOfFields, List.forall_mem_append] at readsBack
    rw [fieldChars, List.length_cons, List.length_append, List.length_cons,
      List.length_append] at room
    obtain ⟨fuel, rfl⟩ := Nat.exists_eq_add_one.2 (Nat.zero_lt_of_lt room)
    have close := length_fieldChars_pos fields
    have first : value? fuel (chars value ++ (fieldChars fields ++ rest)) = _ :=
      value?_chars value textual.1 readsBack.1 (by omega) (ends_fieldChars fields rest)
    rw [fieldChars, List.tail_cons, List.append_assoc, List.cons_append, List.append_assoc]
    match fields with
    | [] => exact fields?_last key first
    | (key', value') :: fields =>
      exact fields?_cons key first (fields?_chars ((key', value') :: fields) (List.cons_ne_nil _ _)
        textual.2 readsBack.2 (by omega) rest)

end

/-- A document whose strings are texts and whose numbers read back is read back from its line. -/
theorem parse?_compact {json : Json Float} (textual : json.isTextual = true)
    (readsBack : ∀ x ∈ json.reals, ReadsBack x) : parse? json.compact = some json := by
  have line : json.compact.toList = chars json := by
    rw [compact, toList_writeCompact]
    rfl
  have read := value?_chars json textual readsBack (Nat.lt_succ_self _) ends_nil
  rw [List.append_nil] at read
  rw [parse?, line, read]
  rfl

end SureCode.Json
