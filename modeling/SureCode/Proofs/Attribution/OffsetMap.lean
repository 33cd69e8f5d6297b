import Mathlib
import SureCode.Attribution.OffsetMap
import SureCode.Proofs.Except

/-!
# What an offset map says

The letters of a text are its characters that are not white space (`Text.LetterAt`). Tokens spell a
source when both have the same letters, and then the bytes of the `k`-th letter of the source belong
to the token that the `k`-th letter of the tokens stands in, and the bytes of white space to none
(`OffsetMap.Maps`). Where the letters differ, the failure names the first place where they do: two
letters that are not the same, or a letter on one side after the last one on the other side
(`OffsetMap.Answers`). The main statement is `ofTokens_answers`.
-/

namespace SureCode

/-! ### Letters of a text -/

namespace Text

variable {text before : List Char} {c d : Char} {k : Nat}

/-- A character of a text that is not white space, after so many others of this kind. -/
structure LetterAt (text : List Char) (k : Nat) (before : List Char) (c : Char) : Prop where
  solid : isBlank c = false
  place : before ++ [c] <+: text
  count : (withoutBlanks before).length = k

theorem withoutBlanks_cons_of_blank (blank : isBlank c = true) (cs : List Char) :
    withoutBlanks (c :: cs) = withoutBlanks cs := by
  simp [withoutBlanks, blank]

theorem withoutBlanks_cons_of_solid (solid : isBlank c = false) (cs : List Char) :
    withoutBlanks (c :: cs) = c :: withoutBlanks cs := by
  simp [withoutBlanks, solid]

/-- A letter of the rest of a text is one of the text. -/
theorem LetterAt.cons (letter : LetterAt text k before c) (d : Char) :
    LetterAt (d :: text) (k + if isBlank d then 0 else 1) (d :: before) c := by
  refine ⟨letter.solid, List.cons_prefix_cons.2 ⟨rfl, letter.place⟩, ?_⟩
  cases blank : isBlank d with
  | true => simpa [withoutBlanks_cons_of_blank blank] using letter.count
  | false => simpa [withoutBlanks_cons_of_solid blank] using letter.count

/-- The letters of a text before and after one of them. -/
theorem LetterAt.exists_split (letter : LetterAt text k before c) :
    ∃ rest, withoutBlanks text = withoutBlanks before ++ c :: rest := by
  obtain ⟨after, rfl⟩ := letter.place
  refine ⟨withoutBlanks after, ?_⟩
  rw [List.append_assoc, withoutBlanks_append, List.singleton_append,
    withoutBlanks_cons_of_solid letter.solid]

theorem LetterAt.getElem? (letter : LetterAt text k before c) :
    (withoutBlanks text)[k]? = some c := by
  obtain ⟨rest, split⟩ := letter.exists_split
  simp [split, ← letter.count]

theorem LetterAt.take_eq (letter : LetterAt text k before c) :
    (withoutBlanks text).take k = withoutBlanks before := by
  obtain ⟨rest, split⟩ := letter.exists_split
  simp [split, ← letter.count]

/-- Every letter without white space is a letter of the text. -/
theorem exists_letterAt (at_place : (withoutBlanks text)[k]? = some c) :
    ∃ before, LetterAt text k before c := by
  obtain ⟨lt, eq⟩ := List.getElem?_eq_some_iff.1 at_place
  have split : withoutBlanks text
      = (withoutBlanks text).take k ++ c :: (withoutBlanks text).drop (k + 1) := by
    rw [← eq, List.getElem_cons_drop, List.take_append_drop]
  have length_eq : ((withoutBlanks text).take k).length = k := List.length_take_of_le lt.le
  generalize (withoutBlanks text).take k = letters, (withoutBlanks text).drop (k + 1) = rest
    at split length_eq
  obtain ⟨front, back, rfl, front_eq, back_eq⟩ := List.filter_eq_append_iff.1 split
  obtain ⟨blanks, after, rfl, blank, solid, -⟩ := List.filter_eq_cons_iff.1 back_eq
  refine ⟨front ++ blanks, by simpa using solid, ⟨after, by simp⟩, ?_⟩
  have none : withoutBlanks blanks = [] := List.filter_eq_nil_iff.2 blank
  rw [withoutBlanks_append, none, List.append_nil]
  exact (congrArg List.length front_eq).trans length_eq

end Text

namespace OffsetMap

open Text

/-- The text of some tokens written one after another. -/
def joined (tokens : List String) : List Char := tokens.flatMap String.toList

/-- A letter of the source at a byte offset, after so many others. -/
def SourceLetter (source : List Char) (k offset : Nat) (c : Char) : Prop :=
  ∃ before, LetterAt source k before c ∧ byteLength before = offset

/-- A letter of a token, given by its number, after so many letters of this token and the tokens
before it. -/
def TokenLetter (tokens : List String) (k token : Nat) (c : Char) : Prop :=
  ∃ front text back j before, tokens = front ++ text :: back ∧ front.length = token ∧
    LetterAt text.toList j before c ∧ k = (withoutBlanks (joined front)).length + j

/-! ### Letters of the tokens -/

section Letters

variable {tokens : List String} {k token number : Nat} {c : Char}

/-- The letters of some tokens of which the first has a given number. -/
def lettersFrom (number : Nat) (tokens : List String) : List (Nat × Char) :=
  (tokens.zipIdx number).flatMap fun (token, number) =>
    (withoutBlanks token.toList).map fun c => (number, c)

theorem lettersFrom_cons (text : String) (tokens : List String) :
    lettersFrom number (text :: tokens)
      = (withoutBlanks text.toList).map (fun c => (number, c))
        ++ lettersFrom (number + 1) tokens := by
  rw [lettersFrom, List.zipIdx_cons, List.flatMap_cons, lettersFrom]

theorem map_snd_lettersFrom (number : Nat) (tokens : List String) :
    (lettersFrom number tokens).map (·.2) = withoutBlanks (joined tokens) := by
  induction tokens generalizing number with
  | nil => rfl
  | cons text tokens ih =>
    have joined_cons : joined (text :: tokens) = text.toList ++ joined tokens := rfl
    rw [lettersFrom_cons, List.map_append, ih, List.map_map, joined_cons, withoutBlanks_append]
    simp

theorem map_snd_letters (tokens : List String) :
    (letters tokens).map (·.2) = withoutBlanks (joined tokens) :=
  map_snd_lettersFrom 0 tokens

theorem lettersFrom_append (front back : List String) : lettersFrom number (front ++ back)
    = lettersFrom number front ++ lettersFrom (number + front.length) back := by
  rw [lettersFrom, List.zipIdx_append, List.flatMap_append, lettersFrom, lettersFrom]

theorem exists_of_lettersFrom (at_place : (lettersFrom number tokens)[k]? = some (token, c)) :
    ∃ rank, TokenLetter tokens k rank c ∧ token = number + rank := by
  induction tokens generalizing number k with
  | nil => simp [lettersFrom] at at_place
  | cons text tokens ih =>
    rw [lettersFrom_cons, List.getElem?_append, List.length_map] at at_place
    split at at_place
    case isTrue =>
      rw [List.getElem?_map, Option.map_eq_some_iff] at at_place
      obtain ⟨_, at_place, ⟨⟩⟩ := at_place
      obtain ⟨before, letter⟩ := exists_letterAt at_place
      exact ⟨0, ⟨[], text, tokens, k, before, rfl, rfl, letter, (Nat.zero_add k).symm⟩, rfl⟩
    case isFalse behind =>
      obtain ⟨rank, ⟨front, text', back, j, before, rfl, rfl, letter, count⟩, rfl⟩ := ih at_place
      refine ⟨front.length + 1,
        ⟨text :: front, text', back, j, before, rfl, rfl, letter, ?_⟩, by omega⟩
      rw [joined, List.flatMap_cons, withoutBlanks_append, List.length_append, ← joined]
      omega

theorem tokenLetter_of_letters (at_place : (letters tokens)[k]? = some (token, c)) :
    TokenLetter tokens k token c := by
  obtain ⟨rank, letter, rfl⟩ := exists_of_lettersFrom at_place
  rwa [Nat.zero_add]

/-- Each letter of the tokens comes with the number of its token. -/
theorem getElem?_letters_iff :
    (letters tokens)[k]? = some (token, c) ↔ TokenLetter tokens k token c := by
  refine ⟨tokenLetter_of_letters, ?_⟩
  rintro ⟨front, text, back, j, before, rfl, rfl, letter, rfl⟩
  have length_eq : (lettersFrom 0 front).length = (withoutBlanks (joined front)).length := by
    rw [← map_snd_lettersFrom 0, List.length_map]
  have behind : (letters (front ++ text :: back))[(withoutBlanks (joined front)).length + j]?
      = (lettersFrom front.length (text :: back))[j]? := by
    change (lettersFrom 0 _)[_]? = _
    rw [lettersFrom_append, List.getElem?_append_right (by omega), length_eq,
      Nat.add_sub_cancel_left, Nat.zero_add]
  have at_text := letter.getElem?
  have j_lt := (List.getElem?_eq_some_iff.1 at_text).1
  rw [behind, lettersFrom_cons, List.getElem?_append_left (by simpa using j_lt),
    List.getElem?_map, at_text]
  rfl

theorem TokenLetter.getElem? (letter : TokenLetter tokens k token c) :
    (withoutBlanks (joined tokens))[k]? = some c := by
  rw [← map_snd_letters, List.getElem?_map, getElem?_letters_iff.2 letter]
  rfl

end Letters

/-! ### Spellings -/

section Spell

variable {offset : Nat} {source : List Char} {letters : List (Nat × Char)}
  {owners : List (Option Nat)} {e : AttributionError}

/-- The owner of a character after some text: white space has none. -/
def ownerAfter (letters : List (Nat × Char)) (before : List Char) (c : Char) : Option Nat :=
  if isBlank c then none else letters[(withoutBlanks before).length]?.map (·.1)

/-- What a spelling is: the letters on both sides are the same, and each byte of a character has the
character's owner. -/
structure Spelling (source : List Char) (letters : List (Nat × Char)) (owners : List (Option Nat)) :
    Prop where
  same : withoutBlanks source = letters.map (·.2)
  owner : ∀ {before c}, before ++ [c] <+: source → ∀ {byte}, byteLength before ≤ byte →
    byte < byteLength before + c.utf8Size → owners[byte]? = some (ownerAfter letters before c)

/-- What keeps letters from spelling a source that begins at an offset. -/
def Fault (offset : Nat) (source : List Char) (letters : List (Nat × Char)) :
    AttributionError → Prop
  | .tokenMismatch token at_offset expected found => ∃ k before,
      LetterAt source k before expected ∧ at_offset = offset + byteLength before ∧
        letters[k]? = some (token, found) ∧ expected ≠ found ∧
          withoutBlanks before = (letters.take k).map (·.2)
  | .overrun token => ∃ c, letters[(withoutBlanks source).length]? = some (token, c) ∧
      withoutBlanks source <+: letters.map (·.2)
  | .truncated at_offset => ∃ before c, LetterAt source letters.length before c ∧
      at_offset = offset + byteLength before ∧ withoutBlanks before = letters.map (·.2)
  | .lengthMismatch .. | .outOfRange .. => False

theorem ownerAfter_cons_of_blank {d : Char} (blank : isBlank d = true) (before : List Char)
    (c : Char) : ownerAfter letters (d :: before) c = ownerAfter letters before c := by
  rw [ownerAfter, withoutBlanks_cons_of_blank blank, ownerAfter]

theorem ownerAfter_cons_of_solid {d : Char} (solid : isBlank d = false) (letter : Nat × Char)
    (before : List Char) (c : Char) :
    ownerAfter (letter :: letters) (d :: before) c = ownerAfter letters before c := by
  rw [ownerAfter, withoutBlanks_cons_of_solid solid, List.length_cons, List.getElem?_cons_succ,
    ownerAfter]

/-- One more character in front of a spelling, with the owner that it has. -/
theorem Spelling.cons {d : Char} {letters' : List (Nat × Char)} (owner : Option Nat)
    (spelling : Spelling source letters owners)
    (same : withoutBlanks (d :: source) = letters'.map (·.2))
    (first : owner = ownerAfter letters' [] d)
    (rest : ∀ before c, ownerAfter letters' (d :: before) c = ownerAfter letters before c) :
    Spelling (d :: source) letters' (List.replicate d.utf8Size owner ++ owners) := by
  refine ⟨same, fun {before c} place {byte} from_byte to_byte => ?_⟩
  cases before with
  | nil =>
    obtain ⟨rfl, -⟩ := List.cons_prefix_cons.1 place
    rw [byteLength_nil, Nat.zero_add] at to_byte
    rw [List.getElem?_append_left (by simpa using to_byte), List.getElem?_replicate, if_pos to_byte,
      first]
  | cons d' before =>
    obtain ⟨rfl, behind⟩ := List.cons_prefix_cons.1 place
    rw [byteLength_cons] at from_byte to_byte
    have owned : owners[byte - d'.utf8Size]? = some (ownerAfter letters before c) :=
      spelling.owner behind (by omega) (by omega)
    rw [List.getElem?_append_right (by rw [List.length_replicate]; omega), List.length_replicate,
      rest, owned]

theorem spelling_of_spell (spelled : spell offset source letters = .ok owners) :
    Spelling source letters owners := by
  fun_induction spell offset source letters generalizing owners with
  | case1 =>
    exact ⟨rfl, fun place => absurd (List.prefix_nil.1 place) (by simp)⟩
  | case2 => cases spelled
  | case3 offset d cs letters blank ih =>
    obtain ⟨rest, behind, ⟨⟩⟩ := bind_eq_ok_iff.1 spelled
    have spelling := ih behind
    exact spelling.cons none (by rw [withoutBlanks_cons_of_blank blank, spelling.same])
      (by simp [ownerAfter, blank]) fun before c => ownerAfter_cons_of_blank blank before c
  | case4 => cases spelled
  | case5 offset cs token d letters solid ih =>
    obtain ⟨rest, behind, ⟨⟩⟩ := bind_eq_ok_iff.1 spelled
    have solid : isBlank d = false := by simpa using solid
    have spelling := ih behind
    exact spelling.cons (some token)
      (by rw [withoutBlanks_cons_of_solid solid, spelling.same, List.map_cons])
      (by simp [ownerAfter, solid, withoutBlanks])
      fun before c => ownerAfter_cons_of_solid solid _ before c
  | case6 => cases spelled

/-- White space in front of a source changes no fault but for the offset. -/
theorem Fault.blank {d : Char} (blank : isBlank d = true)
    (fault : Fault (offset + d.utf8Size) source letters e) :
    Fault offset (d :: source) letters e := by
  cases e with
  | tokenMismatch token at_offset expected found =>
    obtain ⟨k, before, letter, rfl, found_at, ne, same⟩ := fault
    refine ⟨k, d :: before, by simpa [blank] using letter.cons d, ?_, found_at, ne, ?_⟩
    · rw [byteLength_cons, Nat.add_assoc]
    · rwa [withoutBlanks_cons_of_blank blank]
  | overrun token => rwa [Fault, withoutBlanks_cons_of_blank blank]
  | truncated at_offset =>
    obtain ⟨before, c, letter, rfl, same⟩ := fault
    refine ⟨d :: before, c, by simpa [blank] using letter.cons d, ?_, ?_⟩
    · rw [byteLength_cons, Nat.add_assoc]
    · rwa [withoutBlanks_cons_of_blank blank]
  | lengthMismatch tokens logprobs => exact fault
  | outOfRange span bytes => exact fault

/-- Neither does a letter in front of both sides. -/
theorem Fault.letter {d : Char} (solid : isBlank d = false) (token : Nat)
    (fault : Fault (offset + d.utf8Size) source letters e) :
    Fault offset (d :: source) ((token, d) :: letters) e := by
  cases e with
  | tokenMismatch token at_offset expected found =>
    obtain ⟨k, before, letter, rfl, found_at, ne, same⟩ := fault
    refine ⟨k + 1, d :: before, by simpa [solid] using letter.cons d, ?_, found_at, ne, ?_⟩
    · rw [byteLength_cons, Nat.add_assoc]
    · rw [withoutBlanks_cons_of_solid solid, same, List.take_succ_cons, List.map_cons]
  | overrun token =>
    obtain ⟨c, at_place, initial⟩ := fault
    rw [Fault, withoutBlanks_cons_of_solid solid]
    exact ⟨c, at_place, List.cons_prefix_cons.2 ⟨rfl, initial⟩⟩
  | truncated at_offset =>
    obtain ⟨before, c, letter, rfl, same⟩ := fault
    refine ⟨d :: before, c, by simpa [solid] using letter.cons d, ?_, ?_⟩
    · rw [byteLength_cons, Nat.add_assoc]
    · rw [withoutBlanks_cons_of_solid solid, same, List.map_cons]
  | lengthMismatch tokens logprobs => exact fault
  | outOfRange span bytes => exact fault

theorem letterAt_first {d : Char} (solid : isBlank d = false) (source : List Char) :
    LetterAt (d :: source) 0 [] d :=
  ⟨solid, ⟨source, rfl⟩, rfl⟩

theorem fault_of_spell (failed : spell offset source letters = .error e) :
    Fault offset source letters e := by
  fun_induction spell offset source letters with
  | case1 => cases failed
  | case2 offset token letters =>
    obtain rfl := Except.error.inj failed
    exact ⟨_, rfl, List.nil_prefix⟩
  | case3 offset d cs letters blank ih =>
    obtain failed | ⟨_, -, failed⟩ := bind_eq_error_iff.1 failed
    · exact (ih failed).blank blank
    · cases failed
  | case4 offset d cs solid =>
    obtain rfl := Except.error.inj failed
    exact ⟨[], d, letterAt_first (by simpa using solid) cs, rfl, rfl⟩
  | case5 offset cs token d letters solid ih =>
    obtain failed | ⟨_, -, failed⟩ := bind_eq_error_iff.1 failed
    · exact (ih failed).letter (by simpa using solid) token
    · cases failed
  | case6 offset d cs solid token found letters ne =>
    obtain rfl := Except.error.inj failed
    exact ⟨0, [], letterAt_first (by simpa using solid) cs, rfl, rfl, ne, rfl⟩

end Spell

/-! ### Answers -/

section Answers

variable {source : List Char} {tokens : List String} {map : OffsetMap} {e : AttributionError}

/-- What a map of a source says: the bytes of each letter belong to the token of the letter with the
same number, and the bytes of white space and the offsets past the end belong to no token. -/
structure Maps (source : List Char) (tokens : List String) (map : OffsetMap) : Prop where
  letter : ∀ {k offset c}, SourceLetter source k offset c → ∃ token, TokenLetter tokens k token c ∧
    ∀ byte, offset ≤ byte → byte < offset + c.utf8Size → map.tokenAt? byte = some token
  blank : ∀ {before c}, before ++ [c] <+: source → isBlank c = true → ∀ byte,
    byteLength before ≤ byte → byte < byteLength before + c.utf8Size → map.tokenAt? byte = none
  beyond : ∀ byte, byteLength source ≤ byte → map.tokenAt? byte = none

/-- What is right to answer for a source and some tokens. -/
def Answers (source : List Char) (tokens : List String) : Except AttributionError OffsetMap → Prop
  | .ok map => withoutBlanks source = withoutBlanks (joined tokens) ∧ Maps source tokens map
  | .error (.tokenMismatch token offset expected found) => ∃ k,
      SourceLetter source k offset expected ∧ TokenLetter tokens k token found ∧
        expected ≠ found ∧ (withoutBlanks source).take k = (withoutBlanks (joined tokens)).take k
  | .error (.overrun token) => withoutBlanks source <+: withoutBlanks (joined tokens) ∧
      ∃ c, TokenLetter tokens (withoutBlanks source).length token c
  | .error (.truncated offset) => withoutBlanks (joined tokens) <+: withoutBlanks source ∧
      ∃ c, SourceLetter source (withoutBlanks (joined tokens)).length offset c
  | .error (.lengthMismatch ..) | .error (.outOfRange ..) => False

theorem ofTokens_eq_ok_iff : ofTokens source tokens = .ok map ↔
    ∃ owners, spell 0 source (letters tokens) = .ok owners ∧
      ⟨tokens.length, owners.toArray⟩ = map := by
  rw [ofTokens, bind_eq_ok_iff]
  simp only [pure, Except.pure, Except.ok.injEq]

theorem ofTokens_eq_error_iff :
    ofTokens source tokens = .error e ↔ spell 0 source (letters tokens) = .error e := by
  rw [ofTokens, bind_eq_error_iff]
  exact or_iff_left (by rintro ⟨_, -, ⟨⟩⟩)

/-- The owners of a spelling make a right map. -/
theorem maps_of_spelling {owners : List (Option Nat)}
    (spelling : Spelling source (letters tokens) owners)
    (length_eq : owners.length = byteLength source) (count : Nat) :
    Maps source tokens ⟨count, owners.toArray⟩ where
  letter := by
    rintro k offset c ⟨before, letter, rfl⟩
    have at_place : ((letters tokens).map (·.2))[k]? = some c := spelling.same ▸ letter.getElem?
    rw [List.getElem?_map, Option.map_eq_some_iff] at at_place
    obtain ⟨⟨token, c⟩, at_place, rfl⟩ := at_place
    refine ⟨token, tokenLetter_of_letters at_place, fun byte from_byte to_byte => ?_⟩
    have owned : ownerAfter (letters tokens) before c = some token := by
      rw [ownerAfter, letter.count, at_place, letter.solid]
      rfl
    rw [tokenAt?, List.getElem?_toArray, spelling.owner letter.place from_byte to_byte, owned,
      Option.join_some]
  blank {before c} place blank byte from_byte to_byte := by
    rw [tokenAt?, List.getElem?_toArray, spelling.owner place from_byte to_byte, ownerAfter,
      if_pos blank, Option.join_some]
  beyond byte beyond := by
    rw [tokenAt?, List.getElem?_toArray, List.getElem?_eq_none (length_eq ▸ beyond),
      Option.join_none]

theorem answers_of_fault (fault : Fault 0 source (letters tokens) e) :
    Answers source tokens (.error e) := by
  cases e with
  | tokenMismatch token offset expected found =>
    obtain ⟨k, before, letter, rfl, found_at, ne, same⟩ := fault
    refine ⟨k, ⟨before, letter, (Nat.zero_add _).symm⟩, tokenLetter_of_letters found_at, ne, ?_⟩
    rw [letter.take_eq, same, List.map_take, map_snd_letters]
  | overrun token =>
    obtain ⟨c, at_place, initial⟩ := fault
    exact ⟨map_snd_letters tokens ▸ initial, c, tokenLetter_of_letters at_place⟩
  | truncated offset =>
    obtain ⟨before, c, letter, rfl, same⟩ := fault
    have length_eq : (letters tokens).length = (withoutBlanks (joined tokens)).length := by
      rw [← map_snd_letters, List.length_map]
    rw [length_eq] at letter
    refine ⟨?_, c, before, letter, (Nat.zero_add _).symm⟩
    rw [← map_snd_letters, ← same, ← letter.take_eq]
    exact List.take_prefix _ _
  | lengthMismatch tokens logprobs => exact fault
  | outOfRange span bytes => exact fault

/-- A failure that is right to answer is not one about equal letters. -/
theorem ne_of_answers_error (right : Answers source tokens (.error e)) :
    withoutBlanks source ≠ withoutBlanks (joined tokens) := by
  intro same
  cases e with
  | tokenMismatch token offset expected found =>
    obtain ⟨k, ⟨before, letter, -⟩, found_at, ne, -⟩ := right
    have found_there := found_at.getElem?
    rw [← same, letter.getElem?] at found_there
    exact ne (Option.some.inj found_there)
  | overrun token =>
    obtain ⟨-, c, letter⟩ := right
    have there := letter.getElem?
    rw [← same, List.getElem?_length] at there
    cases there
  | truncated offset =>
    obtain ⟨-, c, before, letter, -⟩ := right
    have there := letter.getElem?
    rw [same, List.getElem?_length] at there
    cases there
  | lengthMismatch tokens logprobs => exact right
  | outOfRange span bytes => exact right

/-- The map of some tokens maps the bytes of the source to their numbers. -/
theorem maps_of_ofTokens (made : ofTokens source tokens = .ok map) :
    Maps source tokens map ∧ map.bytes = byteLength source ∧ map.tokens = tokens.length := by
  obtain ⟨owners, spelled, rfl⟩ := ofTokens_eq_ok_iff.1 made
  have length_eq := length_of_spell spelled
  exact ⟨maps_of_spelling (spelling_of_spell spelled) length_eq tokens.length, length_eq, rfl⟩

/-- There is a map exactly of the spellings of a source. -/
theorem exists_ofTokens_iff : (∃ map, ofTokens source tokens = .ok map) ↔
    withoutBlanks source = withoutBlanks (joined tokens) := by
  constructor
  · rintro ⟨map, made⟩
    obtain ⟨owners, spelled, -⟩ := ofTokens_eq_ok_iff.1 made
    exact (spelling_of_spell spelled).same.trans (map_snd_letters tokens)
  · intro same
    cases result : ofTokens source tokens with
    | ok map => exact ⟨map, rfl⟩
    | error e =>
      have right := answers_of_fault (fault_of_spell (ofTokens_eq_error_iff.1 result))
      exact absurd same (ne_of_answers_error right)

/-- There is a map if and only if the source and the tokens joined are equal without white space.
The map says of each byte of a letter which token has the letter with the same number; otherwise the
error is about the first letter that differs, that the source lacks, or that the tokens lack. -/
theorem ofTokens_answers (source : List Char) (tokens : List String) :
    ((∃ map, ofTokens source tokens = .ok map)
        ↔ withoutBlanks source = withoutBlanks (joined tokens)) ∧
      Answers source tokens (ofTokens source tokens) := by
  cases result : ofTokens source tokens with
  | ok map =>
    obtain ⟨owners, spelled, rfl⟩ := ofTokens_eq_ok_iff.1 result
    have spelling := spelling_of_spell spelled
    have same : withoutBlanks source = withoutBlanks (joined tokens) :=
      spelling.same.trans (map_snd_letters tokens)
    exact ⟨iff_of_true ⟨_, rfl⟩ same, same,
      maps_of_spelling spelling (length_of_spell spelled) tokens.length⟩
  | error e =>
    have right : Answers source tokens (.error e) :=
      answers_of_fault (fault_of_spell (ofTokens_eq_error_iff.1 result))
    exact ⟨iff_of_false (by rintro ⟨_, ⟨⟩⟩) (ne_of_answers_error right), right⟩

end Answers

end OffsetMap

end SureCode
