import SureCode.Span

/-!
# Cursors

A cursor is a place in a text: what is left to read, and how many bytes lie before it. Reading moves
a cursor forward. `Cursor.Reaches` says that one cursor is ahead of another and by which characters;
every movement below comes with the lemma that it only goes forward.
-/

namespace SureCode

/-- A place in a text. -/
structure Cursor where
  /-- The number of bytes before the cursor. -/
  offset : Nat
  /-- The characters after the cursor. -/
  rest : List Char
deriving DecidableEq, Repr, Inhabited

namespace Cursor

/-- The cursor before a text. -/
def ofText (text : List Char) : Cursor := ⟨0, text⟩

/-- The next character. -/
def peek (c : Cursor) : Option Char := c.rest.head?

/-- The character after the next. -/
def second (c : Cursor) : Option Char := c.rest[1]?

/-- The second character after the next. -/
def third (c : Cursor) : Option Char := c.rest[2]?

/-- One character further, if there is one. -/
def advance (c : Cursor) : Cursor :=
  match c.rest with
  | [] => c
  | ch :: cs => ⟨c.offset + ch.utf8Size, cs⟩

/-- Past the next character if it satisfies `p`, and whether it did. -/
def eatIf (p : Char → Bool) (c : Cursor) : Bool × Cursor :=
  if c.peek.any p then (true, c.advance) else (false, c)

/-- Past the next character if it is `ch`, and whether it was. -/
def eat (ch : Char) (c : Cursor) : Bool × Cursor := c.eatIf (· == ch)

/-- Past all characters that satisfy `p`, from `offset` on. -/
def skipFrom (p : Char → Bool) : Nat → List Char → Cursor
  | offset, [] => ⟨offset, []⟩
  | offset, ch :: cs =>
    if p ch then skipFrom p (offset + ch.utf8Size) cs else ⟨offset, ch :: cs⟩

/-- Past all following characters that satisfy `p`. -/
def skipWhile (p : Char → Bool) (c : Cursor) : Cursor := skipFrom p c.offset c.rest

/-- The characters that break a line. -/
def isBreak (ch : Char) : Bool := ch == '\n' || ch == '\r'

/-- Past a line break: a line feed, a carriage return, or the two together. -/
def skipBreak (c : Cursor) : Cursor :=
  let (returned, d) := c.eat '\r'
  if returned then (d.eat '\n').2 else c.advance

/-- `d` is ahead of `c` by the characters `passed`. -/
def Reaches (c : Cursor) (passed : List Char) (d : Cursor) : Prop :=
  c.rest = passed ++ d.rest ∧ d.offset = c.offset + Text.byteLength passed

/-! ### Going forward -/

theorem Reaches.refl (c : Cursor) : c.Reaches [] c := by simp [Reaches]

theorem Reaches.trans {c d e : Cursor} {passed more : List Char} (first : c.Reaches passed d)
    (next : d.Reaches more e) : c.Reaches (passed ++ more) e := by
  obtain ⟨rest, offset⟩ := first
  obtain ⟨rest', offset'⟩ := next
  refine ⟨by rw [rest, rest', List.append_assoc], ?_⟩
  rw [offset', offset, Text.byteLength_append, Nat.add_assoc]

theorem Reaches.length_le {c d : Cursor} {passed : List Char} (ahead : c.Reaches passed d) :
    d.rest.length ≤ c.rest.length := by
  rw [ahead.1, List.length_append]
  exact Nat.le_add_left ..

theorem reaches_advance (c : Cursor) : ∃ passed, c.Reaches passed c.advance := by
  match h : c.rest with
  | [] => exact ⟨[], by simp [Reaches, advance, h]⟩
  | ch :: cs => exact ⟨[ch], by simp [Reaches, advance, h]⟩

theorem length_advance_lt {c : Cursor} (more : c.rest ≠ []) :
    c.advance.rest.length < c.rest.length := by
  match h : c.rest with
  | [] => exact absurd h more
  | ch :: cs => simp [advance, h]

theorem length_advance_le (c : Cursor) : c.advance.rest.length ≤ c.rest.length := by
  obtain ⟨passed, ahead⟩ := c.reaches_advance
  exact ahead.length_le

theorem length_eatIf_le (p : Char → Bool) (c : Cursor) :
    (c.eatIf p).2.rest.length ≤ c.rest.length := by
  unfold eatIf
  split
  · exact c.length_advance_le
  · exact Nat.le_refl _

theorem length_skipFrom_le (p : Char → Bool) (offset : Nat) (cs : List Char) :
    (skipFrom p offset cs).rest.length ≤ cs.length := by
  induction cs generalizing offset with
  | nil => simp [skipFrom]
  | cons ch cs ih =>
    unfold skipFrom
    split
    · exact Nat.le_succ_of_le (ih _)
    · exact Nat.le_refl _

theorem length_skipWhile_le (p : Char → Bool) (c : Cursor) :
    (c.skipWhile p).rest.length ≤ c.rest.length :=
  length_skipFrom_le p c.offset c.rest

theorem length_skipBreak_lt {c : Cursor} (more : c.rest ≠ []) :
    c.skipBreak.rest.length < c.rest.length := by
  unfold skipBreak eat eatIf
  split
  · rename_i returned _ eaten
    split at eaten
    · cases eaten
      simp only [if_true]
      exact Nat.lt_of_le_of_lt (length_eatIf_le _ _) (length_advance_lt more)
    · cases eaten
      simpa using length_advance_lt more

end Cursor

end SureCode
