/-!
# Spans

A span is a stretch of a source text, given by the byte offsets of its two ends. Offsets count the
bytes of the UTF-8 form, so the slice a span cuts out of a text exists only when both ends fall
between two characters.
-/

namespace SureCode

/-- A stretch of a source text between two byte offsets. -/
structure Span where
  start : Nat
  stop : Nat
  ordered : start ≤ stop := by omega
deriving DecidableEq, Repr

namespace Span

/-- The span of no bytes at `offset`. -/
def empty (offset : Nat) : Span := ⟨offset, offset, Nat.le_refl offset⟩

instance : Inhabited Span := ⟨empty 0⟩

/-- The span with the given ends, if they are in order. -/
def ofEnds? (start stop : Nat) : Option Span :=
  if ordered : start ≤ stop then some ⟨start, stop, ordered⟩ else none

/-- The smallest span around both. -/
def cover (s t : Span) : Span :=
  ⟨min s.start t.start, max s.stop t.stop, by have := s.ordered; have := t.ordered; omega⟩

/-- Whether `t` lies inside `s`. -/
def encloses (s t : Span) : Bool := s.start ≤ t.start && t.stop ≤ s.stop

/-- Both ends, as in `3..7`. -/
protected def toString (s : Span) : String := toString s.start ++ ".." ++ toString s.stop

instance : ToString Span := ⟨Span.toString⟩

theorem ofEnds?_self (s : Span) : ofEnds? s.start s.stop = some s := by
  simp [ofEnds?, s.ordered]

theorem ofEnds?_eq_none_iff {start stop : Nat} : ofEnds? start stop = none ↔ stop < start := by
  simp [ofEnds?]

@[simp] theorem cover_self (s : Span) : s.cover s = s := by
  simp [cover]

end Span

/-! ### Slices -/

namespace Text

/-- The number of bytes of a text. -/
def byteLength : List Char → Nat
  | [] => 0
  | c :: cs => c.utf8Size + byteLength cs

@[simp] theorem byteLength_nil : byteLength [] = 0 := rfl

@[simp] theorem byteLength_cons (c : Char) (cs : List Char) :
    byteLength (c :: cs) = c.utf8Size + byteLength cs := rfl

@[simp] theorem byteLength_append (cs ds : List Char) :
    byteLength (cs ++ ds) = byteLength cs + byteLength ds := by
  induction cs with
  | nil => simp
  | cons c cs ih => simp [ih, Nat.add_assoc]

/-- What follows the first `n` bytes, if a character ends there. -/
def dropBytes? : Nat → List Char → Option (List Char)
  | 0, cs => some cs
  | _ + 1, [] => none
  | n + 1, c :: cs => if c.utf8Size ≤ n + 1 then dropBytes? (n + 1 - c.utf8Size) cs else none

/-- The first `n` bytes, if a character ends there. -/
def takeBytes? : Nat → List Char → Option (List Char)
  | 0, _ => some []
  | _ + 1, [] => none
  | n + 1, c :: cs =>
    if c.utf8Size ≤ n + 1 then (takeBytes? (n + 1 - c.utf8Size) cs).map (c :: ·) else none

/-- The bytes of a first character and some more, as the definitions count them. -/
theorem exists_utf8Size_add (c : Char) (n : Nat) :
    ∃ m, c.utf8Size + n = m + 1 ∧ c.utf8Size ≤ m + 1 ∧ m + 1 - c.utf8Size = n := by
  have size_pos : 0 < c.utf8Size := Char.utf8Size_pos c
  exact ⟨c.utf8Size + n - 1, by omega, by omega, by omega⟩

theorem dropBytes?_utf8Size_add (c : Char) (n : Nat) (cs : List Char) :
    dropBytes? (c.utf8Size + n) (c :: cs) = dropBytes? n cs := by
  obtain ⟨m, size, fits, left⟩ := exists_utf8Size_add c n
  rw [size, dropBytes?, if_pos fits, left]

theorem takeBytes?_utf8Size_add (c : Char) (n : Nat) (cs : List Char) :
    takeBytes? (c.utf8Size + n) (c :: cs) = (takeBytes? n cs).map (c :: ·) := by
  obtain ⟨m, size, fits, left⟩ := exists_utf8Size_add c n
  rw [size, takeBytes?, if_pos fits, left]

theorem dropBytes?_byteLength_append (cs ds : List Char) :
    dropBytes? (byteLength cs) (cs ++ ds) = some ds := by
  induction cs with
  | nil => cases ds <;> rfl
  | cons c cs ih =>
    rw [List.cons_append, byteLength_cons, dropBytes?_utf8Size_add]
    exact ih

theorem takeBytes?_byteLength_append (cs ds : List Char) :
    takeBytes? (byteLength cs) (cs ++ ds) = some cs := by
  induction cs with
  | nil => cases ds <;> rfl
  | cons c cs ih =>
    rw [List.cons_append, byteLength_cons, takeBytes?_utf8Size_add, ih]
    rfl

end Text

/-- The part of `source` under the span: nothing when an end lies past the text or inside a
character. -/
def Span.slice? (s : Span) (source : List Char) : Option (List Char) :=
  (Text.dropBytes? s.start source).bind (Text.takeBytes? (s.stop - s.start))

/-- A span cuts the middle out of three pieces when its ends are where the pieces meet. -/
theorem Span.slice?_append (before middle after : List Char) (s : Span)
    (start : s.start = Text.byteLength before)
    (stop : s.stop = Text.byteLength before + Text.byteLength middle) :
    s.slice? (before ++ middle ++ after) = some middle := by
  have width : s.stop - s.start = Text.byteLength middle := by omega
  rw [Span.slice?, width, start, List.append_assoc, Text.dropBytes?_byteLength_append]
  exact Text.takeBytes?_byteLength_append middle after

end SureCode
