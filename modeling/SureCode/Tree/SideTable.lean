/-!
# Side tables

A side table keeps one value for every node of a tree, keyed by the node's number. Numbers below the
length have a value and others have none.
-/

namespace SureCode

/-- Values by node number. -/
structure SideTable (α : Type) where
  values : Array α
deriving Repr

namespace SideTable

variable {α β : Type}

instance : Inhabited (SideTable α) := ⟨⟨#[]⟩⟩

/-- `count` copies of one value. -/
def filled (count : Nat) (a : α) : SideTable α := ⟨Array.replicate count a⟩

/-- The values of a function on the first `count` numbers. -/
def ofFn (count : Nat) (f : Nat → α) : SideTable α := ⟨Array.ofFn fun i : Fin count => f i⟩

/-- The values of a list, in its order. -/
def ofList (values : List α) : SideTable α := ⟨values.toArray⟩

/-- The number of values. -/
def size (table : SideTable α) : Nat := table.values.size

/-- The table with one more value, and the number of that value. -/
def push (table : SideTable α) (a : α) : Nat × SideTable α :=
  (table.size, ⟨table.values.push a⟩)

/-- The value of a number. -/
def get? (table : SideTable α) (i : Nat) : Option α := table.values[i]?

/-- The table with another value at a number that has one. -/
def set? (table : SideTable α) (i : Nat) (a : α) : Option (SideTable α) :=
  if i < table.size then some ⟨table.values.setIfInBounds i a⟩ else none

/-- The table with the value of a number changed, if it has one. -/
def modify? (table : SideTable α) (i : Nat) (f : α → α) : Option (SideTable α) :=
  (table.get? i).bind fun a => table.set? i (f a)

/-- The table with every value changed. -/
def map (f : α → β) (table : SideTable α) : SideTable β := ⟨table.values.map f⟩

/-- All numbers with their values. -/
def entries (table : SideTable α) : List (Nat × α) :=
  (List.range table.size).zip table.values.toList

@[simp] theorem size_filled (count : Nat) (a : α) : (filled count a).size = count := by
  simp [filled, size]

@[simp] theorem size_ofFn (count : Nat) (f : Nat → α) : (ofFn count f).size = count := by
  simp [ofFn, size]

theorem get?_push (table : SideTable α) (a : α) (i : Nat) :
    (table.push a).2.get? i = if i = table.size then some a else table.get? i :=
  Array.getElem?_push

theorem get?_eq_none_iff (table : SideTable α) (i : Nat) :
    table.get? i = none ↔ table.size ≤ i := by
  simp [get?, size]

end SideTable

end SureCode
