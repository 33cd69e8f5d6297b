import Mathlib
import SureCode.Tree.SideTable

/-!
# Side tables as functions

What a side table holds after it was filled, or after some of its values were replaced. A value
replaced at a number without one leaves the table as it was. A table made from a list or from a
function is extended and changed as the list or the function is.
-/

namespace SureCode

namespace SideTable

variable {α : Type}

theorem get?_filled (count : Nat) (a : α) (i : Nat) :
    (filled count a).get? i = if i < count then some a else none := by
  simp [filled, get?, Array.getElem?_replicate]

theorem get?_ofFn (count : Nat) (f : Nat → α) (i : Nat) :
    (ofFn count f).get? i = if i < count then some (f i) else none := by
  by_cases lt : i < count <;> simp [ofFn, get?, lt]

theorem get?_map {β : Type} (table : SideTable α) (f : α → β) (i : Nat) :
    (table.map f).get? i = (table.get? i).map f :=
  Array.getElem?_map

theorem ext_get? {table other : SideTable α} (same : ∀ i, table.get? i = other.get? i) :
    table = other := by
  cases table
  cases other
  exact congrArg mk (Array.ext_getElem? same)

/-! ### Tables of lists -/

section OfList

variable {values : List α} {i : Nat}

@[simp] theorem size_ofList (values : List α) : (ofList values).size = values.length := by
  simp [ofList, size]

@[simp] theorem get?_ofList (values : List α) (i : Nat) : (ofList values).get? i = values[i]? := by
  simp [ofList, get?]

theorem push_ofList (values : List α) (a : α) :
    (ofList values).push a = (values.length, ofList (values ++ [a])) := by
  simp [ofList, push, size]

theorem set?_ofList (lt : i < values.length) (a : α) :
    (ofList values).set? i a = some (ofList (values.set i a)) := by
  simp [ofList, set?, size, lt]

theorem modify?_ofList (lt : i < values.length) (f : α → α) :
    (ofList values).modify? i f = some (ofList (values.modify i f)) := by
  rw [modify?, get?_ofList, List.getElem?_eq_getElem lt, Option.bind_some, set?_ofList lt,
    List.modify_eq_set_getElem?, List.getElem?_eq_getElem lt]
  rfl

end OfList

/-! ### Tables of functions -/

section OfFn

variable {count i : Nat} {f g : Nat → α}

theorem ofFn_congr (same : ∀ i < count, f i = g i) : ofFn count f = ofFn count g := by
  refine ext_get? fun i => ?_
  rw [get?_ofFn, get?_ofFn]
  split
  case isTrue lt => rw [same i lt]
  case isFalse => rfl

theorem filled_eq_ofFn (count : Nat) (a : α) : filled count a = ofFn count fun _ => a := by
  refine ext_get? fun i => ?_
  rw [get?_filled, get?_ofFn]

theorem ofList_map_eq_ofFn {β : Type} {values : List β} {change : β → α}
    (same : ∀ i b, values[i]? = some b → f i = change b) :
    ofList (values.map change) = ofFn values.length f := by
  refine ext_get? fun i => ?_
  rw [get?_ofList, List.getElem?_map, get?_ofFn]
  by_cases lt : i < values.length
  · rw [List.getElem?_eq_getElem lt, Option.map_some, if_pos lt,
      same i _ (List.getElem?_eq_getElem lt)]
  · rw [List.getElem?_eq_none (not_lt.1 lt), Option.map_none, if_neg lt]

theorem entries_ofFn (count : Nat) (f : Nat → α) :
    (ofFn count f).entries = (List.range count).map fun i => (i, f i) := by
  have values : (ofFn count f).values.toList = (List.range count).map f := by
    refine List.ext_getElem (by simp [ofFn]) fun i _ _ => ?_
    simp [ofFn]
  rw [entries, size_ofFn, values, List.zip, List.zipWith_map_right, List.zipWith_self]

theorem push_ofFn (count : Nat) (f : Nat → α) :
    (ofFn count f).push (f count) = (count, ofFn (count + 1) f) := by
  refine Prod.ext (size_ofFn count f) (ext_get? fun i => ?_)
  rw [get?_push, size_ofFn, get?_ofFn, get?_ofFn]
  by_cases eq : i = count
  · simp [eq]
  · simp [eq, Nat.le_iff_lt_or_eq]

theorem set?_ofFn (lt : i < count) (a : α) :
    (ofFn count f).set? i a = some (ofFn count (Function.update f i a)) := by
  rw [set?, if_pos (by rwa [size_ofFn])]
  refine congrArg some (ext_get? fun j => ?_)
  rw [get?_ofFn, Function.update_apply, get?, ofFn, Array.getElem?_setIfInBounds]
  by_cases eq : i = j
  · simp [← eq, lt]
  · rw [if_neg eq, if_neg (Ne.symm eq)]
    exact get?_ofFn count f j

theorem modify?_ofFn (lt : i < count) (change : α → α) :
    (ofFn count f).modify? i change = some (ofFn count (Function.update f i (change (f i)))) := by
  rw [modify?, get?_ofFn, if_pos lt, Option.bind_some, set?_ofFn lt]

theorem map_ofFn {β : Type} (count : Nat) (f : Nat → α) (change : α → β) :
    (ofFn count f).map change = ofFn count fun i => change (f i) := by
  refine ext_get? fun i => ?_
  rw [get?_map, get?_ofFn, get?_ofFn]
  split <;> rfl

end OfFn

/-! ### Replaced values -/

/-- The table with another value at a number that has one, and else the table itself. -/
def replace (table : SideTable α) (i : Nat) (a : α) : SideTable α := (table.set? i a).getD table

@[simp] theorem size_replace (table : SideTable α) (i : Nat) (a : α) :
    (table.replace i a).size = table.size := by
  unfold replace set?
  split <;> simp [size]

theorem get?_replace (table : SideTable α) (i j : Nat) (a : α) :
    (table.replace i a).get? j = if j = i ∧ i < table.size then some a else table.get? j := by
  unfold replace set?
  by_cases lt : i < table.size
  · by_cases eq : j = i
    · subst eq
      have inside : j < table.values.size := lt
      simp [lt, get?, inside]
    · simp [lt, eq, get?, Array.getElem?_setIfInBounds_ne (Ne.symm eq)]
  · simp [lt]

@[simp] theorem size_foldl_replace (items : List Nat) (table : SideTable α) (a : α) :
    (items.foldl (fun table i => table.replace i a) table).size = table.size := by
  induction items generalizing table with
  | nil => rfl
  | cons i items ih => rw [List.foldl_cons, ih, size_replace]

/-- Replacing one value after another by the same leaves it at all their numbers. -/
theorem get?_foldl_replace (items : List Nat) (table : SideTable α) (a : α) (j : Nat) :
    (items.foldl (fun table i => table.replace i a) table).get? j
      = if j ∈ items ∧ j < table.size then some a else table.get? j := by
  induction items generalizing table with
  | nil => simp
  | cons i items ih =>
    rw [List.foldl_cons, ih, size_replace, get?_replace]
    by_cases mem : j ∈ items <;> by_cases lt : j < table.size <;> by_cases eq : j = i <;>
      simp_all

end SideTable

end SureCode
