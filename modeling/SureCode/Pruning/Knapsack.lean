import SureCode.Pruning.Basic
import SureCode.Pruning.CostTable
import SureCode.Pruning.Outline

/-!
# Knapsack on a forest

For one budget, the most items that can be kept, and of those selections a cheapest one. An item may
be kept only with the item above it. Dropping an item whose parent is kept, or that has no parent,
opens one hole. Some items may be decided beforehand.

Every item has a table of the selections that keep it, built from its own cost and its children from
left to right. Each step is written down with the tables before and after it, and the selection is
read back from the steps, right to left.
-/

namespace SureCode

open SureCode.Tree

variable {κ : Type}

/-- What has been decided about an item. -/
inductive Status where
  | free
  | kept
  | dropped
deriving DecidableEq, Repr, Inhabited

/-- A set of kept items with its size. -/
structure Selection where
  count : Nat
  kept : SideTable Bool
deriving Repr

/-- Whether a selection keeps an item. -/
def Selection.keeps (s : Selection) (item : Nat) : Bool := (s.kept.get? item).getD false

/-- The problem without a budget. -/
structure Knapsack (κ : Type) where
  forest : List (Tree (Item κ))
  maxHoles : HoleBudget

/-- How holes and items are divided between what stands to the left of an item and the item with
what is below it. -/
structure Split where
  holesLeft : Nat
  countLeft : Nat
  holesOwn : Nat
  countOwn : Nat
deriving DecidableEq, Repr

/-- One step of the table of a parent: the tables before and after the item was taken in, and the
table of the item itself unless it was dropped beforehand. -/
structure Step (κ : Type) where
  item : Nat
  status : Status
  before : CostTable κ
  own : Option (CostTable κ)
  after : CostTable κ
deriving Repr

namespace Knapsack

/-- The number of items. -/
def size (k : Knapsack κ) : Nat := sizeAll k.forest

/-- The number of rows of every table. -/
def rows (k : Knapsack κ) : Nat := k.maxHoles.rows k.size

/-! ### Tables -/

/-- The ways to divide some holes and some items between two tables. -/
def splits (k : Knapsack κ) (left own : CostTable κ) (holes count : Nat) : List Split :=
  (k.maxHoles.splits holes).flatMap fun (holesLeft, holesOwn) =>
    let least := count + 1 - own.columns
    let most := min (count + 1) left.columns
    (List.range' least (most - least)).map fun countLeft =>
      ⟨holesLeft, countLeft, holesOwn, count - countLeft⟩

/-- The cost of dividing in one way. -/
def splitCost? [Scalar κ] (left own : CostTable κ) (s : Split) : Option κ :=
  addCosts (left.cost? s.holesLeft s.countLeft) (own.cost? s.holesOwn s.countOwn)

/-- The cost of dropping an item as a fresh hole. -/
def dropCost? (k : Knapsack κ) (left : CostTable κ) (holes count : Nat) : Option κ :=
  (k.maxHoles.beforeFresh? holes).bind fun holesLeft => left.cost? holesLeft count

/-- The table with one more item under the same parent. -/
def extend [Scalar κ] (k : Knapsack κ) (left : CostTable κ) (status : Status)
    (own : Option (CostTable κ)) : CostTable κ :=
  let columns := match own with
    | none => left.columns
    | some own => left.columns + own.columns - 1
  .tabulate k.rows columns fun holes count =>
    let dropped := if status = .kept then none else k.dropCost? left holes count
    match own with
    | none => dropped
    | some own =>
      (k.splits left own holes count).foldl (fun least s => cheaper least (splitCost? left own s))
        dropped

mutual

/-- The step that takes in one item with everything below it. -/
def step [Scalar κ] (k : Knapsack κ) (status : Nat → Status) (before : CostTable κ) :
    Tree (Item κ) → Tree (Step κ)
  | node item ts =>
    match status item.number with
    | .dropped => node ⟨item.number, .dropped, before, none, k.extend before .dropped none⟩ []
    | decided =>
      let (below, own) := steps k status (.single k.rows item.cost) ts
      node ⟨item.number, decided, before, some own, k.extend before decided (some own)⟩ below

/-- The steps that take in sibling items, and the table after them. -/
def steps [Scalar κ] (k : Knapsack κ) (status : Nat → Status) (before : CostTable κ) :
    List (Tree (Item κ)) → List (Tree (Step κ)) × CostTable κ
  | [] => ([], before)
  | t :: ts =>
    let first := step k status before t
    let (rest, last) := steps k status first.label.after ts
    (first :: rest, last)

end

/-! ### Reading back -/

/-- The row from which dropping the item led to a cost, if it did. -/
def droppedFrom? [Scalar κ] (k : Knapsack κ) (s : Step κ) (holes count : Nat) (target : κ) :
    Option Nat :=
  if s.status = .kept then none
  else (k.maxHoles.beforeFresh? holes).filter fun row => s.before.cost? row count == some target

/-- The first way of dividing that led to a cost with the item kept. -/
def keptBy? [Scalar κ] (k : Knapsack κ) (s : Step κ) (holes count : Nat) (target : κ) :
    Option Split :=
  s.own.bind fun own =>
    (k.splits s.before own holes count).find? fun split =>
      splitCost? s.before own split == some target

mutual

/-- The kept items of one step that ended with some holes and some items, and the holes and items
before it. Dropping comes before keeping. -/
def trace [Scalar κ] (k : Knapsack κ) (holes count : Nat) :
    Tree (Step κ) → List Nat × Nat × Nat
  | node s below =>
    match s.after.cost? holes count with
    | none => ([], holes, count)
    | some target =>
      match k.droppedFrom? s holes count target with
      | some row => ([], row, count)
      | none =>
        match k.keptBy? s holes count target with
        | none => ([], holes, count)
        | some split =>
          let (inside, _) := traceAll k split.holesOwn split.countOwn below
          (s.item :: inside, split.holesLeft, split.countLeft)

/-- The kept items of sibling steps, and the holes and items before them. -/
def traceAll [Scalar κ] (k : Knapsack κ) (holes count : Nat) :
    List (Tree (Step κ)) → List Nat × Nat × Nat
  | [] => ([], holes, count)
  | t :: ts =>
    let (right, holes, count) := traceAll k holes count ts
    let (own, holes, count) := trace k holes count t
    (own ++ right, holes, count)

end

/-! ### Selections -/

/-- The cheapest row of a column among those within the budget, the first of equals. -/
def cheapestRow? [Scalar κ] (k : Knapsack κ) (table : CostTable κ) (budget : κ) (count : Nat) :
    Option Nat :=
  let better (best : Option (Nat × κ)) (holes : Nat) : Option (Nat × κ) :=
    match table.cost? holes count with
    | none => best
    | some cost =>
      if !fits budget cost then best
      else match best with
        | none => some (holes, cost)
        | some (_, least) => if Scalar.totalLt cost least then some (holes, cost) else best
  ((List.range k.rows).foldl better none).map (·.1)

/-- The set of some items. -/
def selectionOf (size count : Nat) (items : List Nat) : Selection where
  count
  kept := items.foldl (fun table item => (table.set? item true).getD table) (.filled size false)

/-- A cheapest of the largest selections that fit a budget and agree with what is decided. -/
def solve? [Scalar κ] (k : Knapsack κ) (status : Nat → Status) (budget : κ) : Option Selection :=
  let (steps, table) := k.steps status (.nothing k.rows) k.forest
  (List.range table.columns).reverse.findSome? fun count =>
    (k.cheapestRow? table budget count).map fun holes =>
      selectionOf k.size count (k.traceAll holes count steps).1

end Knapsack

end SureCode
