import SureCode.Pruning.Knapsack

/-!
# Search over nested selections

One selection for each of several budgets, the loosest first, such that a tighter selection keeps
nothing that a looser one drops, and such that together they keep the most items. The search solves
each budget by itself. The sizes of those selections bound the size of any nested ones; where they
nest they are the answer, and else the search branches on an item that a tighter selection keeps and
the looser one before it drops.
-/

namespace SureCode

open SureCode.Tree

variable {κ : Type}

/-! ### Decisions under one budget -/

/-- What has been decided about the items under one budget. -/
abbrev Decisions := SideTable Status

namespace Decisions

def status (d : Decisions) (item : Nat) : Status := (d.get? item).getD .free

/-- Decides about one item. -/
def decide (d : Decisions) (item : Nat) (s : Status) : Decisions := (d.set? item s).getD d

/-- Keeps an item and the items above it, up to one that is kept already. Nothing if one of them is
dropped. -/
def keepPath : List Nat → Decisions → Option Decisions
  | [], d => some d
  | item :: above, d =>
    match d.status item with
    | .dropped => none
    | .kept => some d
    | .free => keepPath above (d.decide item .kept)

/-- Drops some items. Nothing if one of them is kept. -/
def dropAll : List Nat → Decisions → Option Decisions
  | [], d => some d
  | item :: rest, d =>
    match d.status item with
    | .kept => none
    | _ => dropAll rest (d.decide item .dropped)

end Decisions

/-! ### Nested selections -/

/-- Selections that nest, as one number for each item: under how many budgets it is kept, from the
loosest. -/
structure Levels where
  score : Nat
  levels : SideTable Nat
deriving Repr

/-- The number of items that some selections keep together. -/
def totalCount : List Selection → Nat
  | [] => 0
  | selection :: rest => selection.count + totalCount rest

namespace Levels

/-- The levels of nested selections, the loosest first. -/
def ofSelections (items : Nat) (selections : List Selection) : Levels where
  score := totalCount selections
  levels := .ofFn items fun item => (selections.takeWhile fun s => s.keeps item).length

/-- No item is kept under any budget. -/
def none (items : Nat) : Levels := ⟨0, .filled items 0⟩

/-- Whether an item is kept under the budget at a place. -/
def keeps (l : Levels) (budget item : Nat) : Bool := budget < (l.levels.get? item).getD 0

end Levels

/-- An item that the selection after place `looser` keeps and the one at that place drops. -/
structure Conflict where
  item : Nat
  looser : Nat
deriving DecidableEq, Repr

/-- The first conflict of some selections over so many items, by the place and then by the item. -/
def firstConflict? (items : Nat) (selections : List Selection) : Option Conflict :=
  (selections.zip (selections.drop 1)).zipIdx.findSome? fun ((looser, tighter), place) =>
    ((List.range items).find? fun item => tighter.keeps item && !looser.keeps item).map
      fun item => ⟨item, place⟩

/-! ### Search -/

/-- What is searched. -/
structure Search (κ : Type) where
  knapsack : Knapsack κ
  index : TreeIndex (Item κ)
  /-- What the items may cost, from the loosest budget to the tightest. -/
  budgets : List κ
  /-- How many times the search may solve all budgets. -/
  limit : Nat

/-- How far the search has come. -/
structure Progress where
  expansions : Nat
  best : Option Levels
deriving Repr

namespace Progress

/-- Whether a score is greater than the best so far. -/
def improvedBy (p : Progress) (score : Nat) : Bool :=
  match p.best with
  | none => true
  | some best => best.score < score

/-- The better of the best so far and other levels. -/
def offer (p : Progress) (found : Levels) : Progress :=
  if p.improvedBy found.score then { p with best := some found } else p

end Progress

namespace Search

def items (s : Search κ) : Nat := s.knapsack.size

/-- For each budget by itself a selection that agrees with what is decided. -/
def selections? [Scalar κ] (s : Search κ) (fixed : List Decisions) : Option (List Selection) :=
  (fixed.zip s.budgets).mapM fun (decisions, budget) =>
    s.knapsack.solve? decisions.status budget

/-- Nested selections, each keeping what the next tighter one keeps. -/
def growFrom? [Scalar κ] (k : Knapsack κ) : List (Decisions × κ) → Option (List Selection)
  | [] => some []
  | (decisions, budget) :: tighter => do
    let selections ← growFrom? k tighter
    let forced (item : Nat) : Bool := (selections.head?.map (·.keeps item)).getD false
    let status (item : Nat) : Status := if forced item then .kept else decisions.status item
    let selection ← k.solve? status budget
    return selection :: selections

/-- Nested selections that agree with what is decided, built from the tightest budget on. -/
def grow? [Scalar κ] (s : Search κ) (fixed : List Decisions) : Option Levels :=
  (growFrom? s.knapsack (fixed.zip s.budgets)).map (Levels.ofSelections s.items)

/-- The decisions with the item of a conflict kept under the looser budget and all before it. -/
def withKept (s : Search κ) (fixed : List Decisions) (c : Conflict) : Option (List Decisions) := do
  let looser ← (fixed.take (c.looser + 1)).mapM (Decisions.keepPath (s.index.path c.item))
  return looser ++ fixed.drop (c.looser + 1)

/-- The decisions with the item of a conflict dropped under the tighter budget and all after it. -/
def withDropped (s : Search κ) (fixed : List Decisions) (c : Conflict) :
    Option (List Decisions) := do
  let tighter ← (fixed.drop (c.looser + 1)).mapM (Decisions.dropAll (s.index.subtree c.item))
  return fixed.take (c.looser + 1) ++ tighter

/-- Searches the nested selections that agree with what is decided. Each branch decides at least one
more item under one more budget, so the depth is bounded by the number of undecided pairs. -/
def visit [Scalar κ] (s : Search κ) : Nat → List Decisions → Progress →
    Except (PruneError κ) Progress
  | 0, _, p => .ok p
  | depth + 1, fixed, p =>
    if s.limit ≤ p.expansions then .error (.searchLimitExceeded s.limit)
    else
      let p := { p with expansions := p.expansions + 1 }
      match s.selections? fixed with
      | none => .ok p
      | some selections =>
        let bound := totalCount selections
        if !p.improvedBy bound then .ok p
        else match firstConflict? s.items selections with
          | none => .ok { p with best := some (.ofSelections s.items selections) }
          | some conflict =>
            let p := match s.grow? fixed with
              | some found => p.offer found
              | none => p
            if !p.improvedBy bound then .ok p
            else do
              let p ← match s.withKept fixed conflict with
                | some fixed => visit s depth fixed p
                | none => .ok p
              match s.withDropped fixed conflict with
              | some fixed => visit s depth fixed p
              | none => .ok p

/-- The levels with the greatest score. -/
def run [Scalar κ] (s : Search κ) : Except (PruneError κ) Levels :=
  if s.budgets.isEmpty then .ok (.none s.items)
  else do
    let undecided : Decisions := .filled s.items .free
    let depth := s.items * s.budgets.length + 1
    let p ← s.visit depth (s.budgets.map fun _ => undecided) ⟨0, none⟩
    match p.best with
    | some levels => .ok levels
    | none => .error .unsolved

end Search

end SureCode
