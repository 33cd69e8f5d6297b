/-!
# Ranges of code points

A Unicode property is a set of code points, stored as ascending ranges. Membership looks at the
ranges from below and stops at the first range that begins above the code point.
-/

namespace SureCode.Text

/-- A set of code points: ascending, disjoint ranges with both ends included. -/
abbrev CodeRanges := List (Nat × Nat)

/-- Whether a code point lies in one of the ranges. -/
def CodeRanges.contains : CodeRanges → Nat → Bool
  | [], _ => false
  | (low, high) :: rest, code =>
    if code < low then false else code ≤ high || CodeRanges.contains rest code

@[simp] theorem CodeRanges.contains_nil (code : Nat) : CodeRanges.contains [] code = false := rfl

theorem CodeRanges.contains_of_lt {low high code : Nat} {rest : CodeRanges} (below : code < low) :
    CodeRanges.contains ((low, high) :: rest) code = false := by
  simp [contains, below]

end SureCode.Text
