/-!
# Classes of characters

A class of characters is a list of ranges of code points, both ends included.
-/

namespace LRTables.Text

/-- Ranges of code points, both ends included. -/
abbrev CharClass := List (Nat × Nat)

/-- Does the character lie in one of the ranges? -/
def CharClass.contains (ranges : CharClass) (c : Char) : Bool :=
  ranges.any fun r => r.1 ≤ c.toNat && c.toNat ≤ r.2

/-- A character is in a class exactly when one of the ranges spans it. -/
theorem CharClass.contains_iff (ranges : CharClass) (c : Char) :
    ranges.contains c = true ↔ ∃ r ∈ ranges, r.1 ≤ c.toNat ∧ c.toNat ≤ r.2 := by
  simp [CharClass.contains]

end LRTables.Text
