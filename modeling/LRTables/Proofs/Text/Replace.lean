import Mathlib.Tactic.Common

/-!
# Replacing in texts

Every place where a text stands in another one is given a new text, from left to right and without
overlaps.  What is put in is not looked at again.

* `Text.replaceAll` — the text after a replacement.
* `Text.replaceAll_singleton` — replacing a single character goes character by character.
-/

namespace LRTables.Text

/-- The text with `new` wherever `old` stands, where the next `skip` characters belong to a place
that was found before. -/
def replaceFrom (old new : List Char) : Nat → List Char → List Char
  | _, [] => []
  | skip + 1, _ :: rest => replaceFrom old new skip rest
  | 0, c :: rest =>
    if old.isPrefixOf (c :: rest) then new ++ replaceFrom old new (old.length - 1) rest
    else c :: replaceFrom old new 0 rest

/-- The text with `new` wherever `old` stands. -/
def replaceAll (old new cs : List Char) : List Char := replaceFrom old new 0 cs

/-- Replacing a single character goes character by character. -/
theorem replaceAll_singleton (old : Char) (new cs : List Char) :
    replaceAll [old] new cs = cs.flatMap fun c => if c = old then new else [c] := by
  induction cs with
  | nil => rfl
  | cons c rest ih =>
    unfold replaceAll at ih ⊢
    rw [replaceFrom, List.flatMap_cons, ← ih]
    by_cases hc : c = old
    · simp [hc]
    · have hc' : ¬ old = c := fun e => hc e.symm
      simp [hc, hc']

end LRTables.Text
