import LRTables.Text.Fields

/-!
# Lines

Three line ends are understood: line feed, carriage return, and a carriage return
followed by a line feed.  `normalizeNewlines` turns each of them into one line
feed; `splitLines` cuts a text at its line feeds, so that a text has one line more
than it has line feeds.
-/

namespace LRTables.Text

/-- Every line end turned into a line feed.  A carriage return and the line feed
behind it are one line end. -/
def normalizeNewlines : List Char → List Char
  | '\r' :: '\n' :: rest => '\n' :: normalizeNewlines rest
  | '\r' :: rest => '\n' :: normalizeNewlines rest
  | c :: rest => c :: normalizeNewlines rest
  | [] => []

/-- The lines of a text: what stands between its line feeds. -/
def splitLines (cs : List Char) : List (List Char) := split '\n' cs

/-- Lines put together again, a line feed between neighbours. -/
def joinLines (lines : List (List Char)) : List Char := join '\n' lines

/-- The text of the lines, a line feed behind each. -/
def unlines (lines : List String) : String := String.join (lines.map (· ++ "\n"))

/-- No carriage return is left. -/
theorem not_mem_normalizeNewlines (cs : List Char) : '\r' ∉ normalizeNewlines cs := by
  fun_induction normalizeNewlines cs with
  | case1 rest ih => simpa using ih
  | case2 rest _ ih => simpa using ih
  | case3 c rest _ h ih =>
    have hc : '\r' ≠ c := fun e => h e.symm
    simpa [hc] using ih
  | case4 => simp

/-- A text without carriage returns is left as it is. -/
theorem normalizeNewlines_of_not_mem {cs : List Char} (h : '\r' ∉ cs) :
    normalizeNewlines cs = cs := by
  fun_induction normalizeNewlines cs with
  | case1 rest ih => simp at h
  | case2 rest _ ih => simp at h
  | case3 c rest _ _ ih =>
    rw [List.mem_cons, not_or] at h
    rw [ih h.2]
  | case4 => rfl

end LRTables.Text
