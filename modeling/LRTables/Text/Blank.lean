import LRTables.Text.CharClass

/-!
# White space

Two sets of blank characters.  `isWhiteSpace` is the Unicode property White_Space:
no word may hold such a character.  `isBlank` has in addition the four information
separators U+001C to U+001F: a line of nothing but these is empty, and they are
what trimming takes off the ends of a text.
-/

namespace LRTables.Text

/-- The ranges of the Unicode property White_Space. -/
def whiteSpace : CharClass := [
  (0x0009, 0x000D), (0x0020, 0x0020), (0x0085, 0x0085), (0x00A0, 0x00A0),
  (0x1680, 0x1680), (0x2000, 0x200A), (0x2028, 0x2029), (0x202F, 0x202F),
  (0x205F, 0x205F), (0x3000, 0x3000)]

/-- The information separators: of files, groups, records and units. -/
def informationSeparator : CharClass := [(0x001C, 0x001F)]

/-- Has the character the property White_Space? -/
def isWhiteSpace (c : Char) : Bool := whiteSpace.contains c

/-- Is the character one that trimming takes off? -/
def isBlank (c : Char) : Bool := isWhiteSpace c || informationSeparator.contains c

/-- White space is blank. -/
theorem isBlank_of_isWhiteSpace {c : Char} (h : isWhiteSpace c = true) : isBlank c = true := by
  simp [isBlank, h]

/-- The blanks of ASCII are white space. -/
theorem isWhiteSpace_of_isWhitespace (c : Char) (h : c.isWhitespace = true) :
    isWhiteSpace c = true := by
  simp only [Char.isWhitespace, Bool.or_eq_true, decide_eq_true_eq] at h
  rcases h with ((rfl | rfl) | rfl) | rfl <;> decide

/-! ## Trimming -/

/-- The text without the blanks at its start. -/
def trimStart (cs : List Char) : List Char := cs.dropWhile isBlank

/-- The text without the blanks at its end. -/
def trimEnd (cs : List Char) : List Char := (trimStart cs.reverse).reverse

/-- The text without the blanks at both ends. -/
def trim (cs : List Char) : List Char := trimEnd (trimStart cs)

/-- Trimming the end of a text whose last character is not blank changes nothing. -/
theorem trimEnd_concat {c : Char} (cs : List Char) (h : isBlank c = false) :
    trimEnd (cs ++ [c]) = cs ++ [c] := by
  simp [trimEnd, trimStart, h]

/-- Blanks at the end go. -/
theorem trimEnd_concat_blank {c : Char} (cs : List Char) (h : isBlank c = true) :
    trimEnd (cs ++ [c]) = trimEnd cs := by
  simp [trimEnd, trimStart, h]

end LRTables.Text
