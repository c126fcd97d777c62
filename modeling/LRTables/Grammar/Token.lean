import LRTables.Text.Blank

/-!
# Tokens of a rule line

A line is a sequence of words and bars with gaps between them.  A gap is a run of
spaces, tabs and form feeds; a bar is the character `|`; a word is a run of
characters that are neither white space nor bars, as long as it can be.  White
space other than that of gaps fits nowhere, and the first such character is the
only thing that can be wrong with a line at this level.

* `Token.scan` — the tokens of a line, or the character that fits nowhere and its column.
-/

namespace LRTables

/-- The two kinds of tokens. -/
inductive Token.Kind where
  /-- The bar between alternatives. -/
  | bar
  /-- A name, an arrow, or anything else without white space and bars. -/
  | word
  deriving DecidableEq, Repr

/-- A token of a line and where it stands. -/
structure Token where
  /-- What it is. -/
  kind : Token.Kind
  /-- Its characters. -/
  lexeme : String
  /-- The number of its line. -/
  line : Nat
  /-- The column of its first character, from one on. -/
  column : Nat
  deriving DecidableEq, Repr

namespace Token

/-- Is the character one that gaps are made of? -/
def isGap (c : Char) : Bool := c == ' ' || c == '\t' || c == '\x0c'

/-- Is the character one that words are made of? -/
def isWordChar (c : Char) : Bool := c != '|' && !Text.isWhiteSpace c

/-- A gap is white space, so it ends a word. -/
theorem isWhiteSpace_of_isGap {c : Char} (h : isGap c = true) : Text.isWhiteSpace c = true := by
  simp only [isGap, Bool.or_eq_true, beq_iff_eq] at h
  rcases h with (rfl | rfl) | rfl <;> decide

/-- The word that was collected, its last character first, before `column`; none
if there is nothing to collect. -/
def ofPending (line column : Nat) (pending : List Char) : List Token :=
  if pending.isEmpty then []
  else [⟨.word, String.ofList pending.reverse, line, column - pending.length⟩]

/-- The tokens of the characters from `column` on, where `pending` is the
unfinished word before them, its last character first. -/
def scanFrom (line : Nat) (column : Nat) (pending : List Char) :
    List Char → Except (Char × Nat) (List Token)
  | [] => .ok (ofPending line column pending)
  | c :: rest =>
    if isWordChar c then scanFrom line (column + 1) (c :: pending) rest
    else if c = '|' then do
      let tokens ← scanFrom line (column + 1) [] rest
      return ofPending line column pending ++ ⟨.bar, "|", line, column⟩ :: tokens
    else if isGap c then do
      let tokens ← scanFrom line (column + 1) [] rest
      return ofPending line column pending ++ tokens
    else .error (c, column)

/-- The tokens of a line, or the first character that fits nowhere and its column. -/
def scan (line : Nat) (text : List Char) : Except (Char × Nat) (List Token) :=
  scanFrom line 1 [] text

end Token

end LRTables
