import LRTables.Text.Quoted

/-!
# Faults of a grammar text

What can be wrong with a grammar text, and how it is told: the reason, the place as
line and column, the line itself, and a caret under the column.
-/

namespace LRTables.Grammar

/-- What can be wrong at one place of a grammar text. -/
inductive Reason where
  /-- No token can begin with this character. -/
  | unexpectedChar (c : Char)
  /-- The line has fewer than three tokens. -/
  | malformedRule
  /-- The line begins with something that is not the name of a non-terminal. -/
  | invalidLeft (word : String)
  /-- The second token is not the arrow. -/
  | expectedArrow (found : String)
  /-- There is nothing between two bars, or before or after one. -/
  | emptyAlternative
  /-- A word on the right side is not a name. -/
  | invalidRight (word : String)
  /-- The name of the empty string stands beside other symbols. -/
  | epsilonNotAlone
  /-- No line has this non-terminal on its left side. -/
  | unresolved (name : String)
  deriving DecidableEq, Repr

/-- What is wrong with a grammar text. -/
inductive ReadError where
  /-- There is no rule in it. -/
  | noRules
  /-- The reason, with the line, the column and the text of the line. -/
  | fault (reason : Reason) (line column : Nat) (text : String)
  deriving DecidableEq, Repr

/-- The arrow between the sides of a rule. -/
def arrow : String := "--->"

/-- The reason in words. -/
def Reason.message : Reason → String
  | .unexpectedChar c => "Unexpected char " ++ Text.quoted (String.singleton c)
  | .malformedRule => "Malformed production rule"
  | .invalidLeft word => "'" ++ word ++ "' is an invalid non-terminal on left hand side"
  | .expectedArrow found => "Expected '" ++ arrow ++ "', got " ++ Text.quoted found
  | .emptyAlternative => "Empty alternative"
  | .invalidRight word => "'" ++ word ++ "' is an invalid (non-)terminal on right hand side"
  | .epsilonNotAlone => "Epsilon '" ++ "*" ++ "' must be the only symbol of its alternative"
  | .unresolved name => "Unresolved non-terminal '" ++ name ++ "'"

/-- The caret under a column. -/
def caret (column : Nat) : String := "".pushn ' ' (column - 1) ++ "^"

/-- The message: the reason and the place, the line, and a caret under the column. -/
def ReadError.message : ReadError → String
  | .noRules => "Grammar has no production rules"
  | .fault reason line column text =>
    reason.message ++ " at " ++ toString line ++ ":" ++ toString column ++ "\n" ++ text ++ "\n" ++
      caret column

end LRTables.Grammar
