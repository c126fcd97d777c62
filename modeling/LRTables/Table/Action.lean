import LRTables.Json

/-!
# Actions

What a parser does in a state on a symbol, and the two ways of writing it: an object
for tools, and a short text for a table that people read.
-/

namespace LRTables

/-- What a parser does in a state on a symbol. -/
inductive Action where
  /-- Read the terminal and go to a state. -/
  | shift (state : Nat)
  /-- Go to a state over a non-terminal that was just reduced. -/
  | goto (state : Nat)
  /-- Replace the names of a right side by the left side. -/
  | reduce (lhs : String) (rhs : List String)
  /-- The input is a sentence. -/
  | accept
  deriving DecidableEq, Repr, Inhabited

namespace Action

/-- The action as an object. -/
def toJson : Action → Json.Value
  | .shift state => .object [("action", .string "shift"), ("state", .number state)]
  | .goto state => .object [("action", .string "goto"), ("state", .number state)]
  | .reduce lhs rhs =>
    .object [("action", .string "reduce"),
      ("production", .object [("leftHandSide", .string lhs),
        ("rightHandSide", .array (rhs.map .string))])]
  | .accept => .object [("action", .string "accept")]

/-- The action as the text of a cell. -/
def toCell : Action → String
  | .shift state => "s" ++ toString state
  | .goto state => "g" ++ toString state
  | .reduce lhs rhs => "r(" ++ lhs ++ " -> " ++ " ".intercalate rhs ++ ")"
  | .accept => "acc"

end Action

end LRTables
