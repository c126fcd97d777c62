import LRTables.Automaton.Basic
import LRTables.Fault
import LRTables.Table.Action

/-!
# Parse tables

A parse table has a row for each state of an automaton, and in a row a cell for each
symbol on which there is something to do.  The transitions of a state are entered
first, then its items with the dot at the end; of several actions for one cell the
last one stays, in the place of the first.

* `ParseTable.ofAutomaton` — the table of an automaton.
* `ParseTable.action?` — the action in a cell.
* `ParseTable.toJson` — the table as an object.
-/

namespace LRTables

/-- The cells of a state by the names of their symbols. -/
abbrev Row := OrderedMap String Action

/-- The rows by the numbers of their states. -/
structure ParseTable where
  /-- The rows, in the order of the states. -/
  rows : OrderedMap Nat Row
  deriving DecidableEq, Repr

namespace ParseTable

/-- The cell of a transition: a terminal is shifted, a non-terminal gone over. -/
def transitionCell (t : Transition) : String × Action :=
  match t.symbol with
  | .terminal name => (name, .shift t.target)
  | .nonterminal name => (name, .goto t.target)

/-- The cell of an item with the dot at the end: the input is accepted if the left side
is the start symbol and nothing follows, and the production reduced otherwise. -/
def itemCell? (start : String) (i : Item) : Option (String × Action) :=
  if i.atEnd then
    if i.lhs = start ∧ i.look = endMarker then some (endMarker, .accept)
    else some (i.look, .reduce i.lhs i.rhsNames)
  else none

/-- All that is to be entered into the row of a state, in order. -/
def cells (start : String) (s : State) : List (String × Action) :=
  s.transitions.map transitionCell ++ s.rules.filterMap (itemCell? start)

/-- The row of a state. -/
def row (start : String) (s : State) : Row := .ofList (cells start s)

/-- The start symbol of an automaton: the left side of the first item of state zero. -/
def startOf (a : Automaton) : Except Fault String :=
  match a.get? 0 with
  | none => .error (.missingState 0)
  | some s =>
    match s.rules with
    | [] => .error .noItems
    | i :: _ => .ok i.lhs

/-- The table of an automaton. -/
def ofAutomaton (a : Automaton) : Except Fault ParseTable := do
  let start ← startOf a
  return ⟨a.mapValues (row start)⟩

/-- The action of a state on a symbol, if there is one. -/
def action? (t : ParseTable) (state : Nat) (name : String) : Option Action :=
  (t.rows.get? state).bind fun r => r.get? name

/-- The number of cells in which the input is accepted. -/
def acceptCount (t : ParseTable) : Nat :=
  (t.rows.values.flatMap OrderedMap.values).count .accept

/-- The table as an object of objects. -/
def toJson (t : ParseTable) : Json.Value :=
  .object (t.rows.entries.map fun e =>
    (toString e.1, .object (e.2.entries.map fun c => (c.1, c.2.toJson))))

end ParseTable

end LRTables
