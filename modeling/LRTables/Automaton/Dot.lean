import LRTables.Ascending
import LRTables.Automaton.Basic
import LRTables.Fault
import LRTables.Text.Lines

/-!
# Automata as DOT graphs

The text of a directed graph in the DOT language: a node for each state in ascending
order, its label the number and the items of the state, and behind each node its
edges, labelled with the names that the transitions read.
-/

namespace LRTables

namespace Dot

/-- How a character is written between double quotes. -/
def escapeChar (c : Char) : List Char :=
  if c = '\\' then ['\\', '\\']
  else if c = '\x22' then ['\\', '\x22']
  else if c = '\n' then ['\\', 'n']
  else [c]

/-- How a text is written between double quotes. -/
def escape (s : String) : String := String.ofList (s.toList.flatMap escapeChar)

/-- A statement: what it is about, and its label. -/
def statement (subject label : String) : String :=
  "    " ++ subject ++ " [ label=\"" ++ escape label ++ "\" ]"

/-- The label of a state: its number, a blank line, and its items. -/
def label (index : Nat) (s : State) : String :=
  "[" ++ toString index ++ "]\n\n" ++ s.listing

/-- The edge of a transition. -/
def edge (index : Nat) (t : Transition) : String :=
  statement (toString index ++ " -> " ++ toString t.target) t.symbol.name

/-- The node of a state, and its edges. -/
def node (index : Nat) (s : State) : List String :=
  statement (toString index) (label index s) :: s.transitions.map (edge index)

/-- The name of a graph that was given none. -/
def defaultName : String := "G"

end Dot

namespace Automaton

/-- The lines of the graph of an automaton. -/
def dotLines (a : Automaton) (name : String) : List String :=
  ["digraph " ++ name ++ " \x7b", "    rankdir=\"LR\"", "    node [ shape=box ]"] ++
    ((ascending a.keys).flatMap fun index =>
      match a.get? index with
      | none => []
      | some s => Dot.node index s) ++
    ["\x7d"]

/-- The graph of an automaton that has a state zero. -/
def dot (a : Automaton) (name : String) : Except Fault String :=
  if 0 ∈ a then .ok (Text.unlines (a.dotLines name))
  else .error .noStartState

end Automaton

end LRTables
