import LRTables.Text.Quoted

/-!
# Faults of a construction

A grammar that was read from a text is complete.  A grammar, an item or an automaton
that was put together in another way need not be, and a construction then names the
thing that it misses.
-/

namespace LRTables

/-- What a construction misses. -/
inductive Fault where
  /-- A non-terminal that has no FIRST set. -/
  | undefinedNonterminal (name : String)
  /-- A state that the automaton does not have. -/
  | missingState (index : Nat)
  /-- A grammar without productions has no start symbol. -/
  | noProductions
  /-- A start state without items has no start symbol. -/
  | noItems
  /-- An automaton without state zero cannot be drawn. -/
  | noStartState
  deriving DecidableEq, Repr

/-- What is missing, in words: a name in quotes, a state by its number. -/
def Fault.message : Fault → String
  | .undefinedNonterminal name => Text.quoted name
  | .missingState index => toString index
  | .noProductions => "list index out of range"
  | .noItems => "list index out of range"
  | .noStartState => "emit_dot: automaton has no start state 0"

end LRTables
