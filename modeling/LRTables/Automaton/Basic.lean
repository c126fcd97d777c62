import LRTables.Item.Basic
import LRTables.OrderedMap

/-!
# Automata of items

A state of an automaton is a list of items together with its transitions, each of
which leads over a symbol to the state of some number.  The states are kept by their
numbers, which need not be consecutive, in the order in which they were found.

* `Transition`, `State`, `Automaton` — the data.
* `State.same` — equality of states by names.
-/

namespace LRTables

/-- A step over a symbol to the state of some number. -/
structure Transition where
  /-- The symbol that is read. -/
  symbol : Symbol
  /-- The number of the state that is reached. -/
  target : Nat
  deriving DecidableEq, Repr, Inhabited

/-- Transitions are the same when the names of their symbols and their targets are. -/
def Transition.same (s t : Transition) : Bool := s.symbol.same t.symbol && s.target == t.target

/-- A list of items and the transitions that leave it. -/
structure State where
  /-- The items. -/
  rules : List Item
  /-- The transitions, in the order of the items that they advance. -/
  transitions : List Transition
  deriving DecidableEq, Repr, Inhabited

/-- Do two lists agree element by element under `same`? -/
def sameAll {α : Type} (same : α → α → Bool) : List α → List α → Bool
  | [], [] => true
  | a :: as, b :: bs => same a b && sameAll same as bs
  | _, _ => false

/-- States are the same when their items and transitions are, in the same order. -/
def State.same (s t : State) : Bool :=
  sameAll Item.same s.rules t.rules && sameAll Transition.same s.transitions t.transitions

/-- The items of a state as lines of text. -/
def State.listing (s : State) : String := Item.listing s.rules

/-- The states of an automaton by their numbers. -/
abbrev Automaton := OrderedMap Nat State

namespace Automaton

/-- The automaton whose states are numbered from zero on. -/
def ofStates (states : List State) : Automaton :=
  .ofList (states.zipIdx.map fun p => (p.2, p.1))

end Automaton

end LRTables
