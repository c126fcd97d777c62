import LRTables.Ascending
import LRTables.Distinct
import LRTables.Fault
import LRTables.Grammar.Basic

/-!
# Symbol tables

A symbol table fixes the order in which symbols are listed: first the end marker, then
the other terminals in the order of their code points, then the non-terminals in the
order of their first occurrence.  A table is empty until it is frozen, and frozen once.
-/

namespace LRTables

/-- The names of the symbols in the order in which they are listed. -/
structure SymbolTable where
  /-- The terminals, the end marker first. -/
  terminals : List String := []
  /-- The non-terminals in the order of first occurrence. -/
  nonterminals : List String := []
  /-- The start symbol of a table that is frozen. -/
  start : Option String := none
  deriving DecidableEq, Repr, Inhabited

namespace SymbolTable

/-- The table without symbols. -/
def empty : SymbolTable := {}

/-- The table with the given symbols, if it is not frozen yet. -/
def freeze (t : SymbolTable) (terminals nonterminals : List String) (start : String) :
    SymbolTable :=
  match t.start with
  | some _ => t
  | none =>
    { terminals := endMarker :: ascending (terminals.filter fun n => n ≠ endMarker)
      nonterminals := appendDistinct [] nonterminals
      start := some start }

/-- The symbols of a grammar. -/
def ofGrammar (g : Grammar) : Except Fault SymbolTable :=
  match g with
  | [] => .error .noProductions
  | p :: _ => .ok (empty.freeze g.terminals g.nonterminals p.lhs)

/-- All names in the order in which they are listed. -/
def names (t : SymbolTable) : List String := t.terminals ++ t.nonterminals

/-- Is the name that of a terminal? -/
def isTerminal (t : SymbolTable) (name : String) : Bool := t.terminals.contains name

end SymbolTable

end LRTables
