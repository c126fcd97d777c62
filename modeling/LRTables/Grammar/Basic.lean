/-!
# Context-free grammars

A grammar is a list of productions; the left side of the first one is the start
symbol.  Symbols are told apart by their names: a name stands for one symbol
wherever it occurs, and `sameNames` is the equality that the tables are built with.

* `Symbol`, `Production`, `Grammar` — the data.
* `endMarker` and `epsilon` — the two names with a meaning of their own.
* `Production.same` — equality of productions by names, their lines left aside.
-/

namespace LRTables

/-- The name of the look-ahead at the end of the input. -/
def endMarker : String := "$"

/-- The name that stands for the empty string on a right side. -/
def epsilon : String := "*"

/-- A symbol of a grammar: a terminal or a non-terminal with its name. -/
inductive Symbol where
  /-- A symbol of the input. -/
  | terminal (name : String)
  /-- A symbol that productions replace. -/
  | nonterminal (name : String)
  deriving DecidableEq, Repr, Inhabited

namespace Symbol

/-- The name of the symbol. -/
def name : Symbol → String
  | .terminal n => n
  | .nonterminal n => n

/-- Is the symbol one of the input? -/
def isTerminal : Symbol → Bool
  | .terminal _ => true
  | .nonterminal _ => false

@[simp] theorem name_terminal (n : String) : (terminal n).name = n := rfl

@[simp] theorem name_nonterminal (n : String) : (nonterminal n).name = n := rfl

@[simp] theorem isTerminal_terminal (n : String) : (terminal n).isTerminal = true := rfl

@[simp] theorem isTerminal_nonterminal (n : String) : (nonterminal n).isTerminal = false := rfl

/-- Symbols are the same when their names are. -/
def same (x y : Symbol) : Bool := x.name == y.name

end Symbol

/-- Do the two strings of symbols have the same names? -/
def sameNames : List Symbol → List Symbol → Bool
  | [], [] => true
  | x :: xs, y :: ys => x.same y && sameNames xs ys
  | _, _ => false

/-- Comparing symbol by symbol is comparing the lists of names. -/
theorem sameNames_iff (xs ys : List Symbol) :
    sameNames xs ys = true ↔ xs.map Symbol.name = ys.map Symbol.name := by
  induction xs generalizing ys with
  | nil => cases ys <;> simp [sameNames]
  | cons x xs ih => cases ys <;> simp [sameNames, Symbol.same, ih]

/-- The names of the terminals in a string of symbols. -/
def terminalNames (xs : List Symbol) : List String := (xs.filter Symbol.isTerminal).map Symbol.name

/-- The names of the non-terminals in a string of symbols. -/
def nonterminalNames (xs : List Symbol) : List String :=
  (xs.filter fun x => !x.isTerminal).map Symbol.name

/-- A production: a non-terminal and one of the strings of symbols that it may be
replaced by. -/
structure Production where
  /-- The name of the non-terminal on the left. -/
  lhs : String
  /-- The symbols on the right. -/
  rhs : List Symbol
  /-- The number of the line that the production was read from. -/
  line : Option Nat := none
  deriving DecidableEq, Repr, Inhabited

/-- A grammar.  The left side of its first production is the start symbol. -/
abbrev Grammar := List Production

namespace Production

/-- The names on the right side. -/
def rhsNames (p : Production) : List String := p.rhs.map Symbol.name

/-- Is the right side just the name of the empty string? -/
def isEpsilon (p : Production) : Bool :=
  match p.rhs with
  | [x] => x.name == epsilon
  | _ => false

/-- Productions are the same when the names on both sides are. -/
def same (p q : Production) : Bool := p.lhs == q.lhs && sameNames p.rhs q.rhs

/-- The production as a line of text: its left side, an arrow and the names on the right. -/
def toText (p : Production) : String := p.lhs ++ " -> " ++ " ".intercalate p.rhsNames

/-- The line does not count when productions are compared. -/
theorem same_iff (p q : Production) :
    p.same q = true ↔ p.lhs = q.lhs ∧ p.rhsNames = q.rhsNames := by
  simp [same, sameNames_iff, rhsNames]

end Production

namespace Grammar

/-- The names of the terminals on the right sides. -/
def terminals (g : Grammar) : List String := g.flatMap fun p => terminalNames p.rhs

/-- The names of the non-terminals on both sides, in the order of the text. -/
def nonterminals (g : Grammar) : List String := g.flatMap fun p => p.lhs :: nonterminalNames p.rhs

end Grammar

end LRTables
