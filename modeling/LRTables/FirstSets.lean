import LRTables.Distinct
import LRTables.Fault
import LRTables.Grammar.Basic
import LRTables.OrderedMap

/-!
# FIRST sets

The FIRST set of a non-terminal lists the names of the terminals that its strings
can begin with, and the name of the empty string when one of its productions is
just that.  The sets are found in passes over all productions, each of which works
on what the productions before it have added, until a pass adds nothing.

* `FirstSets.scan` — what the symbols of a right side add to a set.
* `FirstSets.pass` — one pass over the productions.
* `FirstSets.passes` — the sets after each pass, the last one being stable.
* `FirstSets.compute` — the stable sets.
-/

namespace LRTables

/-- For each non-terminal the names in its FIRST set, in the order of discovery. -/
abbrev FirstSets := OrderedMap String (List String)

namespace FirstSets

/-- The sets with the names added to that of `lhs`. -/
def add (first : FirstSets) (lhs : String) (new : List String) : FirstSets :=
  first.modify lhs fun names => appendDistinct names new

/-- What the symbols of a right side add to the set of `lhs`.  A terminal adds its
name and ends the scan.  A non-terminal adds the names of its own set but for the
empty string, and the scan goes on behind it only if the empty string is among them. -/
def scan (lhs : String) : FirstSets → List Symbol → Except Fault FirstSets
  | first, [] => .ok first
  | first, .terminal a :: _ => .ok (first.add lhs [a])
  | first, .nonterminal b :: rest =>
    match first.get? b with
    | none => .error (.undefinedNonterminal b)
    | some names =>
      let first' := first.add lhs (names.filter fun a => a ≠ epsilon)
      if epsilon ∈ names then scan lhs first' rest else .ok first'

/-- What a production adds to the set of its left side. -/
def visit (first : FirstSets) (p : Production) : Except Fault FirstSets :=
  if p.isEpsilon then .ok (first.add p.lhs [epsilon]) else scan p.lhs first p.rhs

/-- One pass: every production adds its part, in order. -/
def pass (g : Grammar) (first : FirstSets) : Except Fault FirstSets := g.foldlM visit first

/-- The empty sets of all left sides, in the order of first occurrence. -/
def initial (g : Grammar) : FirstSets := .ofList (g.map fun p => (p.lhs, []))

/-- The sets after each of at most `bound` passes.  The pass that adds nothing is the last. -/
def passesFrom (g : Grammar) : Nat → FirstSets → Except Fault (List FirstSets)
  | 0, _ => .ok []
  | bound + 1, first =>
    match pass g first with
    | .error e => .error e
    | .ok next => if next = first then .ok [next] else (next :: ·) <$> passesFrom g bound next

/-- The names that a FIRST set can hold: the empty string and the terminals of the
right sides. -/
def candidates (g : Grammar) : List String := epsilon :: g.terminals

/-- The sets after each pass, until one adds nothing.  Every other pass adds at least
one candidate to one of the sets, which bounds their number. -/
def passes (g : Grammar) : Except Fault (List FirstSets) :=
  passesFrom g (1 + (initial g).size * (candidates g).length) (initial g)

/-- The FIRST sets of a grammar. -/
def compute (g : Grammar) : Except Fault FirstSets := do
  return (← passes g).getLast?.getD ∅

end FirstSets

end LRTables
