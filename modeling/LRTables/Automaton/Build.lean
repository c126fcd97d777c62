import LRTables.Automaton.Expansion
import LRTables.Automaton.Merge

/-!
# The automaton of a grammar

The automaton of a grammar is its expansion after as many merge passes as it takes
until one merges nothing.

* `Automaton.mergeAll` — the passes.
* `Automaton.build` — the automaton with an account of how it came about.
* `Build.log` — the account in words.
-/

namespace LRTables

/-- An automaton and how it came about. -/
structure Build where
  /-- The number of states before any were merged. -/
  expanded : Nat
  /-- The merges of each pass.  The last pass has none. -/
  passes : List (List Merge)
  /-- The automaton after all passes. -/
  automaton : Automaton
  deriving DecidableEq, Repr

namespace Automaton

/-- Passes over the automaton until one merges nothing, at most `bound` of them: the
merges of each, and the automaton after the last. -/
def mergePasses : Nat → Automaton → Except Dangling (List (List Merge) × Automaton)
  | 0, a => .ok ([], a)
  | bound + 1, a =>
    match a.mergePass with
    | .error e => .error e
    | .ok (a', merges) =>
      if merges.isEmpty then .ok ([[]], a')
      else
        match mergePasses bound a' with
        | .error e => .error e
        | .ok (passes, last) => .ok (merges :: passes, last)

/-- Passes over the automaton until one merges nothing.  Every other pass removes a
state, which bounds their number. -/
def mergeAll (a : Automaton) : Except Dangling (List (List Merge) × Automaton) :=
  mergePasses (a.size + 1) a

/-- Builds the automaton of a grammar. -/
def build (g : Grammar) : Except Fault Build := do
  let expanded ← expand g
  match expanded.mergeAll with
  | .error e => throw (.missingState e.missing)
  | .ok (passes, merged) => return ⟨expanded.size, passes, merged⟩

/-- The automaton of a grammar. -/
def ofGrammar (g : Grammar) : Except Fault Automaton := Build.automaton <$> build g

end Automaton

/-- The account in lines: the states found, each merge, and what is left. -/
def Build.log (b : Build) : List String :=
  ("[DEBUG] automaton expanded | states=" ++ toString b.expanded) ::
    b.passes.flatten.map Merge.message ++
    ["[DEBUG] automaton merged | states=" ++ toString b.automaton.size ++ " passes=" ++
      toString b.passes.length]

end LRTables
