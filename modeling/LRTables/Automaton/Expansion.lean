import LRTables.Automaton.Basic
import LRTables.Item.Closure

/-!
# Expansion

From a first item all items are found that can be reached by closing and advancing.
Every state of the expansion is the closure of one item, its kernel, which stands
first in it; two items lead to the same state only if they are the same.  So an item
that several items of a state advance over the same symbol to gets a transition for
each of them, and states with several transitions over one symbol are common.

* `State.close` — the state of one item, before it leads anywhere.
* `Expansion.closures` — the closures of all kernels, in the order of discovery.
* `Expansion.states` — the states, with a transition for each item that can advance.
* `Automaton.expand` — the automaton of a grammar before any states are merged.
-/

namespace LRTables

/-- The state of the closure of an item, from which no transition leaves yet. -/
def State.close (g : Grammar) (first : FirstSets) (seed : Item) : Except Fault State :=
  (fun items => ⟨items, []⟩) <$> Item.closure g first seed

namespace Expansion

/-- The items of a closure that can advance, advanced. -/
def successors (items : List Item) : List Item :=
  (items.filter fun i => !i.atEnd).map Item.advance

/-- The kernels among `items` that are not in `known`, each once. -/
def newKernels (known : List Item) : List Item → List Item
  | [] => []
  | i :: rest =>
    if known.any i.same then newKernels known rest else i :: newKernels (i :: known) rest

/-- The closures that a closure leads to and that are not known yet. -/
def step (g : Grammar) (first : FirstSets) (known : List Item) (items : List Item) :
    Except Fault (List Item × List (List Item)) :=
  let new := newKernels known (successors items)
  match new.mapM (Item.closure g first) with
  | .error e => .error e
  | .ok closures => .ok (new.reverse ++ known, closures)

/-- The number of symbols on the right sides. -/
def places (g : Grammar) : Nat := (g.flatMap Production.rhs).length

/-- The closures of the kernels that `seed` leads to, in the order of discovery.  A
kernel other than the first has its dot behind one of the symbols of a right side and
one of the possible look-aheads, which bounds their number. -/
def closures (g : Grammar) (first : FirstSets) (seed : Item) :
    Except Fault (List (List Item)) :=
  match Item.closure g first seed with
  | .error e => .error e
  | .ok items =>
    Worklist.run (step g first)
      (1 + (seed.rhs.length + places g) * (Item.possibleLooks g first seed).length) [seed] [items]

/-- The index of the first closure whose kernel is `i`, or the number of closures if
there is none. -/
def indexOf (closures : List (List Item)) (i : Item) : Nat :=
  closures.findIdx fun items => items.head?.any i.same

/-- The state of a closure: an item that can advance leads over the symbol behind its
dot to the closure of the advanced item. -/
def state (closures : List (List Item)) (items : List Item) : State :=
  ⟨items, items.filterMap fun i => i.next?.map fun x => ⟨x, indexOf closures i.advance⟩⟩

/-- The states that `seed` leads to, in the order of discovery. -/
def states (g : Grammar) (first : FirstSets) (seed : Item) : Except Fault (List State) := do
  let all ← closures g first seed
  return all.map (state all)

end Expansion

namespace Automaton

/-- The states that the start item of the augmented grammar leads to. -/
def expandedStates (g : Grammar) : Except Fault (List State) := do
  let first ← FirstSets.compute g
  let augmented ← g.augment
  let seed ← augmented.startItem
  Expansion.states augmented first seed

/-- The automaton of a grammar before any states are merged. -/
def expand (g : Grammar) : Except Fault Automaton := ofStates <$> expandedStates g

end Automaton

end LRTables
