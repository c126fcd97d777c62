import LRTables.FirstSets
import LRTables.Item.Basic
import LRTables.Worklist

/-!
# Closures

An item with a non-terminal behind its dot brings in the items that begin the
productions of that non-terminal, one for each look-ahead.  The closure of an item is
the item itself and everything that is brought in by the items of the closure, in the
order in which it is found.

The look-aheads are read off the one symbol behind the non-terminal: the look-ahead of
the item if there is none, the symbol itself if it is a terminal, and its whole FIRST
set, the name of the empty string included, if it is a non-terminal.

* `Item.lookaheads` — the look-aheads that an item brings its non-terminal in with.
* `Item.closure` — the closure.
-/

namespace LRTables

namespace Item

/-- The look-aheads for the items that the non-terminal behind the dot brings in. -/
def lookaheads (first : FirstSets) (i : Item) : Except Fault (List String) :=
  match i.rhs[i.dot + 1]? with
  | none => .ok [i.look]
  | some (.terminal a) => .ok [a]
  | some (.nonterminal b) =>
    match first.get? b with
    | none => .error (.undefinedNonterminal b)
    | some names => .ok names

/-- The items that begin the productions of `name`, for each production and then for
each look-ahead. -/
def beginning (g : Grammar) (name : String) (looks : List String) : List Item :=
  (g.filter fun p => p.lhs == name).flatMap fun p => looks.map fun a => .ofProduction p 0 a

/-- The non-terminals that were brought in, each with a look-ahead it was brought in with. -/
abbrev Marks := List (String × String)

/-- What an item brings in.  A non-terminal is brought in once with each look-ahead;
the marks are made when all its productions have been gone through. -/
def expand (g : Grammar) (first : FirstSets) (marks : Marks) (i : Item) :
    Except Fault (Marks × List Item) :=
  match i.next? with
  | some (.nonterminal name) =>
    match i.lookaheads first with
    | .error e => .error e
    | .ok looks =>
      let new := looks.filter fun a => (name, a) ∉ marks
      .ok (new.map (fun a => (name, a)) ++ marks, beginning g name new)
  | _ => .ok (marks, [])

/-- The names that can be a look-ahead of an item in the closure of `seed`, as often as
they occur in the sets they come from. -/
def possibleLooks (g : Grammar) (first : FirstSets) (seed : Item) : List String :=
  seed.look :: terminalNames seed.rhs ++ g.terminals ++ first.values.flatten

/-- The closure of an item, which stands first.  Every other item begins a production
and has one of the possible look-aheads, which bounds their number. -/
def closure (g : Grammar) (first : FirstSets) (seed : Item) : Except Fault (List Item) :=
  Worklist.run (expand g first) (1 + g.length * (possibleLooks g first seed).length) [] [seed]

end Item

end LRTables
