import LRTables.Fault
import LRTables.Grammar.Basic
import LRTables.Text.Blank

/-!
# Items

An item is a production with a dot somewhere on its right side and a look-ahead: the
symbols before the dot have been seen, those behind it are expected, and the
look-ahead is the symbol that may follow all of them.

* `Item.next?`, `Item.atEnd`, `Item.advance` — what stands behind the dot, and moving it.
* `Item.same` — equality of items by names.
* `Grammar.augment` and `Grammar.startItem` — the grammar with a start production of
  its own, and the item that everything begins with.
-/

namespace LRTables

/-- A production with a dot on its right side and a look-ahead.  The dot stands before
the symbol of that index; beyond the last symbol it stands at the end. -/
structure Item where
  /-- The name of the non-terminal on the left. -/
  lhs : String
  /-- The symbols on the right. -/
  rhs : List Symbol
  /-- How many symbols stand before the dot. -/
  dot : Nat
  /-- The name of the symbol that may follow. -/
  look : String
  deriving DecidableEq, Repr, Inhabited

namespace Item

/-- The item of a production with a dot and a look-ahead. -/
def ofProduction (p : Production) (dot : Nat) (look : String) : Item :=
  ⟨p.lhs, p.rhs, dot, look⟩

/-- Has all of the right side been seen? -/
def atEnd (i : Item) : Bool := i.rhs.length ≤ i.dot

/-- The symbol behind the dot. -/
def next? (i : Item) : Option Symbol := i.rhs[i.dot]?

/-- The item with its dot one symbol further. -/
def advance (i : Item) : Item := { i with dot := i.dot + 1 }

/-- The names on the right side. -/
def rhsNames (i : Item) : List String := i.rhs.map Symbol.name

/-- Items are the same when the names on both sides, the places of the dots and the
look-aheads are. -/
def same (i j : Item) : Bool :=
  i.dot == j.dot && i.look == j.look && i.lhs == j.lhs && sameNames i.rhs j.rhs

/-- The item as a line of text: the left side, an arrow, the right side with a dot in
its place, and the look-ahead. -/
def toText (i : Item) : String :=
  i.lhs ++ " ---> " ++
    " ".intercalate (i.rhsNames.take i.dot ++ "." :: i.rhsNames.drop i.dot) ++ "    " ++ i.look

/-- Nothing is behind the dot exactly when the dot is at the end. -/
theorem next?_eq_none_iff (i : Item) : i.next? = none ↔ i.atEnd = true := by
  simp [next?, atEnd]

/-- The names, the dot and the look-ahead are all there is to an item. -/
theorem same_iff (i j : Item) :
    i.same j = true ↔
      i.lhs = j.lhs ∧ i.rhsNames = j.rhsNames ∧ i.dot = j.dot ∧ i.look = j.look := by
  simp only [same, Bool.and_eq_true, beq_iff_eq, sameNames_iff, rhsNames]
  constructor
  · rintro ⟨⟨⟨hd, hl⟩, hs⟩, hr⟩; exact ⟨hs, hr, hd, hl⟩
  · rintro ⟨hs, hr, hd, hl⟩; exact ⟨⟨⟨hd, hl⟩, hs⟩, hr⟩

/-- Items as lines of text, one below the other, blanks at both ends trimmed. -/
def listing (items : List Item) : String :=
  String.ofList (Text.trim ("\n".intercalate (items.map toText)).toList)

end Item

namespace Grammar

/-- The grammar with a production in front that replaces a new start symbol, named like
the old one with a prime, by the old one. -/
def augment (g : Grammar) : Except Fault Grammar :=
  match g with
  | [] => .error .noProductions
  | p :: _ => .ok (⟨p.lhs ++ "'", [.nonterminal p.lhs], none⟩ :: g)

/-- The item that everything begins with: the first production, its dot in front,
followed by the end of the input. -/
def startItem (g : Grammar) : Except Fault Item :=
  match g with
  | [] => .error .noProductions
  | p :: _ => .ok (.ofProduction p 0 endMarker)

end Grammar

end LRTables
