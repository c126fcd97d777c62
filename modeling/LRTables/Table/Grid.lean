import LRTables.SymbolTable
import LRTables.Table.Basic
import LRTables.Text.Blank
import LRTables.Text.Lines

/-!
# Parse tables as grids

The table as text: a line of headings, a line of dashes, and a line for each state.
The columns are those of a symbol table, and behind them those that only the table
has.  Every column is as wide as its widest cell, columns are set apart by a bar, and
blanks at the end of a line are left out.
-/

namespace LRTables

namespace Text

/-- The text filled up with blanks to a width. -/
def padRight (width : Nat) (cs : List Char) : List Char :=
  cs ++ List.replicate (width - cs.length) ' '

end Text

namespace ParseTable

/-- The names of the columns: those given, and then those of cells under other names,
in the order of the table. -/
def columns (t : ParseTable) (names : List String) : List String :=
  appendDistinct names (t.rows.values.flatMap OrderedMap.keys)

/-- The cells of the headings. -/
def headings (columns : List String) : List (List Char) :=
  "state".toList :: columns.map String.toList

/-- The cells of a row: the number of the state, and under each name its action. -/
def gridRow (columns : List String) (state : Nat) (r : Row) : List (List Char) :=
  (toString state).toList ::
    columns.map fun n => match r.get? n with
      | none => []
      | some a => a.toCell.toList

/-- The widths of the columns of a grid, given the widths so far. -/
def widen : List Nat → List (List Char) → List Nat
  | w :: widths, c :: cells => max w c.length :: widen widths cells
  | widths, _ => widths

/-- A line of the grid. -/
def gridLine (widths : List Nat) (cells : List (List Char)) : List Char :=
  Text.trimEnd ([' ', '|', ' '].intercalate (List.zipWith Text.padRight widths cells))

/-- The line below the headings. -/
def ruleLine (widths : List Nat) : List Char :=
  ['-', '+', '-'].intercalate (widths.map fun w => List.replicate w '-')

/-- The lines of the grid. -/
def gridLines (t : ParseTable) (names : List String) : List (List Char) :=
  let columns := t.columns names
  let header := headings columns
  let body := t.rows.entries.map fun e => gridRow columns e.1 e.2
  let widths := body.foldl widen (header.map List.length)
  gridLine widths header :: ruleLine widths :: body.map (gridLine widths)

/-- The table as text, its columns in the order of a symbol table. -/
def grid (t : ParseTable) (symbols : SymbolTable) : String :=
  String.ofList (Text.joinLines (t.gridLines symbols.names))

end ParseTable

end LRTables
