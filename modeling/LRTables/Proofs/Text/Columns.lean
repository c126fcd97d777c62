import LRTables.Table.Grid
import LRTables.Proofs.Text.Fields
import Mathlib.Data.List.Forall2

/-!
# Texts in columns

Cells are filled up with blanks to the widths of their columns, and stand on a line with a separator
between them.  The blanks at the end of the line are left out, so that the last cells may be cut off,
but no separator is.  Cutting the line at its bars therefore gives the cells back, and every column
begins at the same offset on all lines.

* `Text.IsCell` — the texts that can stand in a column.
* `Text.columnStart` — where a column begins.
* `Text.Shows` — a line shows its cells in columns.
* `Text.prefix_drop_columnStart` — cells with separators between them stand in their columns.
-/

namespace LRTables

namespace Text

/-! ## Cells -/

/-- Can the text stand in a column?  It has no bar, no blank but spaces, and none at its ends. -/
structure IsCell (cs : List Char) : Prop where
  /-- There is no bar, and every blank is a space. -/
  chars : ∀ c ∈ cs, c ≠ '|' ∧ (isBlank c = true → c = ' ')
  /-- The first character is not blank. -/
  head : ∀ c, cs.head? = some c → isBlank c = false
  /-- Nor is the last. -/
  last : ∀ c, cs.getLast? = some c → isBlank c = false

theorem IsCell.trim_eq {cs : List Char} (h : IsCell cs) : trim cs = cs :=
  trim_eq_self h.head h.last

/-- Filling up a cell adds blanks. -/
theorem IsCell.trim_padRight {cs : List Char} (h : IsCell cs) (width : Nat) :
    trim (padRight width cs) = cs := by
  rw [padRight, trim_append_of_blank cs (isBlank_of_mem_spaces _), h.trim_eq]

theorem IsCell.chars_padRight {cs : List Char} (h : IsCell cs) (width : Nat) :
    ∀ c ∈ padRight width cs, c ≠ '|' ∧ (isBlank c = true → c = ' ') := by
  intro c hc
  rcases List.mem_append.1 hc with hc | hc
  · exact h.chars c hc
  · rw [List.eq_of_mem_replicate hc]
    exact ⟨by decide, fun _ => rfl⟩

theorem length_padRight {cs : List Char} {width : Nat} (h : cs.length ≤ width) :
    (padRight width cs).length = width := by
  rw [padRight, List.length_append, List.length_replicate]
  omega

/-! ## Columns -/

/-- Where a column begins: behind those before it and the separators of three characters between
them. -/
def columnStart : List Nat → Nat → Nat
  | width :: widths, i + 1 => width + 3 + columnStart widths i
  | _, _ => 0

/-- **Does the line show the cells in columns of the widths**, with separators between them?  Every
cell fits into its column, stands at the start of it and is filled up to the end, where a separator
follows if there is a next column.  Only blanks at the end of the line may be missing. -/
def Shows (widths : List Nat) (sep : List Char) (cells : List (List Char)) (line : List Char) :
    Prop :=
  cells.length = widths.length ∧ ∃ blanks, ∀ i cell width, cells[i]? = some cell →
    widths[i]? = some width → cell.length ≤ width ∧
    padRight width cell ++ (if i + 1 < widths.length then sep else []) <+:
      (line ++ List.replicate blanks ' ').drop (columnStart widths i)

/-- Cells of the widths of their columns stand where the columns begin. -/
theorem prefix_drop_columnStart (separator : List Char) (hsep : separator.length = 3)
    {widths : List Nat} {cells : List (List Char)} (h : cells.map List.length = widths) {i : Nat}
    {cell : List Char} (hcell : cells[i]? = some cell) :
    cell ++ (if i + 1 < cells.length then separator else []) <+:
      (separator.intercalate cells).drop (columnStart widths i) := by
  induction cells generalizing widths i with
  | nil => simp at hcell
  | cons first rest ih =>
    subst h
    cases rest with
    | nil =>
      obtain rfl : i = 0 := by
        have hi := (List.getElem?_eq_some_iff.1 hcell).1
        rw [List.length_singleton] at hi
        omega
      obtain rfl : first = cell := by simpa using hcell
      simp [columnStart, List.intercalate_singleton]
    | cons next rest =>
      cases i with
      | zero =>
        obtain rfl : first = cell := by simpa using hcell
        rw [List.map_cons, columnStart, List.drop_zero, List.intercalate_cons_cons,
          if_pos (by simp)]
        · exact List.prefix_append _ _
        · simp
      | succ i =>
        have hrest := ih rfl (i := i) (by simpa using hcell)
        have hdrop : (separator.intercalate (first :: next :: rest)).drop
            (columnStart ((first :: next :: rest).map List.length) (i + 1)) =
            (separator.intercalate (next :: rest)).drop
              (columnStart ((next :: rest).map List.length) i) := by
          rw [List.map_cons, columnStart, List.intercalate_cons_cons, ← hsep,
            ← List.length_append, List.drop_length_add_append]
        rw [hdrop]
        simpa using hrest

end Text

end LRTables
