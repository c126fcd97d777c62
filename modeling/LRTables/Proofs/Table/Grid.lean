import LRTables.Proofs.Outputs
import LRTables.Proofs.Text.Columns

/-!
# Grids in columns

The cells of a line are padded to the widths of the columns and put together with bars.  What is left
out at the end of the line are spaces only, so that every cell stands at the start of its column, and
cutting the line at its bars gives the cells.  The columns are as wide as their widest cells.

* `ParseTable.map_trim_gridLine` — the cells of a line are found again.
* `ParseTable.shows_gridLine`, `ParseTable.shows_ruleLine` — cells and dashes stand in their columns.
* `ParseTable.fitting_gridWidths` — every cell of a table fits into its column.
-/

namespace LRTables

namespace ParseTable

open Text

/-! ## Lines of a grid -/

section Lines

variable {widths : List Nat} {cells : List (List Char)}

/-- Does every cell fit into its column? -/
def Fitting (widths : List Nat) (cells : List (List Char)) : Prop :=
  List.Forall₂ (fun width cell => cell.length ≤ width) widths cells

theorem map_length_zipWith_padRight (h : Fitting widths cells) :
    (List.zipWith padRight widths cells).map List.length = widths := by
  induction h with
  | nil => rfl
  | cons hcell _ ih => rw [List.zipWith_cons_cons, List.map_cons, ih, length_padRight hcell]

theorem map_trim_zipWith_padRight (hlength : cells.length = widths.length)
    (hcells : ∀ cell ∈ cells, IsCell cell) :
    (List.zipWith padRight widths cells).map trim = cells := by
  induction cells generalizing widths with
  | nil => simp
  | cons cell rest ih =>
    obtain ⟨width, more, rfl⟩ := List.exists_cons_of_length_pos (l := widths) (by
      rw [← hlength]
      simp)
    rw [List.zipWith_cons_cons, List.map_cons,
      (hcells cell (List.mem_cons_self ..)).trim_padRight,
      ih (by simpa using hlength) fun c hc => hcells c (List.mem_cons_of_mem _ hc)]

/-- The line before blanks at its end are left out. -/
def fullLine (widths : List Nat) (cells : List (List Char)) : List Char :=
  [' ', '|', ' '].intercalate (List.zipWith padRight widths cells)

theorem chars_of_mem_zipWith (hcells : ∀ cell ∈ cells, IsCell cell) {padded : List Char}
    (h : padded ∈ List.zipWith padRight widths cells) :
    ∀ c ∈ padded, c ≠ '|' ∧ (isBlank c = true → c = ' ') := by
  rw [← List.map_uncurry_zip_eq_zipWith] at h
  obtain ⟨e, he, rfl⟩ := List.mem_map.1 h
  exact (hcells e.2 (List.of_mem_zip he).2).chars_padRight e.1

/-- Only spaces are left out. -/
theorem exists_gridLine_append (widths : List Nat) (hcells : ∀ cell ∈ cells, IsCell cell) :
    ∃ n, gridLine widths cells ++ List.replicate n ' ' = fullLine widths cells := by
  obtain ⟨blanks, hfull, hblanks⟩ := exists_trimEnd_append (fullLine widths cells)
  refine ⟨blanks.length, ?_⟩
  have hspaces : blanks = List.replicate blanks.length ' ' := by
    refine List.eq_replicate_of_mem fun b hb => ?_
    have hmem : b ∈ fullLine widths cells := by
      rw [← hfull]
      exact List.mem_append_right _ hb
    rcases mem_intercalate hmem with hsep | ⟨padded, hpadded, hb'⟩
    · have hbar := hblanks b hb
      simp only [List.mem_cons, List.not_mem_nil, or_false] at hsep
      rcases hsep with rfl | rfl | rfl
      · rfl
      · exact absurd hbar (by decide)
      · rfl
    · exact (chars_of_mem_zipWith hcells hpadded b hb').2 (hblanks b hb)
  rw [← hspaces]
  exact hfull

/-- **Cutting a line at its bars gives its cells.** -/
theorem map_trim_gridLine (hne : cells ≠ []) (hlength : cells.length = widths.length)
    (hcells : ∀ cell ∈ cells, IsCell cell) :
    (split '|' (gridLine widths cells)).map trim = cells := by
  obtain ⟨n, hfull⟩ := exists_gridLine_append widths hcells
  have hpadded : List.zipWith padRight widths cells ≠ [] := by
    intro hnil
    have hmap := map_trim_zipWith_padRight hlength hcells
    rw [hnil] at hmap
    exact hne hmap.symm
  have hbar : '|' ∉ List.replicate n ' ' := fun h =>
    absurd (List.eq_of_mem_replicate h) (by decide)
  rw [← map_trim_split_append _ hbar (isBlank_of_mem_spaces n), hfull, fullLine,
    map_trim_split_intercalate hpadded fun padded hp hc =>
      (chars_of_mem_zipWith hcells hp _ hc).1 rfl,
    map_trim_zipWith_padRight hlength hcells]

/-- A line of a grid holds no line feed. -/
theorem not_mem_gridLine (hcells : ∀ cell ∈ cells, IsCell cell) :
    '\n' ∉ gridLine widths cells := by
  intro h
  obtain ⟨n, hfull⟩ := exists_gridLine_append widths hcells
  have hmem : '\n' ∈ fullLine widths cells := by
    rw [← hfull]
    exact List.mem_append_left _ h
  rcases mem_intercalate hmem with hsep | ⟨padded, hpadded, hc⟩
  · exact absurd hsep (by decide)
  · exact absurd ((chars_of_mem_zipWith hcells hpadded _ hc).2 (by decide)) (by decide)

/-- **The lines of a grid show their cells.** -/
theorem shows_gridLine (hfits : Fitting widths cells) (hcells : ∀ cell ∈ cells, IsCell cell) :
    Shows widths [' ', '|', ' '] cells (gridLine widths cells) := by
  obtain ⟨n, hfull⟩ := exists_gridLine_append widths hcells
  have hlength : widths.length = cells.length := hfits.length_eq
  refine ⟨hlength.symm, n, fun i cell width hcell hwidth => ⟨?_, ?_⟩⟩
  · obtain ⟨hi, rfl⟩ := List.getElem?_eq_some_iff.1 hcell
    obtain ⟨hi', rfl⟩ := List.getElem?_eq_some_iff.1 hwidth
    exact (List.forall₂_iff_get.1 hfits).2 i hi' hi
  · have hpadded : (List.zipWith padRight widths cells)[i]? = some (padRight width cell) := by
      rw [List.getElem?_zipWith, hwidth, hcell]
    have hprefix := prefix_drop_columnStart [' ', '|', ' '] rfl
      (map_length_zipWith_padRight hfits) hpadded
    rw [List.length_zipWith, hlength, Nat.min_self] at hprefix
    rw [hfull, hlength]
    exact hprefix

/-- The dashes stand in the same columns. -/
theorem shows_ruleLine (widths : List Nat) :
    Shows widths ['-', '+', '-'] (widths.map fun width => List.replicate width '-')
      (ruleLine widths) := by
  have hlengths : (widths.map fun width => List.replicate width '-').map List.length = widths := by
    simp [Function.comp_def]
  refine ⟨by simp, 0, fun i cell width hcell hwidth => ?_⟩
  have hcell' := hcell
  rw [List.getElem?_map, hwidth, Option.map_some, Option.some.injEq] at hcell'
  subst hcell'
  have hprefix := prefix_drop_columnStart ['-', '+', '-'] rfl hlengths hcell
  rw [List.length_map] at hprefix
  refine ⟨by simp, ?_⟩
  simpa [padRight, ruleLine] using hprefix

end Lines

/-! ## Widths -/

section Widths

variable {widths : List Nat}

/-- Widening makes no column narrower. -/
theorem le_widen (widths : List Nat) (cells : List (List Char)) :
    List.Forall₂ (· ≤ ·) widths (widen widths cells) := by
  induction widths generalizing cells with
  | nil => cases cells <;> exact List.Forall₂.nil
  | cons width widths ih =>
    cases cells with
    | nil => exact List.forall₂_refl _
    | cons cell cells => exact List.Forall₂.cons (Nat.le_max_left ..) (ih cells)

/-- It makes room for every cell of a line. -/
theorem fitting_widen {cells : List (List Char)} (h : cells.length = widths.length) :
    Fitting (widen widths cells) cells := by
  induction cells generalizing widths with
  | nil =>
    obtain rfl := List.length_eq_zero_iff.1 h.symm
    exact List.Forall₂.nil
  | cons cell cells ih =>
    obtain ⟨width, more, rfl⟩ := List.exists_cons_of_length_pos (l := widths) (by
      rw [← h]
      simp)
    exact List.Forall₂.cons (Nat.le_max_right ..) (ih (by simpa using h))

/-- What fits into columns fits into wider ones. -/
theorem Fitting.of_le {widths' : List Nat} {cells : List (List Char)} (h : Fitting widths cells)
    (hle : List.Forall₂ (· ≤ ·) widths widths') : Fitting widths' cells := by
  induction h generalizing widths' with
  | nil =>
    cases hle
    exact List.Forall₂.nil
  | cons hcell _ ih =>
    cases hle with
    | cons hwidth hrest => exact List.Forall₂.cons (Nat.le_trans hcell hwidth) (ih hrest)

/-- After widening for all lines, the cells of each one fit, and what fitted before fits still. -/
theorem fitting_foldl_widen {lines : List (List (List Char))} {cells : List (List Char)}
    (h : ∀ cells ∈ lines, cells.length = widths.length)
    (hcells : Fitting widths cells ∨ cells ∈ lines) : Fitting (lines.foldl widen widths) cells := by
  induction lines generalizing widths with
  | nil => exact hcells.resolve_right (by simp)
  | cons line lines ih =>
    rw [List.foldl_cons]
    refine ih (fun c hc => ?_) ?_
    · rw [length_widen]
      exact h c (List.mem_cons_of_mem _ hc)
    · rcases hcells with hcells | hcells
      · exact Or.inl (hcells.of_le (le_widen ..))
      · rcases List.mem_cons.1 hcells with rfl | hcells
        · exact Or.inl (fitting_widen (h _ (List.mem_cons_self ..)))
        · exact Or.inr hcells

end Widths

/-- Every cell of a grid fits into its column. -/
theorem fitting_gridWidths (t : ParseTable) (names : List String) {cells : List (List Char)}
    (hcells : cells ∈ headings (t.columns names) :: t.bodyCells names) :
    Fitting (t.gridWidths names) cells := by
  refine fitting_foldl_widen (fun line hline => ?_) ?_
  · have hlength := (t.rectangular names).cells line (List.mem_cons_of_mem _ hline)
    rw [hlength, length_gridWidths, List.length_map, headings, List.length_cons, List.length_map]
  · rcases List.mem_cons.1 hcells with rfl | hcells
    · refine Or.inl ?_
      rw [Fitting, List.forall₂_map_left_iff]
      exact List.forall₂_same.2 fun _ _ => Nat.le_refl _
    · exact Or.inr hcells

end ParseTable

end LRTables
