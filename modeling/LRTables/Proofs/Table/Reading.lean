import LRTables.Proofs.Grammar.Names
import LRTables.Proofs.Order
import LRTables.Proofs.Table.Grid

/-!
# Reading tables back

Both ways of writing a table keep every cell.  An object is read by looking up the number of the
state and the name; a grid is cut into lines, and the lines at their bars, and the cell stands as
far behind the number of the state as its name behind the first heading.

* `Action.ofJson?`, `Action.ofCell?` — actions read back from objects and cells.
* `ParseTable.actionInObject?`, `ParseTable.actionInGrid?` — the cells of a table that was written.
* `ParseTable.actionInObject?_toJson` — every table is read back from its object.
* `ParseTable.Printable.actionInGrid?_grid` — and from its grid, if its names are solid.
-/

namespace LRTables

/-! ## Look-up in renamed entries -/

namespace OrderedMap

variable {κ κ' α β : Type} [DecidableEq κ] [DecidableEq κ']

/-- Look-up under new names, if different keys have different ones. -/
theorem lookup_map_of_injective {f : κ → κ'} (hf : Function.Injective f) (h : α → β) (k : κ)
    (entries : List (κ × α)) :
    lookup (f k) (entries.map fun e => (f e.1, h e.2)) = (lookup k entries).map h := by
  induction entries with
  | nil => rfl
  | cons e rest ih =>
    obtain ⟨j, a⟩ := e
    by_cases hj : j = k
    · simp [lookup, hj]
    · have hj' : ¬ f j = f k := fun e => hj (hf e)
      simpa [lookup, hj, hj'] using ih

/-- Look-up in what is made of a list of keys, each under a new name. -/
theorem lookup_map_keys {f : κ → κ'} (hf : Function.Injective f) (h : κ → α) (k : κ)
    (keys : List κ) :
    lookup (f k) (keys.map fun j => (f j, h j)) = if k ∈ keys then some (h k) else none := by
  induction keys with
  | nil => rfl
  | cons j rest ih =>
    by_cases hj : j = k
    · simp [lookup, hj]
    · have hj' : ¬ k = j := fun e => hj e.symm
      have hf' : ¬ f j = f k := fun e => hj (hf e)
      simpa [lookup, hf', hj'] using ih

end OrderedMap

/-! ## Objects -/

namespace Json.Value

/-- The field of an object under a name. -/
def field? (name : String) : Value → Option Value
  | .object fields => OrderedMap.lookup name fields
  | _ => none

/-- The number that a value is. -/
def number? : Value → Option Nat
  | .number n => some n
  | _ => none

/-- The text that a value is. -/
def text? : Value → Option String
  | .string s => some s
  | _ => none

/-- The texts that a value lists. -/
def texts? : Value → Option (List String)
  | .array elements => elements.mapM text?
  | _ => none

theorem texts?_array (texts : List String) : texts? (.array (texts.map .string)) = some texts := by
  have htexts : (texts.map string).mapM text? = some (texts.map id) :=
    mapM_map_eq_some fun s _ => rfl
  rwa [List.map_id] at htexts

end Json.Value

namespace Action

/-- The action that an object describes. -/
def ofJson? (v : Json.Value) : Option Action := do
  match ← (← v.field? "action").text? with
  | "shift" => return .shift (← (← v.field? "state").number?)
  | "goto" => return .goto (← (← v.field? "state").number?)
  | "reduce" =>
    let production ← v.field? "production"
    return .reduce (← (← production.field? "leftHandSide").text?)
      (← (← production.field? "rightHandSide").texts?)
  | "accept" => return .accept
  | _ => none

/-- Actions are read back from objects. -/
theorem ofJson?_toJson (action : Action) : ofJson? action.toJson = some action := by
  cases action with
  | shift state => rfl
  | goto state => rfl
  | reduce lhs rhs =>
    have htexts := Json.Value.texts?_array rhs
    change (Json.Value.texts? (.array (rhs.map .string))).bind
      (fun names => some (Action.reduce lhs names)) = _
    rw [htexts]
    rfl
  | accept => rfl

end Action

namespace ParseTable

/-- The action for a state and a name in a table that was written as an object. -/
def actionInObject? (v : Json.Value) (state : Nat) (name : String) : Option Action :=
  (v.field? (toString state)).bind fun row => (row.field? name).bind Action.ofJson?

/-- A row as an object. -/
def rowObject (r : Row) : Json.Value := .object (OrderedMap.mapEntries Action.toJson r.entries)

/-- **Tables are read back from objects**, whatever they hold. -/
theorem actionInObject?_toJson (t : ParseTable) (state : Nat) (name : String) :
    actionInObject? t.toJson state name = t.action? state name := by
  have hrow : t.toJson.field? (toString state) = (t.rows.get? state).map rowObject :=
    OrderedMap.lookup_map_of_injective Text.toString_injective rowObject state t.rows.entries
  rw [actionInObject?, hrow, action?]
  cases t.rows.get? state with
  | none => rfl
  | some r =>
    have hcell : (rowObject r).field? name = (r.get? name).map Action.toJson :=
      OrderedMap.lookup_mapEntries Action.toJson name r.entries
    simp only [Option.map_some, Option.bind_some, hcell]
    cases r.get? name with
    | none => rfl
    | some action => exact Action.ofJson?_toJson action

end ParseTable

/-! ## Cells -/

namespace Action

/-- Are all names in the action solid, and does a reduction take at least one? -/
def Solid : Action → Prop
  | .reduce lhs rhs => Text.Solid lhs.toList ∧ rhs ≠ [] ∧ ∀ n ∈ rhs, Text.Solid n.toList
  | _ => True

/-- The words of a reduction: both sides with an arrow between them. -/
def reductionWords (lhs : String) (rhs : List String) : List (List Char) :=
  lhs.toList :: "->".toList :: rhs.map String.toList

theorem toList_toCell_reduce (lhs : String) {rhs : List String} (h : rhs ≠ []) :
    (Action.reduce lhs rhs).toCell.toList =
      'r' :: '(' :: (Text.join ' ' (reductionWords lhs rhs) ++ [')']) := by
  obtain ⟨n, rest, rfl⟩ := List.exists_cons_of_ne_nil h
  rw [toCell, reductionWords, Text.join_eq_intercalate]
  simp [String.toList_append, String.toList_intercalate, List.intercalate_cons_cons]

theorem solid_of_mem_reductionWords {lhs : String} {rhs : List String}
    (h : (Action.reduce lhs rhs).Solid) : ∀ w ∈ reductionWords lhs rhs, Text.Solid w := by
  intro w hw
  rcases List.mem_cons.1 hw with rfl | hw
  · exact h.1
  · rcases List.mem_cons.1 hw with rfl | hw
    · decide
    · obtain ⟨n, hn, rfl⟩ := List.mem_map.1 hw
      exact h.2.2 n hn

/-- The action that a cell shows. -/
def ofCell? : List Char → Option Action
  | 's' :: digits => .shift <$> Text.number? digits
  | 'g' :: digits => .goto <$> Text.number? digits
  | 'r' :: '(' :: rest =>
    match Text.split ' ' rest.dropLast with
    | lhs :: _ :: rhs => some (.reduce (String.ofList lhs) (rhs.map String.ofList))
    | _ => none
  | ['a', 'c', 'c'] => some .accept
  | _ => none

/-- Actions are read back from cells. -/
theorem ofCell?_toCell {action : Action} (h : action.Solid) :
    ofCell? action.toCell.toList = some action := by
  cases action with
  | shift state =>
    have hcell : (Action.shift state).toCell.toList = 's' :: (toString state).toList := by
      simp [toCell, String.toList_append]
    rw [hcell, ofCell?, Text.number?_toString]
    rfl
  | goto state =>
    have hcell : (Action.goto state).toCell.toList = 'g' :: (toString state).toList := by
      simp [toCell, String.toList_append]
    rw [hcell, ofCell?, Text.number?_toString]
    rfl
  | reduce lhs rhs =>
    have hsplit : Text.split ' ' (Text.join ' ' (reductionWords lhs rhs)) =
        reductionWords lhs rhs :=
      Text.split_join (by simp [reductionWords]) fun w hw =>
        (solid_of_mem_reductionWords h w hw).not_mem (by decide)
    rw [toList_toCell_reduce lhs h.2.1, ofCell?, List.dropLast_concat, hsplit]
    simp [reductionWords, Function.comp_def]
  | accept => rfl

/-- What is written into a cell can stand in a column. -/
theorem isCell_toCell {action : Action} (h : action.Solid) : Text.IsCell action.toCell.toList := by
  cases action with
  | shift state =>
    refine Text.Solid.isCell ?_
    rw [toCell, String.toList_append]
    exact Text.Solid.append (by decide) (Text.solid_toString state)
  | goto state =>
    refine Text.Solid.isCell ?_
    rw [toCell, String.toList_append]
    exact Text.Solid.append (by decide) (Text.solid_toString state)
  | reduce lhs rhs =>
    rw [toList_toCell_reduce lhs h.2.1]
    refine ⟨fun c hc => ?_, ?_, ?_⟩
    · rw [← List.singleton_append, List.mem_append, List.mem_singleton, List.mem_cons,
        List.mem_append, List.mem_singleton, Text.join_eq_intercalate] at hc
      rcases hc with rfl | rfl | hc | rfl
      · decide
      · decide
      · rcases Text.mem_intercalate hc with hspace | ⟨w, hw, hc⟩
        · rw [List.mem_singleton.1 hspace]
          decide
        · exact (solid_of_mem_reductionWords h w hw).isCell.chars c hc
      · decide
    · intro c hc
      rw [← Option.some.inj hc]
      decide
    · intro c hc
      rw [← List.cons_append, ← List.cons_append, List.getLast?_concat] at hc
      rw [← Option.some.inj hc]
      decide
  | accept => exact Text.Solid.isCell (by decide)

end Action

/-! ## Grids -/

namespace ParseTable

/-- The texts in the columns of a line. -/
def cellsOf (line : List Char) : List (List Char) := (Text.split '|' line).map Text.trim

/-- The action for a state and a name in a table that was written as a grid. -/
def actionInGrid? (grid : String) (state : Nat) (name : String) : Option Action :=
  match Text.splitLines grid.toList with
  | header :: _ :: body =>
    (OrderedMap.lookup (toString state).toList
      (body.map fun line => ((cellsOf line).headD [], (cellsOf line).tail))).bind fun cells =>
        (OrderedMap.lookup name.toList ((cellsOf header).tail.zip cells)).bind Action.ofCell?
  | _ => none

/-- Are the names of the columns solid, and those in the actions? -/
structure Printable (t : ParseTable) (names : List String) : Prop where
  /-- The names of the columns are. -/
  columns : ∀ n ∈ t.columns names, Text.Solid n.toList
  /-- The names in the actions are. -/
  actions : ∀ k n action, t.action? k n = some action → action.Solid

/-- The text of a cell of a row. -/
def cellText (r : Row) (n : String) : List Char :=
  match r.get? n with
  | none => []
  | some action => action.toCell.toList

theorem ofCell?_cellText {r : Row} {n : String}
    (h : ∀ action, r.get? n = some action → action.Solid) :
    Action.ofCell? (cellText r n) = r.get? n := by
  unfold cellText
  cases hr : r.get? n with
  | none => rfl
  | some action => exact Action.ofCell?_toCell (h action hr)

section Printable

variable {t : ParseTable} {names : List String} (h : t.Printable names)

include h

theorem Printable.solid_of_entry {e : Nat × Row} (he : e ∈ t.rows.entries) {n : String}
    {action : Action} (hr : e.2.get? n = some action) : action.Solid := by
  apply h.actions e.1 n
  rw [action?, (t.rows.get?_eq_some_iff e.1 e.2).2 he, Option.bind_some, hr]

/-- Every cell of the grid can stand in a column. -/
theorem Printable.isCell {cells : List (List Char)}
    (hcells : cells ∈ headings (t.columns names) :: t.bodyCells names) :
    ∀ cell ∈ cells, Text.IsCell cell := by
  intro cell hcell
  rcases List.mem_cons.1 hcells with rfl | hcells
  · rcases List.mem_cons.1 hcell with rfl | hcell
    · exact Text.Solid.isCell (by decide)
    · obtain ⟨n, hn, rfl⟩ := List.mem_map.1 hcell
      exact (h.columns n hn).isCell
  · obtain ⟨e, he, rfl⟩ := List.mem_map.1 hcells
    rcases List.mem_cons.1 hcell with rfl | hcell
    · exact (Text.solid_toString e.1).isCell
    · obtain ⟨n, -, rfl⟩ := List.mem_map.1 hcell
      split
      · exact ⟨by simp, by simp, by simp⟩
      · rename_i action hr
        exact Action.isCell_toCell (h.solid_of_entry he hr)

/-- **Every line of the grid is cut into its cells.** -/
theorem Printable.cellsOf_gridLine {cells : List (List Char)}
    (hcells : cells ∈ headings (t.columns names) :: t.bodyCells names) :
    cellsOf (gridLine (t.gridWidths names) cells) = cells := by
  have hlength := (t.rectangular names).cells cells hcells
  refine map_trim_gridLine ?_ hlength (h.isCell hcells)
  rintro rfl
  rw [length_gridWidths] at hlength
  exact absurd hlength (by simp)

/-- The lines of the grid are its lines. -/
theorem Printable.splitLines_grid {symbols : SymbolTable} (hnames : symbols.names = names) :
    Text.splitLines (t.grid symbols).toList =
      gridLine (t.gridWidths names) (headings (t.columns names)) ::
        ruleLine (t.gridWidths names) ::
          (t.bodyCells names).map (gridLine (t.gridWidths names)) := by
  subst hnames
  rw [grid, String.toList_ofList, (t.rectangular symbols.names).lines]
  refine Text.split_join (by simp) fun line hline => ?_
  rcases List.mem_cons.1 hline with rfl | hline
  · exact not_mem_gridLine (h.isCell (List.mem_cons_self ..))
  · rcases List.mem_cons.1 hline with rfl | hline
    · intro hmem
      rcases Text.mem_intercalate hmem with hsep | ⟨dashes, hdashes, hc⟩
      · exact absurd hsep (by decide)
      · obtain ⟨width, -, rfl⟩ := List.mem_map.1 hdashes
        exact absurd (List.eq_of_mem_replicate hc) (by decide)
    · obtain ⟨cells, hcells, rfl⟩ := List.mem_map.1 hline
      exact not_mem_gridLine (h.isCell (List.mem_cons_of_mem _ hcells))

/-- **Tables are read back from grids**, if all names are solid. -/
theorem Printable.actionInGrid?_grid {symbols : SymbolTable} (hnames : symbols.names = names)
    (state : Nat) (name : String) :
    actionInGrid? (t.grid symbols) state name = t.action? state name := by
  -- the lines below the dashes are the rows, each behind the number of its state
  have hrows : (((t.bodyCells names).map (gridLine (t.gridWidths names))).map fun line =>
      ((cellsOf line).headD [], (cellsOf line).tail)) =
      t.rows.entries.map fun e =>
        ((toString e.1).toList, (t.columns names).map (cellText e.2)) := by
    rw [bodyCells, List.map_map, List.map_map]
    refine List.map_congr_left fun e he => ?_
    have hcells := h.cellsOf_gridLine (List.mem_cons_of_mem _ (List.mem_map_of_mem he))
    simp only [Function.comp_apply, hcells]
    rfl
  have hinjective : Function.Injective fun k : Nat => (toString k).toList :=
    fun _ _ hk => Text.toString_injective (String.toList_inj.1 hk)
  rw [actionInGrid?, h.splitLines_grid hnames]
  simp only [hrows]
  rw [OrderedMap.lookup_map_of_injective hinjective (fun r => (t.columns names).map (cellText r)),
    action?]
  change ((t.rows.get? state).map _).bind _ = _
  cases hr : t.rows.get? state with
  | none => rfl
  | some r =>
    have hzip : (cellsOf (gridLine (t.gridWidths names) (headings (t.columns names)))).tail.zip
        ((t.columns names).map (cellText r)) =
        (t.columns names).map fun n => (n.toList, cellText r n) := by
      rw [h.cellsOf_gridLine (List.mem_cons_self ..), headings, List.tail_cons, List.zip_map']
    simp only [Option.map_some, Option.bind_some, hzip]
    rw [OrderedMap.lookup_map_keys fun _ _ => String.toList_inj.1]
    split
    · have hread := ofCell?_cellText (r := r) (n := name) fun action haction =>
        h.actions state name action (by rw [action?, hr, Option.bind_some, haction])
      simpa using hread
    · rename_i hcolumn
      -- what is in no column is in no row
      have hnone : r.get? name = none := by
        rw [OrderedMap.get?_eq_none_iff]
        intro hkey
        refine hcolumn (mem_appendDistinct.2 (Or.inr (List.mem_flatMap.2 ⟨r, ?_, hkey⟩)))
        exact (t.rows.mem_values_iff r).2 ⟨state, hr⟩
      rw [hnone]
      rfl

end Printable

end ParseTable

end LRTables
