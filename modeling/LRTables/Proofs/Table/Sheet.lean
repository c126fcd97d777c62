import LRTables.Proofs.Table.Reading
import Mathlib.Data.String.Basic

/-!
# Tables on a sheet

The grid of a grammar's table is a sheet: a line of headings, a line of dashes and a line for each
state, in columns that begin at the same offsets on all lines.  The columns are those of the symbols
of the grammar, in a fixed order, and each is there once.  Nothing of the table is lost on a sheet,
nor in its object.

* `ParseTable.Sheet`, `ParseTable.Sheet.Tabulates` — sheets, and what is on them.
* `ParseTable.exists_sheet` — every grid with solid names is a sheet.
* `ParseTable.read_back_of_parse` — the tables of grammars are read back.
-/

namespace LRTables

/-! ## The symbols of a grammar in order -/

/-- The symbol table of a grammar lists the end marker, the other terminals as they rise, and the
non-terminals as they occur first. -/
theorem SymbolTable.exists_ordered {g : Grammar} (hg : g ≠ []) :
    ∃ terminals nonterminals start,
      ofGrammar g = .ok ⟨endMarker :: terminals, nonterminals, some start⟩ ∧
      (∀ n, n ∈ terminals ↔ n ≠ endMarker ∧ n ∈ g.terminals) ∧ terminals.Pairwise (· < ·) ∧
      (∀ n, n ∈ nonterminals ↔ n ∈ g.nonterminals) ∧
      nonterminals.Pairwise fun m n => g.nonterminals.idxOf m < g.nonterminals.idxOf n := by
  obtain ⟨p, rest, rfl⟩ := List.exists_cons_of_ne_nil hg
  refine ⟨_, _, p.lhs, rfl, ?_, pairwise_ascending _, ?_, pairwise_idxOf_appendDistinct _⟩
  · intro n
    rw [mem_ascending, List.mem_filter, decide_eq_true_eq, and_comm]
  · intro n
    simp only [mem_appendDistinct, List.not_mem_nil, false_or]

namespace ParseTable

/-- What a table on a sheet consists of. -/
structure Sheet where
  /-- The terminals of the columns behind that of the end marker. -/
  terminals : List String
  /-- The non-terminals of the columns behind those. -/
  nonterminals : List String
  /-- The widths of the columns. -/
  widths : List Nat
  /-- The line of the headings. -/
  header : List Char
  /-- The line of the dashes. -/
  rule : List Char
  /-- The lines of the states. -/
  body : List (List Char)

/-- The names of the columns behind that of the states. -/
def Sheet.columns (sheet : Sheet) : List String :=
  endMarker :: (sheet.terminals ++ sheet.nonterminals)

/-- **Is the text a sheet with the table of the grammar?** -/
structure Sheet.Tabulates (sheet : Sheet) (g : Grammar) (t : ParseTable) (text : String) :
    Prop where
  /-- The lines of the text are those of the sheet. -/
  lines : Text.splitLines text.toList = sheet.header :: sheet.rule :: sheet.body
  /-- The headings are the names of the columns. -/
  headings : cellsOf sheet.header = "state".toList :: sheet.columns.map String.toList
  /-- Every name is there once. -/
  nodup : sheet.columns.Nodup
  /-- The terminals are those of the grammar other than the end marker, -/
  mem_terminals : ∀ n, n ∈ sheet.terminals ↔ n ≠ endMarker ∧ n ∈ g.terminals
  /-- and they rise strictly by the code points of their characters. -/
  terminals_rise : sheet.terminals.Pairwise (· < ·)
  /-- The non-terminals are those of the grammar, -/
  mem_nonterminals : ∀ n, n ∈ sheet.nonterminals ↔ n ∈ g.nonterminals
  /-- and they stand in the order in which they occur first. -/
  nonterminals_occur :
    sheet.nonterminals.Pairwise fun m n => g.nonterminals.idxOf m < g.nonterminals.idxOf n
  /-- The lines of the states begin with their numbers, in the order of the table. -/
  states : sheet.body.map (fun line => (cellsOf line).head?) =
    t.rows.keys.map fun k => some (toString k).toList
  /-- Lines have no blanks at their ends and show their cells in columns. -/
  shows : ∀ line ∈ sheet.header :: sheet.body, Text.trimEnd line = line ∧
    Text.Shows sheet.widths [' ', '|', ' '] (cellsOf line) line
  /-- So does the line of the dashes, which fill the columns. -/
  dashes : Text.Shows sheet.widths ['-', '+', '-']
    (sheet.widths.map fun width => List.replicate width '-') sheet.rule

/-! ## Sheets of tables -/

/-- The sheet that the grid of a table is. -/
def sheet (t : ParseTable) (symbols : SymbolTable) : Sheet where
  terminals := symbols.terminals.tail
  nonterminals := symbols.nonterminals
  widths := t.gridWidths symbols.names
  header := gridLine (t.gridWidths symbols.names) (headings (t.columns symbols.names))
  rule := ruleLine (t.gridWidths symbols.names)
  body := (t.bodyCells symbols.names).map (gridLine (t.gridWidths symbols.names))

section Fits

variable {g : Grammar} {a : Automaton} {symbols : SymbolTable} {t : ParseTable}

/-- A table that fits a grammar has no columns but those of its symbols. -/
theorem Fits.columns_eq (h : t.Fits g a symbols) : t.columns symbols.names = symbols.names := by
  refine OrderedMap.appendDistinct_of_subset fun n hn => ?_
  obtain ⟨r, hr, hkey⟩ := List.mem_flatMap.1 hn
  obtain ⟨k, hk⟩ := (t.rows.mem_values_iff r).1 hr
  exact h.columns k r hk n hkey

/-- It can be printed. -/
theorem Fits.printable (h : t.Fits g a symbols) (hg : g.WellFormed)
    (hnames : ∀ n ∈ symbols.names, n = endMarker ∨ n ∈ g.terminals ∨ n ∈ g.nonterminals) :
    t.Printable symbols.names := by
  constructor
  · intro n hn
    rw [h.columns_eq] at hn
    rcases hnames n hn with rfl | hn | hn
    · exact Grammar.solid_endMarker
    · exact hg.solid_terminal hn
    · exact hg.solid_nonterminal hn
  · intro k n action haction
    cases action with
    | reduce lhs rhs =>
      obtain ⟨-, p, hp, rfl, rfl, -⟩ := h.reduce k n lhs rhs haction
      obtain ⟨hlhs, hrhs⟩ := hg.solid_of_mem hp
      exact ⟨hlhs, by simpa [Production.rhsNames] using hg.rhs_ne_nil p hp, hrhs⟩
    | shift j => trivial
    | goto j => trivial
    | accept => trivial

/-- **The grid of a table that fits a grammar is a sheet with it**, and can be printed. -/
theorem exists_sheet (hg : g.WellFormed)
    (hfits : ∀ symbols, SymbolTable.ofGrammar g = .ok symbols → t.Fits g a symbols) :
    ∃ symbols, SymbolTable.ofGrammar g = .ok symbols ∧ t.Printable symbols.names ∧
      (t.sheet symbols).Tabulates g t (t.grid symbols) := by
  obtain ⟨terminals, nonterminals, start, hsymbols, hterminals, hrise, hnonterminals, hoccur⟩ :=
    SymbolTable.exists_ordered hg.ne_nil
  have hfits := hfits _ hsymbols
  have hprintable := hfits.printable hg fun n hn => by
    rw [SymbolTable.names, List.mem_append, List.mem_cons, hterminals, hnonterminals] at hn
    tauto
  -- no name is that of a terminal and of a non-terminal
  have hapart : ∀ n, n ∈ nonterminals → ¬ (n = endMarker ∨ n ∈ g.terminals) := by
    intro n hn
    obtain ⟨p, hp, rfl⟩ := hg.exists_production ((hnonterminals n).1 hn)
    exact hg.lhs_not_terminal hp
  refine ⟨_, hsymbols, hprintable, hprintable.splitLines_grid rfl, ?_, ?_, hterminals, hrise,
    hnonterminals, hoccur, ?_, ?_, shows_ruleLine _⟩
  · rw [sheet, hprintable.cellsOf_gridLine (List.mem_cons_self ..), hfits.columns_eq]
    rfl
  · refine List.nodup_cons.2 ⟨?_, List.nodup_append.2 ⟨hrise.imp fun h => h.ne,
      hoccur.imp fun h e => ?_, ?_⟩⟩
    · rw [List.mem_append]
      rintro (h | h)
      · exact ((hterminals _).1 h).1 rfl
      · exact hapart _ h (Or.inl rfl)
    · rw [e] at h
      exact Nat.lt_irrefl _ h
    · rintro n hn _ hn' rfl
      exact hapart n hn' (Or.inr ((hterminals n).1 hn).2)
  · rw [sheet, List.map_map, bodyCells, List.map_map, OrderedMap.keys, List.map_map]
    refine List.map_congr_left fun e he => ?_
    have hcells := hprintable.cellsOf_gridLine (List.mem_cons_of_mem _ (List.mem_map_of_mem he))
    simp only [Function.comp_apply, hcells]
    rfl
  · intro line hline
    rw [sheet, ← List.map_cons (f := gridLine _), List.mem_map] at hline
    obtain ⟨cells, hcells, rfl⟩ := hline
    refine ⟨Text.trimEnd_idem _, ?_⟩
    rw [hprintable.cellsOf_gridLine hcells]
    exact shows_gridLine (fitting_gridWidths t _ hcells) (hprintable.isCell hcells)

end Fits

/-- **The tables of grammars are read back**, from their grids and from their objects.  Both keep the
action for every state and every name, and that there is none.  The grid is a sheet: its columns are
the end marker, the other terminals as they rise and the non-terminals as they occur first, each of
them once, its rows are those of the table, and every column begins at one offset on all lines. -/
theorem read_back_of_parse {text : String} {g : Grammar} (h : Grammar.parse text = .ok g) :
    ∃ a t symbols, Automaton.ofGrammar g = .ok a ∧ ofAutomaton a = .ok t ∧
      SymbolTable.ofGrammar g = .ok symbols ∧
      (∀ state name, actionInGrid? (t.grid symbols) state name = t.action? state name) ∧
      (∀ state name, actionInObject? t.toJson state name = t.action? state name) ∧
      (t.sheet symbols).Tabulates g t (t.grid symbols) := by
  have hg := Grammar.wellFormed_of_parse h
  obtain ⟨first, a, hf, hgrammar, hb⟩ := Automaton.exists_ofGrammar hg
  obtain ⟨symbols, hsymbols, hprintable, hsheet⟩ := exists_sheet hg (a := a)
    (t := of g.startProduction.lhs a) fun symbols hsymbols => by
      obtain ⟨symbols', hsymbols', hterminals, hnonterminals⟩ :=
        SymbolTable.exists_ofGrammar hg.ne_nil
      obtain rfl := Except.ok.inj (hsymbols.symm.trans hsymbols')
      exact fits hg hb hf hterminals hnonterminals
  exact ⟨a, _, symbols, hgrammar, ofAutomaton_built hb, hsymbols,
    hprintable.actionInGrid?_grid rfl, actionInObject?_toJson _, hsheet⟩

/-- A non-terminal has the name of the first heading, the last cells of three lines are empty, and
the numbers of states two, four and five are free. -/
theorem read_back_of_parse_of_state :
    ∃ g a t symbols, Grammar.parse "state ---> state A | *" = .ok g ∧
      Automaton.ofGrammar g = .ok a ∧ ofAutomaton a = .ok t ∧
      SymbolTable.ofGrammar g = .ok symbols ∧ t.rows.keys = [0, 1, 3, 6] ∧
      actionInGrid? (t.grid symbols) 6 "A" = some (.reduce "state" ["state", "A"]) ∧
      actionInGrid? (t.grid symbols) 0 "state" = some (.goto 1) ∧
      actionInGrid? (t.grid symbols) 3 "state" = none ∧
      actionInObject? t.toJson 1 "$" = some .accept ∧
      (t.sheet symbols).Tabulates g t (t.grid symbols) ∧
      (t.sheet symbols).columns = ["$", "*", "A", "state"] := by
  obtain ⟨g, hparse, hg⟩ := exists_ok_of_any (e := Grammar.parse "state ---> state A | *")
    (P := fun g : Grammar => (Automaton.ofGrammar g).toOption.any fun a : Automaton =>
      (ofAutomaton a).toOption.any fun t : ParseTable =>
        (SymbolTable.ofGrammar g).toOption.any fun symbols : SymbolTable =>
          decide (t.rows.keys = [0, 1, 3, 6] ∧
            t.action? 6 "A" = some (.reduce "state" ["state", "A"]) ∧
            t.action? 0 "state" = some (.goto 1) ∧ t.action? 3 "state" = none ∧
            t.action? 1 "$" = some .accept ∧
            (t.sheet symbols).columns = ["$", "*", "A", "state"])) (by decide +kernel)
  obtain ⟨a, t, symbols, ha, ht, hsymbols, hgrid, hobject, hsheet⟩ := read_back_of_parse hparse
  rw [ha, hsymbols] at hg
  simp only [Except.toOption, Option.any_some, ht, decide_eq_true_eq] at hg
  obtain ⟨hkeys, hreduce, hgoto, hnone, haccept, hcolumns⟩ := hg
  exact ⟨g, a, t, symbols, hparse, ha, ht, hsymbols, hkeys, (hgrid 6 "A").trans hreduce,
    (hgrid 0 "state").trans hgoto, (hgrid 3 "state").trans hnone, (hobject 1 "$").trans haccept,
    hsheet, hcolumns⟩

/-- The grid of a small table. -/
example : (of "s'" (.ofStates [⟨[⟨"s'", [.nonterminal "s"], 0, "$"⟩], [⟨.nonterminal "s", 1⟩]⟩,
    ⟨[⟨"s'", [.nonterminal "s"], 1, "$"⟩, ⟨"s", [.terminal "A"], 1, "$"⟩], []⟩,
    ⟨[⟨"s", [.terminal "A"], 1, "$"⟩], []⟩])).grid ⟨["$", "A"], ["s"], some "s"⟩ =
      "state | $         | A | s\n" ++
      "------+-----------+---+---\n" ++
      "0     |           |   | g1\n" ++
      "1     | r(s -> A) |   |\n" ++
      "2     | r(s -> A) |   |" := by decide +kernel

end ParseTable

end LRTables
