import LRTables.Proofs.Outcome
import LRTables.Proofs.Table.Soundness
import LRTables.SymbolTable

/-!
# What stands in which column

The columns of a table are the symbols of the grammar.  A shift stands in the column of a
terminal and a goto in that of a non-terminal, and both lead to a row; a reduction is by a
production of the grammar itself, whose item is complete in the state.  What keeps the columns
apart are the classes of names that the reader tells apart, and that a look-ahead is the end
marker or a terminal of the grammar, the name of the empty string among them only if a right
side is just that.

* `SymbolTable.exists_ofGrammar` — the names in the symbol table of a grammar.
* `ParseTable.Fits` — every cell is in a column and says what fits it.
* `ParseTable.fits` — tables of grammars are such.
* `ParseTable.fits_of_parse` — for every text that is a grammar.
-/

namespace LRTables

variable {g : Grammar} {first : FirstSets} {a : Automaton}

/-! ## The names of a grammar -/

/-- The symbol table of a grammar has the end marker, the terminals and the non-terminals. -/
theorem SymbolTable.exists_ofGrammar (hg : g ≠ []) :
    ∃ symbols, ofGrammar g = .ok symbols ∧
      (∀ name, name ∈ symbols.terminals ↔ name = endMarker ∨ name ∈ g.terminals) ∧
      ∀ name, name ∈ symbols.nonterminals ↔ name ∈ g.nonterminals := by
  obtain ⟨p, rest, rfl⟩ := List.exists_cons_of_ne_nil hg
  refine ⟨_, rfl, ?_, ?_⟩
  · intro name
    simp only [freeze, empty, List.mem_cons, mem_ascending, List.mem_filter, decide_eq_true_eq]
    tauto
  · intro name
    simp only [freeze, empty, mem_appendDistinct, List.not_mem_nil, false_or]

/-- The left side of a production is a non-terminal of the grammar. -/
theorem Grammar.mem_nonterminals_of_mem {p : Production} (hp : p ∈ g) : p.lhs ∈ g.nonterminals :=
  List.mem_flatMap.2 ⟨p, hp, List.mem_cons_self ..⟩

/-- No left side is the end marker or a terminal. -/
theorem Grammar.WellFormed.lhs_not_terminal (hg : g.WellFormed) {p : Production} (hp : p ∈ g) :
    ¬ (p.lhs = endMarker ∨ p.lhs ∈ g.terminals) := by
  have hlhs : Grammar.isNonterminalName p.lhs = true := hg.lhs p hp
  rintro (hend | hterminal)
  · rw [hend] at hlhs
    exact absurd hlhs (by decide)
  · obtain ⟨q, hq, hname⟩ := List.mem_flatMap.1 hterminal
    obtain ⟨x, hx, hxname⟩ := List.mem_map.1 hname
    obtain ⟨hx, hkind⟩ := List.mem_filter.1 hx
    -- a name tells the kind of its symbol
    have hsame : x = .nonterminal p.lhs :=
      (hg.wellNamed q hq x hx).eq_of_name_eq hlhs hxname
    rw [hsame] at hkind
    exact absurd hkind (by simp)

namespace ParseTable

/-- **Every cell is in a column of the grammar and says what fits it.** -/
structure Fits (g : Grammar) (a : Automaton) (symbols : SymbolTable) (t : ParseTable) : Prop where
  /-- There is a row for each state. -/
  rows : t.rows.keys = a.keys
  /-- A reduction is by a production of the grammar, not by that of the new start symbol, and
  the item of the production is complete in the state with the name as its look-ahead. -/
  reduce : ∀ k name lhs rhs, t.action? k name = some (.reduce lhs rhs) →
    lhs ≠ g.startProduction.lhs ∧ ∃ p ∈ g, p.lhs = lhs ∧ p.rhsNames = rhs ∧
      .ofProduction p p.rhs.length name ∈ a.rulesOf k
  /-- A shift is in the column of a terminal of the grammar and leads to a row. -/
  shift : ∀ k name j, t.action? k name = some (.shift j) →
    name ∈ g.terminals ∧ symbols.isTerminal name = true ∧ j ∈ t.rows.keys
  /-- A goto is in the column of a non-terminal of the grammar and leads to a row. -/
  goto : ∀ k name j, t.action? k name = some (.goto j) →
    name ∈ symbols.nonterminals ∧ symbols.isTerminal name = false ∧ j ∈ t.rows.keys
  /-- The names of the columns are those of the symbol table. -/
  columns : ∀ k row, t.rows.get? k = some row → ∀ name ∈ row.keys, name ∈ symbols.names

section Built

variable (hg : g.WellFormed) (hb : a.Built g first)

include hb

/-- A terminal that is shifted is on a right side of the grammar. -/
theorem mem_terminals_of_has {k j : Nat} {name : String} (h : a.Has k ⟨.terminal name, j⟩) :
    name ∈ g.terminals := by
  obtain ⟨i, hi, hnext, -⟩ := hb.justified k _ h
  obtain ⟨γ, hv⟩ := hb.viable k i hi
  obtain ⟨p, hp, -, hrhs⟩ := hv.isOf
  have hmem : .terminal name ∈ p.rhs := by
    rw [← hrhs]
    exact Item.mem_of_next? hnext
  have haugmented : name ∈ Grammar.terminals g.augmented := Grammar.mem_terminals_of_mem_rhs hp hmem
  exact haugmented

include hg

/-- A non-terminal that is gone over is on a left side of the grammar. -/
theorem exists_lhs_of_has {k j : Nat} {name : String} (h : a.Has k ⟨.nonterminal name, j⟩) :
    ∃ p ∈ g, p.lhs = name := by
  obtain ⟨i, hi, hnext, -⟩ := hb.justified k _ h
  obtain ⟨γ, hv⟩ := hb.viable k i hi
  exact Item.exists_of_next? hg hv.isOf hnext

/-- The column of a cell is that of a symbol of the grammar. -/
theorem column_mem (hf : first.Exact g) {start : String} {k : Nat} {s : State}
    (hs : a.get? k = some s) {name : String} (h : name ∈ (row start s).keys) :
    (name = endMarker ∨ name ∈ g.terminals) ∨ name ∈ g.nonterminals := by
  obtain ⟨action, haction⟩ := ((row start s).mem_keys_iff name).1 h
  rcases mem_cells_iff.1 (OrderedMap.mem_of_get?_ofList haction) with
    ⟨t, ht, rfl, -⟩ | ⟨i, hi, -, rfl, -⟩
  · obtain ⟨symbol, j⟩ := t
    cases symbol with
    | terminal n => exact Or.inl (Or.inr (mem_terminals_of_has hb ⟨s, hs, ht⟩))
    | nonterminal n =>
      obtain ⟨p, hp, rfl⟩ := exists_lhs_of_has hg hb ⟨s, hs, ht⟩
      exact Or.inr (Grammar.mem_nonterminals_of_mem hp)
  · rw [← Automaton.mem_rulesOf_of_get? hs] at hi
    obtain ⟨γ, hv⟩ := hb.viable k i hi
    exact Or.inl (hv.look_mem hg hf)

/-- **The table of an automaton of a grammar fits the grammar.** -/
theorem fits (hf : first.Exact g) {symbols : SymbolTable}
    (hterminals : ∀ name, name ∈ symbols.terminals ↔ name = endMarker ∨ name ∈ g.terminals)
    (hnonterminals : ∀ name, name ∈ symbols.nonterminals ↔ name ∈ g.nonterminals) :
    (of g.startProduction.lhs a).Fits g a symbols := by
  have hrows : (of g.startProduction.lhs a).rows.keys = a.keys := OrderedMap.keys_mapValues ..
  constructor
  · exact hrows
  · intro k name lhs rhs h
    obtain ⟨p, hp, rfl, hrhs, hitem⟩ := exists_of_reduce hg hb h
    exact ⟨hg.lhs_ne_startProduction hp, p, hp, rfl, hrhs, hitem⟩
  · intro k name j h
    have hhas : a.Has k ⟨.terminal name, j⟩ := has_of_moves (x := .terminal name) h
    have hname : name ∈ g.terminals := mem_terminals_of_has hb hhas
    refine ⟨hname, ?_, ?_⟩
    · exact List.contains_iff_mem.2 ((hterminals name).2 (Or.inr hname))
    · rw [hrows]
      exact hb.closed k _ hhas
  · intro k name j h
    have hhas : a.Has k ⟨.nonterminal name, j⟩ := has_of_moves (x := .nonterminal name) h
    obtain ⟨p, hp, rfl⟩ := exists_lhs_of_has hg hb hhas
    refine ⟨(hnonterminals _).2 (Grammar.mem_nonterminals_of_mem hp), ?_, ?_⟩
    · rw [SymbolTable.isTerminal, List.contains_eq_mem, decide_eq_false_iff_not, hterminals]
      exact hg.lhs_not_terminal hp
    · rw [hrows]
      exact hb.closed k _ hhas
  · intro k r hr name hname
    rw [of, OrderedMap.get?_mapValues] at hr
    obtain ⟨s, hs, rfl⟩ := Option.map_eq_some_iff.1 hr
    rw [SymbolTable.names, List.mem_append, hterminals, hnonterminals]
    exact column_mem hg hb hf hs hname

end Built

/-- **Every text that is a grammar has a table whose cells fit it**: reductions are by
productions of the grammar and only where their items are complete, shifts are in columns of
terminals and gotos in those of non-terminals, both lead to rows, and every column is that of
a symbol in the symbol table. -/
theorem fits_of_parse {text : String} (h : Grammar.parse text = .ok g) :
    ∃ a t symbols, Automaton.ofGrammar g = .ok a ∧ ofAutomaton a = .ok t ∧
      SymbolTable.ofGrammar g = .ok symbols ∧ t.Fits g a symbols := by
  have hg := Grammar.wellFormed_of_parse h
  obtain ⟨first, a, hf, hgrammar, hb⟩ := Automaton.exists_ofGrammar hg
  obtain ⟨symbols, hsymbols, hterminals, hnonterminals⟩ := SymbolTable.exists_ofGrammar hg.ne_nil
  exact ⟨a, _, symbols, hgrammar, ofAutomaton_built hb, hsymbols,
    fits hg hb hf hterminals hnonterminals⟩

/-- The name of the empty string is a column, in which it is shifted and in which another
production is reduced. -/
theorem fits_of_parse_of_empty_alternative :
    ∃ g a t symbols, Grammar.parse "s ---> a b\na ---> A\nb ---> B | *" = .ok g ∧
      Automaton.ofGrammar g = .ok a ∧ ofAutomaton a = .ok t ∧
      SymbolTable.ofGrammar g = .ok symbols ∧ t.Fits g a symbols ∧
      t.action? 2 epsilon = some (.shift 7) ∧ t.action? 3 epsilon = some (.reduce "a" ["A"]) ∧
      symbols.names = ["$", "*", "A", "B", "s", "a", "b"] := by
  obtain ⟨g, hparse, hg⟩ := exists_ok_of_any
    (e := Grammar.parse "s ---> a b\na ---> A\nb ---> B | *")
    (P := fun g : Grammar =>
      (SymbolTable.ofGrammar g).toOption.any (fun symbols : SymbolTable =>
        decide (symbols.names = ["$", "*", "A", "B", "s", "a", "b"])) &&
      (Automaton.ofGrammar g).toOption.any fun a : Automaton =>
        (ofAutomaton a).toOption.any fun t : ParseTable =>
          decide (t.action? 2 epsilon = some (.shift 7) ∧
            t.action? 3 epsilon = some (.reduce "a" ["A"])))
    (by decide +kernel)
  obtain ⟨a, t, symbols, ha, ht, hsymbols, hfits⟩ := fits_of_parse hparse
  rw [ha, hsymbols] at hg
  simp only [Except.toOption, Option.any_some, ht, Bool.and_eq_true, decide_eq_true_eq] at hg
  exact ⟨g, a, t, symbols, hparse, ha, ht, hsymbols, hfits, hg.2.1, hg.2.2, hg.1⟩

end ParseTable

end LRTables
