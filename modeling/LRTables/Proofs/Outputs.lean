import LRTables.Automaton.Dot
import LRTables.Proofs.Automaton.Bounds
import LRTables.Proofs.Table.Columns
import LRTables.Table.Grid

/-!
# From a grammar to its outputs

Whatever text is a grammar has an automaton, a parse table, a symbol table, a grid and a graph.
On the way to them much is looked up without asking whether it is there: the FIRST set of a left
side, the first item of a state, the state that a transition leads to, state zero, the width of a
column.  All of it is there, from the promises of the reader alone.

* `ParseTable.rectangular` — every cell of a grid has a width.
* `Supplied` — everything that is looked up is there.
* `exists_outputs` — every text that is a grammar has all outputs.
-/

namespace LRTables

/-! ## Grids -/

namespace ParseTable

/-- The cells of the rows of a grid. -/
def bodyCells (t : ParseTable) (names : List String) : List (List (List Char)) :=
  t.rows.entries.map fun e => gridRow (t.columns names) e.1 e.2

/-- The widths of the columns of a grid. -/
def gridWidths (t : ParseTable) (names : List String) : List Nat :=
  (t.bodyCells names).foldl widen ((headings (t.columns names)).map List.length)

/-- Widening columns adds none and loses none. -/
@[simp] theorem length_widen (widths : List Nat) (cells : List (List Char)) :
    (widen widths cells).length = widths.length := by
  induction widths generalizing cells with
  | nil => cases cells <;> rfl
  | cons w widths ih =>
    cases cells with
    | nil => rfl
    | cons c cells => simp [widen, ih]

theorem length_foldl_widen (lines : List (List (List Char))) (widths : List Nat) :
    (lines.foldl widen widths).length = widths.length := by
  induction lines generalizing widths with
  | nil => rfl
  | cons cells lines ih => rw [List.foldl_cons, ih, length_widen]

theorem length_gridWidths (t : ParseTable) (names : List String) :
    (t.gridWidths names).length = (t.columns names).length + 1 := by
  rw [gridWidths, length_foldl_widen, List.length_map, headings, List.length_cons, List.length_map]

/-- **Every cell of a grid has a width.** -/
structure Rectangular (t : ParseTable) (names : List String) : Prop where
  /-- The grid is its cells in lines of these widths, with dashes below the headings. -/
  lines : t.gridLines names =
    gridLine (t.gridWidths names) (headings (t.columns names)) ::
      ruleLine (t.gridWidths names) :: (t.bodyCells names).map (gridLine (t.gridWidths names))
  /-- Every line has as many cells as there are widths. -/
  cells : ∀ cells ∈ headings (t.columns names) :: t.bodyCells names,
    cells.length = (t.gridWidths names).length

/-- **Grids are rectangular.** -/
theorem rectangular (t : ParseTable) (names : List String) : t.Rectangular names := by
  refine ⟨rfl, ?_⟩
  intro cells hcells
  rw [length_gridWidths]
  rcases List.mem_cons.1 hcells with rfl | hcells
  · simp [headings]
  · obtain ⟨e, -, rfl⟩ := List.mem_map.1 hcells
    simp [gridRow]

end ParseTable

/-! ## Everything that is looked up -/

variable {g : Grammar}

/-- **Everything that is looked up on the way is there.** -/
structure Supplied (g : Grammar) (passes : List FirstSets) (states : List State) (b : Build)
    (t : ParseTable) (symbols : SymbolTable) : Prop where
  /-- Every left side has a FIRST set from the beginning on, and so has every non-terminal of a
  right side. -/
  sets : ∀ sets ∈ FirstSets.initial g :: passes, ∀ p ∈ g, p.lhs ∈ sets.keys ∧
    ∀ n, .nonterminal n ∈ p.rhs → n ∈ sets.keys
  /-- Every state has a first item, by which it is told apart. -/
  kernels : ∀ s ∈ states, ∃ κ, s.rules.head? = some κ
  /-- Every transition leads to a state, after any number of merge passes. -/
  targets : ∀ n, ∃ a, Automaton.afterPasses n (Automaton.ofStates states) = .ok a ∧ a.Closed
  /-- The passes that are made leave such an automaton too. -/
  closed : b.automaton.Closed
  /-- State zero is there, and the start item is its first one. -/
  start : ∃ s, b.automaton.get? 0 = some s ∧ s.rules.head? = some g.seed
  /-- There is a row for each state. -/
  rows : t.rows.keys = b.automaton.keys
  /-- Every cell of the grid has a width. -/
  widths : t.Rectangular symbols.names
  /-- Every number that is drawn is that of a state. -/
  nodes : ∀ k ∈ ascending b.automaton.keys, ∃ s, b.automaton.get? k = some s

/-- Every non-terminal has a FIRST set, from the beginning on. -/
theorem FirstSets.mem_keys_of_settles (hg : g.WellFormed) {passes : List FirstSets}
    {first : FirstSets} (h : Settles g (initial g) passes first) :
    ∀ sets ∈ initial g :: passes, ∀ p ∈ g, p.lhs ∈ sets.keys ∧
      ∀ n, .nonterminal n ∈ p.rhs → n ∈ sets.keys := by
  intro sets hsets p hp
  have hkeys : sets.keys = (initial g).keys := by
    rcases List.mem_cons.1 hsets with rfl | hsets
    · rfl
    · exact keys_of_settles h sets hsets
  rw [hkeys]
  exact ⟨mem_keys_initial.2 ⟨p, hp, rfl⟩, fun n hn => mem_keys_initial.2 (hg.defined p hp n hn)⟩

/-- **Every text that is a grammar has all outputs**: its automaton, which comes about in loops that
go on to their own ends, the table of the automaton, the symbol table, the grid of the two, and a
graph under any name.  Nothing that is looked up on the way is missing. -/
theorem exists_outputs {text : String} (h : Grammar.parse text = .ok g) :
    ∃ passes first states b t symbols, FirstSets.passes g = .ok passes ∧
      FirstSets.compute g = .ok first ∧ Automaton.expandedStates g = .ok states ∧
      Automaton.build g = .ok b ∧ ParseTable.ofAutomaton b.automaton = .ok t ∧
      SymbolTable.ofGrammar g = .ok symbols ∧
      (∀ name, ∃ graph, b.automaton.dot name = .ok graph) ∧
      Automaton.Completed g passes first states b ∧ Supplied g passes states b t symbols := by
  have hg := Grammar.wellFormed_of_parse h
  obtain ⟨passes, first, hpasses, hcompute, hf, hs, hsettled, -⟩ := FirstSets.exists_settled hg
  obtain ⟨states, hstates, ha, hclosures, hkernels, -⟩ :=
    Automaton.exists_expandedStates hg hcompute hf hs
  obtain ⟨b, hbuild, hb, hmerged, -⟩ := Automaton.exists_merged hg hstates ha
  obtain ⟨symbols, hsymbols, -⟩ := SymbolTable.exists_ofGrammar hg.ne_nil
  obtain ⟨s, hzero, hseed⟩ := hb.start
  have hmem : 0 ∈ b.automaton := OrderedMap.mem_keys_of_get? hzero
  refine ⟨passes, first, states, b, _, symbols, hpasses, hcompute, hstates, hbuild,
    ParseTable.ofAutomaton_built hb, hsymbols, fun name => ⟨_, if_pos hmem⟩,
    ⟨hsettled, fun s hs => (hclosures s hs).1, hkernels, hmerged⟩, ?_⟩
  constructor
  · exact FirstSets.mem_keys_of_settles hg hsettled
  · intro s hs
    obtain ⟨κ, hκ⟩ := (hclosures s hs).1
    obtain ⟨rest, hrest⟩ := hκ.queue_prefix
    exact ⟨κ, by rw [← hrest]; rfl⟩
  · intro n
    obtain ⟨a, f, hafter, hq, -⟩ := Automaton.exists_afterPasses ha.closed n
    exact ⟨a, hafter, hq.closed ha.closed⟩
  · exact hb.closed
  · exact ⟨s, hzero, hseed⟩
  · exact OrderedMap.keys_mapValues ..
  · exact ParseTable.rectangular ..
  · intro k hk
    exact (b.automaton.mem_keys_iff k).1 (mem_ascending.1 hk)

/-- With two alternatives that are just the empty string, its name is a column.  Two of ten states
are merged into others, and their numbers stay free. -/
theorem exists_outputs_of_empty_alternatives :
    ∃ g passes first states b t symbols,
      Grammar.parse "s ---> a b\na ---> A | *\nb ---> B | *" = .ok g ∧
      Automaton.build g = .ok b ∧ ParseTable.ofAutomaton b.automaton = .ok t ∧
      SymbolTable.ofGrammar g = .ok symbols ∧ Automaton.Completed g passes first states b ∧
      Supplied g passes states b t symbols ∧ states.length = 10 ∧
      b.automaton.keys = [0, 1, 2, 3, 5, 7, 8, 9] ∧
      t.columns symbols.names = ["$", "*", "A", "B", "s", "a", "b"] := by
  obtain ⟨g, hparse, hg⟩ := exists_ok_of_any
    (e := Grammar.parse "s ---> a b\na ---> A | *\nb ---> B | *")
    (P := fun g : Grammar =>
      (Automaton.expandedStates g).toOption.any (fun states : List State =>
        decide (states.length = 10)) &&
      (Automaton.build g).toOption.any fun b : Build =>
        decide (b.automaton.keys = [0, 1, 2, 3, 5, 7, 8, 9]) &&
        (ParseTable.ofAutomaton b.automaton).toOption.any fun t : ParseTable =>
          (SymbolTable.ofGrammar g).toOption.any fun symbols : SymbolTable =>
            decide (t.columns symbols.names = ["$", "*", "A", "B", "s", "a", "b"]))
    (by decide +kernel)
  obtain ⟨passes, first, states, b, t, symbols, -, -, hstates, hbuild, ht, hsymbols, -, hcompleted,
    hsupplied⟩ := exists_outputs hparse
  rw [hstates, hbuild, hsymbols] at hg
  simp only [Except.toOption, Option.any_some, ht, Bool.and_eq_true, decide_eq_true_eq] at hg
  obtain ⟨hlength, hkeys, hcolumns⟩ := hg
  exact ⟨g, passes, first, states, b, t, symbols, hparse, hbuild, ht, hsymbols, hcompleted,
    hsupplied, hlength, hkeys, hcolumns⟩

end LRTables
