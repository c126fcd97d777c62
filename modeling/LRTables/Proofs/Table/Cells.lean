import LRTables.Proofs.Table.Driver

/-!
# What the cells of a table hold

Everything that is entered into a row is entered in order, and of several actions for one
cell the last one stays.  The complete items are entered behind the transitions, so a cell
holds the action of the last item that is complete with its name as the look-ahead, and that
of the last transition over the name only if there is no such item.

* `State.completed` — the complete items of a state with a look-ahead.
* `ParseTable.get?_row` — what stands in a cell.
* `ParseTable.Lawful` — which of all that is entered stands in the cells of a table.
* `ParseTable.lawful_of_start` — tables of automata with a first item are such.
* `ParseTable.acceptCount_eq_one` and `acceptCount_eq_zero` — the accepting cells, counted.
-/

namespace LRTables

namespace Automaton

/-- What a complete item enters. -/
def entered (start : String) (i : Item) : Action :=
  if i.lhs = start ∧ i.look = endMarker then .accept else .reduce i.lhs i.rhsNames

theorem entered_ne_moveTo (start : String) (i : Item) (x : Symbol) (u : Nat) :
    entered start i ≠ ParseTable.moveTo x u := by
  unfold entered
  cases x <;> split <;> simp [ParseTable.moveTo]

/-- Only a complete item of the start symbol before the end of the input enters an acceptance. -/
theorem entered_eq_accept_iff (start : String) (i : Item) :
    entered start i = .accept ↔ i.lhs = start ∧ i.look = endMarker := by
  unfold entered
  split <;> simp_all

end Automaton

/-- The items of a state that are complete with the name as their look-ahead, in their order. -/
def State.completed (s : State) (name : String) : List Item :=
  s.rules.filter fun i => i.atEnd && i.look == name

theorem State.mem_completed_iff {s : State} {name : String} {i : Item} :
    i ∈ s.completed name ↔ i ∈ s.rules ∧ i.atEnd = true ∧ i.look = name := by
  rw [completed, List.mem_filter, Bool.and_eq_true, beq_iff_eq]

namespace ParseTable

/-- What an item enters, if it is complete. -/
theorem itemCell?_eq (start : String) (i : Item) :
    itemCell? start i = if i.atEnd then some (i.look, Automaton.entered start i) else none := by
  unfold itemCell? Automaton.entered
  by_cases hacc : i.lhs = start ∧ i.look = endMarker
  · simp [hacc]
  · simp [hacc]

/-- What the items enter for one name. -/
theorem filter_itemCells (start : String) (items : List Item) (name : String) :
    ((items.filterMap (itemCell? start)).filter fun c => c.1 = name) =
      (items.filter fun i => i.atEnd && i.look == name).map
        fun i => (name, Automaton.entered start i) := by
  induction items with
  | nil => rfl
  | cons i rest ih =>
    rw [List.filterMap_cons, itemCell?_eq]
    by_cases hend : i.atEnd = true
    · by_cases hlook : i.look = name
      · simp [hend, hlook, ih]
      · simp [hend, hlook, ih]
    · simp [hend, ih]

/-- What the transitions enter for one name. -/
theorem filter_transitionCells (ts : List Transition) (name : String) :
    ((ts.map transitionCell).filter fun c => c.1 = name) =
      (ts.filter fun t => t.symbol.name = name).map fun t => (name, moveTo t.symbol t.target) := by
  induction ts with
  | nil => rfl
  | cons t rest ih =>
    rw [List.map_cons, transitionCell_eq]
    by_cases hname : t.symbol.name = name
    · simp [hname, ih]
    · simp [hname, ih]

/-- **What stands in a cell**: the action of the last item that is complete with the name as
its look-ahead, and if there is none, that of the last transition over the name. -/
theorem get?_row (start : String) (s : State) (name : String) :
    (row start s).get? name =
      ((s.completed name).getLast?.map (Automaton.entered start)).or
        ((s.transitions.filter fun t => t.symbol.name = name).getLast?.map
          fun t => moveTo t.symbol t.target) := by
  rw [row, OrderedMap.get?_ofList_eq_getLast?, cells, List.filter_append, List.getLast?_append,
    filter_itemCells, filter_transitionCells, Option.map_or, List.getLast?_map, List.getLast?_map,
    Option.map_map, Option.map_map]
  rfl

/-- The action in the cell of complete items is that of the last one. -/
theorem action?_of_completed {start : String} {a : Automaton} {k : Nat} {s : State}
    (hs : a.get? k = some s) {name : String} {i : Item}
    (hi : (s.completed name).getLast? = some i) :
    (of start a).action? k name = some (Automaton.entered start i) := by
  rw [action?_of, hs, Option.bind_some, get?_row, hi]
  rfl

/-! ## The law of the cells -/

/-- Is it the last element of the list that has the property? -/
def Last {α : Type} (P : α → Prop) (l : List α) (x : α) : Prop :=
  P x ∧ ∃ before after, l = before ++ x :: after ∧ ∀ y ∈ after, ¬ P y

/-- The last of the elements that are kept is the last one with the property. -/
theorem getLast?_filter_eq_some_iff {α : Type} {p : α → Bool} {l : List α} {x : α} :
    (l.filter p).getLast? = some x ↔ Last (fun y => p y = true) l x := by
  rw [← List.head?_reverse, ← List.filter_reverse, List.head?_filter,
    List.find?_eq_some_iff_append]
  refine and_congr_right fun _ => ⟨?_, ?_⟩
  · rintro ⟨before, after, hl, hbefore⟩
    refine ⟨after.reverse, before.reverse, ?_, ?_⟩
    · rw [← List.reverse_reverse l, hl]
      simp
    · intro y hy
      simpa using hbefore y (List.mem_reverse.1 hy)
  · rintro ⟨before, after, rfl, hafter⟩
    exact ⟨after.reverse, before.reverse, by simp, fun y hy => by
      simpa using hafter y (List.mem_reverse.1 hy)⟩

/-- Is the item complete, with the name as its look-ahead? -/
def Completes (name : String) (i : Item) : Prop := i.rhs.length ≤ i.dot ∧ i.look = name

theorem completes_iff (name : String) (i : Item) :
    (i.atEnd && i.look == name) = true ↔ Completes name i := by
  simp [Item.atEnd, Completes]

theorem getLast?_completed_eq_some_iff {s : State} {name : String} {i : Item} :
    (s.completed name).getLast? = some i ↔ Last (Completes name) s.rules i := by
  rw [State.completed, getLast?_filter_eq_some_iff]
  simp only [completes_iff]

theorem completed_eq_nil_iff {s : State} {name : String} :
    s.completed name = [] ↔ ∀ i ∈ s.rules, ¬ Completes name i := by
  simp only [State.completed, List.filter_eq_nil_iff, completes_iff]

/-- **The law of the cells**: of all that is entered for a name into the row of a state, the last
complete item comes first, and the last transition only where there is none. -/
structure Lawful (start : String) (a : Automaton) (t : ParseTable) : Prop where
  /-- There is a row for each state, and no other. -/
  rows : t.rows.keys = a.keys
  /-- The last complete item with the name as its look-ahead stands in the cell: the input is
  accepted if its left side is the start symbol and the name is the end marker, and the item
  reduced otherwise. -/
  completed : ∀ k s, a.get? k = some s → ∀ name i, Last (Completes name) s.rules i →
    t.action? k name =
      some (if i.lhs = start ∧ name = endMarker then .accept else .reduce i.lhs i.rhsNames)
  /-- Without one, the last transition over the name stands there: a terminal is shifted, and a
  non-terminal gone over. -/
  moved : ∀ k s, a.get? k = some s → ∀ name, (∀ i ∈ s.rules, ¬ Completes name i) →
    ∀ r, Last (fun r => r.symbol.name = name) s.transitions r →
      t.action? k name = some (if r.symbol.isTerminal then .shift r.target else .goto r.target)
  /-- Without either, or without the state, nothing does. -/
  empty : ∀ k name, (∀ s, a.get? k = some s → (∀ i ∈ s.rules, ¬ Completes name i) ∧
    ∀ r ∈ s.transitions, r.symbol.name ≠ name) → t.action? k name = none
  /-- So a complete item is never left out for a transition. -/
  beats : ∀ k s, a.get? k = some s → ∀ i ∈ s.rules, i.rhs.length ≤ i.dot →
    t.action? k i.look = some .accept ∨ ∃ lhs rhs, t.action? k i.look = some (.reduce lhs rhs)

theorem moveTo_eq (x : Symbol) (j : Nat) :
    moveTo x j = if x.isTerminal then .shift j else .goto j := by
  cases x <;> rfl

theorem entered_eq {start name : String} {i : Item} (h : i.look = name) :
    Automaton.entered start i =
      if i.lhs = start ∧ name = endMarker then .accept else .reduce i.lhs i.rhsNames := by
  rw [Automaton.entered, h]

/-- The table of the entries is lawful. -/
theorem lawful_of (start : String) (a : Automaton) : (of start a).Lawful start a := by
  refine ⟨OrderedMap.keys_mapValues .., ?_, ?_, ?_, ?_⟩
  · intro k s hs name i hi
    rw [action?_of_completed hs (getLast?_completed_eq_some_iff.2 hi), entered_eq hi.1.2]
  · intro k s hs name hnone r hr
    have hlast : (s.transitions.filter fun t => t.symbol.name = name).getLast? = some r := by
      rw [getLast?_filter_eq_some_iff]
      simpa only [decide_eq_true_eq] using hr
    rw [action?_of, hs, Option.bind_some, get?_row, completed_eq_nil_iff.2 hnone, hlast,
      ← moveTo_eq]
    rfl
  · intro k name h
    rw [action?_of]
    cases hs : a.get? k with
    | none => rfl
    | some s =>
      obtain ⟨hitems, htransitions⟩ := h s hs
      have hnone : (s.transitions.filter fun t => t.symbol.name = name) = [] := by
        simpa [List.filter_eq_nil_iff] using htransitions
      rw [Option.bind_some, get?_row, completed_eq_nil_iff.2 hitems, hnone]
      rfl
  · intro k s hs i hi hend
    have hne : s.completed i.look ≠ [] := fun h =>
      completed_eq_nil_iff.1 h i hi ⟨hend, rfl⟩
    obtain ⟨j, hj⟩ := Option.ne_none_iff_exists'.1 fun h => hne (List.getLast?_eq_none_iff.1 h)
    rw [action?_of_completed hs hj, Automaton.entered]
    split
    · exact Or.inl rfl
    · exact Or.inr ⟨_, _, rfl⟩

/-- **Every automaton whose state zero has a first item has a table that is lawful**, for the left
side of that item as the start symbol. -/
theorem lawful_of_start {a : Automaton} {s : State} {i : Item} (hs : a.get? 0 = some s)
    (hi : s.rules.head? = some i) : ∃ t, ofAutomaton a = .ok t ∧ t.Lawful i.lhs a := by
  have hstart : startOf a = .ok i.lhs := by
    cases hrules : s.rules with
    | nil => simp [hrules] at hi
    | cons j rest =>
      rw [hrules, List.head?_cons, Option.some.injEq] at hi
      simp only [startOf, hs, hrules, hi]
  refine ⟨of i.lhs a, ?_, lawful_of i.lhs a⟩
  simp only [ofAutomaton, hstart, bind, Except.bind]
  rfl

/-- Several things are entered into one cell: in state zero two transitions and two complete items,
one with its dot beyond the end, for `A`, and two transitions for `s`; in state seven a transition, a
reduction and two acceptances for the end of the input. -/
def crowded : Automaton :=
  .ofList
    [(7, ⟨[⟨"s'", [.nonterminal "s"], 1, "$"⟩, ⟨"b", [], 0, "$"⟩, ⟨"s'", [], 0, "$"⟩,
        ⟨"b", [.terminal "A"], 0, "$"⟩], [⟨.terminal "$", 0⟩]⟩),
      (0, ⟨[⟨"s'", [.nonterminal "s"], 0, "$"⟩, ⟨"b", [.terminal "A"], 5, "A"⟩, ⟨"c", [], 0, "A"⟩],
        [⟨.terminal "A", 1⟩, ⟨.terminal "A", 2⟩, ⟨.terminal "s", 3⟩, ⟨.nonterminal "s", 7⟩]⟩)]

/-- The second reduction stays for `A`, the second transition for `s`, and the second acceptance for
the end of the input. -/
theorem lawful_of_start_crowded :
    ∃ t, ofAutomaton crowded = .ok t ∧ t.Lawful "s'" crowded ∧ t.rows.keys = [7, 0] ∧
      t.action? 0 "A" = some (.reduce "c" []) ∧ t.action? 0 "s" = some (.goto 7) ∧
      t.action? 7 "$" = some .accept ∧ t.action? 1 "A" = none := by
  obtain ⟨t, ht, hlawful⟩ := lawful_of_start (a := crowded) rfl rfl
  refine ⟨t, ht, hlawful, hlawful.rows, ?_⟩
  obtain rfl := Except.ok.inj ht
  decide

/-! ## Accepting cells, counted -/

section Count

variable {t : ParseTable}

theorem exists_action?_of_mem {action : Action}
    (h : action ∈ t.rows.values.flatMap OrderedMap.values) :
    ∃ k name, t.action? k name = some action := by
  obtain ⟨r, hr, hmem⟩ := List.mem_flatMap.1 h
  obtain ⟨k, hk⟩ := (t.rows.mem_values_iff r).1 hr
  obtain ⟨name, hname⟩ := (r.mem_values_iff action).1 hmem
  exact ⟨k, name, by rw [action?, hk, Option.bind_some, hname]⟩

/-- Without an accepting cell the count is zero. -/
theorem acceptCount_eq_zero (h : ∀ k name, t.action? k name ≠ some .accept) :
    t.acceptCount = 0 := by
  apply List.count_eq_zero.2
  intro hmem
  obtain ⟨k, name, haction⟩ := exists_action?_of_mem hmem
  exact h k name haction

/-- With one accepting cell the count is one. -/
theorem acceptCount_eq_one {k : Nat} {name : String} (h : t.action? k name = some .accept)
    (honly : ∀ k' name', t.action? k' name' = some .accept → k' = k ∧ name' = name) :
    t.acceptCount = 1 := by
  obtain ⟨r, hr, hname⟩ := Option.bind_eq_some_iff.1 h
  have hrow : ∀ j r', t.rows.get? j = some r' → Action.accept ∈ r'.values → j = k := by
    intro j r' hr' hmem
    obtain ⟨name', hname'⟩ := (r'.mem_values_iff _).1 hmem
    exact (honly j name' (by rw [action?, hr', Option.bind_some, hname'])).1
  rw [acceptCount, OrderedMap.count_flatMap_values hr hrow]
  apply OrderedMap.count_values_eq_one hname
  intro name' hname'
  exact (honly k name' (by rw [action?, hr, Option.bind_some, hname'])).2

end Count

end ParseTable

end LRTables
