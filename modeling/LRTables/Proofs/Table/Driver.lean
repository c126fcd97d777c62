import LRTables.Proofs.Automaton.Items
import LRTables.Table.Basic

/-!
# The driver of a table

The shift-reduce parser that a table is made for.  It keeps a stack of states, state zero
at the bottom, and looks at the first symbol of the input: a shift reads the symbol and
pushes a state, a reduction takes as many states from the stack as the right side has
symbols and pushes the one that the state below leads to over the left side.  What the
cells of a table say is what the transitions and the complete items of the automaton say,
and all of it if no two of them fall into one cell.

* `ParseTable.step` — one step of the driver.
* `ParseTable.AcceptsThrough` and `Accepts` — the runs that come to an accepting cell.
* `ParseTable.action?_cases` — what a cell says of the automaton.
* `Automaton.ConflictFree` — no two different actions for one cell.
-/

namespace LRTables

/-- The stack of the driver, the last state first, and what is left of the input. -/
structure Configuration where
  /-- The states, the last one first. -/
  stack : List Nat
  /-- The names that are not read yet. -/
  input : List String
  deriving DecidableEq, Repr

/-- What comes of a step. -/
inductive Outcome where
  /-- The input is accepted. -/
  | accept
  /-- There is nothing to do. -/
  | fail
  /-- The driver goes on. -/
  | next (c : Configuration)
  deriving DecidableEq, Repr

/-- State zero and the word with the end of the input behind it. -/
def Configuration.initial (w : List String) : Configuration := ⟨[0], w ++ [endMarker]⟩

namespace ParseTable

/-- One step of the driver.  It fails on an empty cell, on a reduction that would take
state zero away, and where there is no state to go to. -/
def step (t : ParseTable) (c : Configuration) : Outcome :=
  match c.stack, c.input with
  | q :: _, name :: rest =>
    match t.action? q name with
    | some (.shift j) => .next ⟨j :: c.stack, rest⟩
    | some (.reduce lhs rhs) =>
      match c.stack.drop rhs.length with
      | [] => .fail
      | p :: below =>
        match t.action? p lhs with
        | some (.goto j) => .next ⟨j :: p :: below, c.input⟩
        | _ => .fail
    | some .accept => .accept
    | _ => .fail
  | _, _ => .fail

/-- The driver comes to accept, and on its way the property holds of all that it steps from. -/
inductive AcceptsThrough (t : ParseTable) (P : Configuration → Prop) : Configuration → Prop where
  /-- The input is accepted. -/
  | accept {c : Configuration} (h : P c) (hstep : t.step c = .accept) : AcceptsThrough t P c
  /-- The driver goes on. -/
  | next {c c' : Configuration} (h : P c) (hstep : t.step c = .next c')
      (rest : AcceptsThrough t P c') : AcceptsThrough t P c

/-- The driver comes to accept. -/
abbrev Accepts (t : ParseTable) : Configuration → Prop := t.AcceptsThrough fun _ => True

/-- Does the driver accept within so many steps? -/
def acceptsWithin (t : ParseTable) : Nat → Configuration → Bool
  | 0, _ => false
  | n + 1, c =>
    match t.step c with
    | .accept => true
    | .fail => false
    | .next c' => acceptsWithin t n c'

theorem accepts_of_within {t : ParseTable} {n : Nat} {c : Configuration}
    (h : t.acceptsWithin n c = true) : t.Accepts c := by
  induction n generalizing c with
  | zero => exact absurd h (by simp [acceptsWithin])
  | succ n ih =>
    simp only [acceptsWithin] at h
    split at h
    · rename_i hstep
      exact AcceptsThrough.accept trivial hstep
    · exact absurd h (by simp)
    · rename_i c' hstep
      exact AcceptsThrough.next trivial hstep (ih h)

/-- The driver goes from one configuration to another. -/
abbrev Steps (t : ParseTable) : Configuration → Configuration → Prop :=
  Relation.ReflTransGen fun c c' => t.step c = .next c'

theorem Steps.head {t : ParseTable} {c c' d : Configuration} (hstep : t.step c = .next c')
    (h : t.Steps c' d) : t.Steps c d :=
  Relation.ReflTransGen.head hstep h

/-- What comes to accept after some steps comes to accept. -/
theorem Steps.accepts {t : ParseTable} {c c' : Configuration} (h : t.Steps c c')
    (hc' : t.Accepts c') : t.Accepts c := by
  induction h using Relation.ReflTransGen.head_induction_on with
  | refl => exact hc'
  | head hstep _ ih => exact AcceptsThrough.next trivial hstep ih

/-! ## What a step does -/

section Step

variable {t : ParseTable} {q j : Nat} {below : List Nat} {name : String} {rest : List String}

theorem step_shift (below : List Nat) (rest : List String)
    (h : t.action? q name = some (.shift j)) :
    t.step ⟨q :: below, name :: rest⟩ = .next ⟨j :: q :: below, rest⟩ := by
  simp only [step, h]

theorem step_accept (h : t.action? q name = some .accept) :
    t.step ⟨q :: below, name :: rest⟩ = .accept := by
  simp only [step, h]

theorem step_reduce {lhs : String} {rhs : List String} {p : Nat} {popped : List Nat}
    (rest : List String) (hhead : (popped ++ p :: below).head? = some q)
    (h : t.action? q name = some (.reduce lhs rhs)) (hlen : popped.length = rhs.length)
    (hgoto : t.action? p lhs = some (.goto j)) :
    t.step ⟨popped ++ p :: below, name :: rest⟩ = .next ⟨j :: p :: below, name :: rest⟩ := by
  obtain ⟨others, hothers⟩ : ∃ others, popped ++ p :: below = q :: others := by
    cases hstack : popped ++ p :: below with
    | nil => simp at hstack
    | cons q' others =>
      rw [hstack] at hhead
      exact ⟨others, by rw [Option.some.inj hhead]⟩
  have hdrop : (q :: others).drop rhs.length = p :: below := by
    rw [← hothers, ← hlen, List.drop_left]
  simp only [hothers, step, h, hdrop, hgoto]

/-- A step that does not fail shifts, reduces or accepts. -/
theorem step_cases {c : Configuration} (h : t.step c ≠ .fail) :
    ∃ q below name rest, c = ⟨q :: below, name :: rest⟩ ∧
      ((∃ j, t.action? q name = some (.shift j) ∧
          t.step c = .next ⟨j :: q :: below, rest⟩) ∨
        (∃ lhs rhs p low j, t.action? q name = some (.reduce lhs rhs) ∧
          (q :: below).drop rhs.length = p :: low ∧ t.action? p lhs = some (.goto j) ∧
          t.step c = .next ⟨j :: p :: low, name :: rest⟩) ∨
        (t.action? q name = some .accept ∧ t.step c = .accept)) := by
  obtain ⟨stack, input⟩ := c
  cases stack with
  | nil => exact absurd rfl h
  | cons q below =>
    cases input with
    | nil => exact absurd rfl h
    | cons name rest =>
      refine ⟨q, below, name, rest, rfl, ?_⟩
      cases haction : t.action? q name with
      | none => exact absurd (by simp only [step, haction]) h
      | some action =>
        cases action with
        | shift j => exact Or.inl ⟨j, rfl, step_shift below rest haction⟩
        | accept => exact Or.inr (Or.inr ⟨rfl, step_accept haction⟩)
        | goto j => exact absurd (by simp only [step, haction]) h
        | reduce lhs rhs =>
          cases hdrop : (q :: below).drop rhs.length with
          | nil => exact absurd (by simp only [step, haction, hdrop]) h
          | cons p low =>
            cases hgoto : t.action? p lhs with
            | none => exact absurd (by simp only [step, haction, hdrop, hgoto]) h
            | some action =>
              cases action with
              | goto j =>
                refine Or.inr (Or.inl ⟨lhs, rhs, p, low, j, rfl, hdrop, hgoto, ?_⟩)
                simp only [step, haction, hdrop, hgoto]
              | shift j => exact absurd (by simp only [step, haction, hdrop, hgoto]) h
              | reduce l r => exact absurd (by simp only [step, haction, hdrop, hgoto]) h
              | accept => exact absurd (by simp only [step, haction, hdrop, hgoto]) h

end Step

end ParseTable

/-! ## Cells -/

/-- **No two different actions for one cell**: all that is entered for one name into the
row of a state is the same. -/
def Automaton.ConflictFree (a : Automaton) : Prop :=
  ∀ start, ParseTable.startOf a = .ok start → ∀ k s, a.get? k = some s →
    ∀ c ∈ ParseTable.cells start s, ∀ d ∈ ParseTable.cells start s, c.1 = d.1 → c.2 = d.2

theorem Automaton.conflictFree_iff {a : Automaton} {start : String}
    (hstart : ParseTable.startOf a = .ok start) :
    a.ConflictFree ↔ ∀ e ∈ a.entries, ∀ c ∈ ParseTable.cells start e.2,
      ∀ d ∈ ParseTable.cells start e.2, c.1 = d.1 → c.2 = d.2 := by
  constructor
  · intro h e he
    exact h start hstart e.1 e.2 ((a.get?_eq_some_iff e.1 e.2).2 he)
  · intro h start' hstart' k s hs
    obtain rfl := Except.ok.inj (hstart.symm.trans hstart')
    exact h (k, s) ((a.get?_eq_some_iff k s).1 hs)

instance (a : Automaton) : Decidable a.ConflictFree :=
  match hstart : ParseTable.startOf a with
  | .ok _ => decidable_of_iff _ (Automaton.conflictFree_iff hstart).symm
  | .error _ => isTrue fun start h => absurd (hstart.symm.trans h) (by simp)

namespace ParseTable

variable {g : Grammar} {first : FirstSets} {a : Automaton}

/-- The action of a transition over the symbol. -/
def moveTo (x : Symbol) (j : Nat) : Action :=
  match x with
  | .terminal _ => .shift j
  | .nonterminal _ => .goto j

theorem transitionCell_eq (t : Transition) :
    transitionCell t = (t.symbol.name, moveTo t.symbol t.target) := by
  obtain ⟨symbol, target⟩ := t
  cases symbol <;> rfl

/-- The table of an automaton whose first item is known. -/
def of (start : String) (a : Automaton) : ParseTable := ⟨a.mapValues (row start)⟩

/-- The automaton of a grammar has the start production's left side as its start symbol. -/
theorem startOf_built (hb : a.Built g first) : startOf a = .ok g.startProduction.lhs := by
  obtain ⟨s, hs, hhead⟩ := hb.start
  cases hrules : s.rules with
  | nil => simp [hrules] at hhead
  | cons i rest =>
    rw [hrules, List.head?_cons, Option.some.injEq] at hhead
    simp only [startOf, hs, hrules, hhead]
    rfl

theorem ofAutomaton_built (hb : a.Built g first) :
    ofAutomaton a = .ok (of g.startProduction.lhs a) := by
  simp only [ofAutomaton, startOf_built hb, bind, Except.bind]
  rfl

theorem action?_of (start : String) (k : Nat) (name : String) :
    (of start a).action? k name = (a.get? k).bind fun s => (row start s).get? name := by
  rw [action?, of, OrderedMap.get?_mapValues]
  cases a.get? k <;> rfl

/-- What stands in a cell was entered. -/
theorem mem_cells_of_action? {start : String} {k : Nat} {name : String} {action : Action}
    (h : (of start a).action? k name = some action) :
    ∃ s, a.get? k = some s ∧ (name, action) ∈ cells start s := by
  rw [action?_of, Option.bind_eq_some_iff] at h
  obtain ⟨s, hs, hrow⟩ := h
  exact ⟨s, hs, OrderedMap.mem_of_get?_ofList hrow⟩

/-- What is entered stands in its cell, if nothing else is entered there. -/
theorem action?_of_mem_cells {start : String} (hfree : a.ConflictFree)
    (hstart : startOf a = .ok start) {k : Nat} {s : State} (hs : a.get? k = some s) {name : String}
    {action : Action} (h : (name, action) ∈ cells start s) :
    (of start a).action? k name = some action := by
  rw [action?_of, hs, Option.bind_some]
  have hkey : name ∈ (row start s).keys := by
    rw [row, OrderedMap.keys_ofList, mem_appendDistinct]
    exact Or.inr (List.mem_map.2 ⟨(name, action), h, rfl⟩)
  obtain ⟨action', haction'⟩ := ((row start s).mem_keys_iff name).1 hkey
  have hmem : (name, action') ∈ cells start s := OrderedMap.mem_of_get?_ofList haction'
  have heq : action' = action := hfree start hstart k s hs _ hmem _ h rfl
  rw [haction', heq]

theorem mem_cells_iff {start : String} {s : State} {name : String} {action : Action} :
    (name, action) ∈ cells start s ↔
      (∃ t ∈ s.transitions, t.symbol.name = name ∧ moveTo t.symbol t.target = action) ∨
        ∃ i ∈ s.rules, i.atEnd = true ∧ i.look = name ∧
          action = if i.lhs = start ∧ i.look = endMarker then .accept
            else .reduce i.lhs i.rhsNames := by
  rw [cells, List.mem_append, List.mem_map, List.mem_filterMap]
  refine or_congr ?_ ?_
  · simp only [transitionCell_eq, Prod.mk.injEq]
  · refine exists_congr fun i => and_congr_right fun _ => ?_
    unfold itemCell?
    by_cases hend : i.atEnd = true
    · by_cases hacc : i.lhs = start ∧ i.look = endMarker
      · simp only [hend, hacc, and_self, if_true, Option.some.injEq, Prod.mk.injEq, true_and]
        exact and_congr_right fun _ => eq_comm
      · simp only [hend, hacc, if_true, if_false, Option.some.injEq, Prod.mk.injEq, true_and]
        exact and_congr_right fun _ => eq_comm
    · simp [hend]

/-- **What a cell says of the automaton**: there is a transition over the symbol, or an item
that is complete with the name as its look-ahead. -/
theorem action?_cases {start : String} {k : Nat} {name : String} {action : Action}
    (h : (of start a).action? k name = some action) :
    (∃ t, a.Has k t ∧ t.symbol.name = name ∧ moveTo t.symbol t.target = action) ∨
      ∃ i ∈ a.rulesOf k, i.atEnd = true ∧ i.look = name ∧
        action = if i.lhs = start ∧ i.look = endMarker then .accept
          else .reduce i.lhs i.rhsNames := by
  obtain ⟨s, hs, hmem⟩ := mem_cells_of_action? h
  rw [Automaton.mem_rulesOf_of_get? hs]
  refine (mem_cells_iff.1 hmem).imp_left ?_
  rintro ⟨t, ht, hname, haction⟩
  exact ⟨t, ⟨s, hs, ht⟩, hname, haction⟩

/-- A transition stands in its cell, if nothing else is entered there. -/
theorem action?_of_has {start : String} (hfree : a.ConflictFree) (hstart : startOf a = .ok start)
    {k : Nat} {t : Transition} (h : a.Has k t) :
    (of start a).action? k t.symbol.name = some (moveTo t.symbol t.target) := by
  obtain ⟨s, hs, ht⟩ := h
  exact action?_of_mem_cells hfree hstart hs (mem_cells_iff.2 (Or.inl ⟨t, ht, rfl, rfl⟩))

/-- A complete item stands in the cell of its look-ahead, if nothing else is entered there. -/
theorem action?_of_complete {start : String} (hfree : a.ConflictFree)
    (hstart : startOf a = .ok start) {k : Nat} {i : Item} (hi : i ∈ a.rulesOf k)
    (hend : i.atEnd = true) :
    (of start a).action? k i.look =
      some (if i.lhs = start ∧ i.look = endMarker then .accept else .reduce i.lhs i.rhsNames) := by
  obtain ⟨s, hs, hmem⟩ := Automaton.exists_get?_of_mem_rulesOf hi
  exact action?_of_mem_cells hfree hstart hs (mem_cells_iff.2 (Or.inr ⟨i, hmem, hend, rfl, rfl⟩))

end ParseTable

end LRTables
