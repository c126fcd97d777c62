import LRTables.Proofs.Automaton.Determinism
import LRTables.Proofs.Automaton.Kernels
import LRTables.Proofs.Outcome
import LRTables.Proofs.Table.Soundness

/-!
# Tables in which every reduction retraces its way

Whether the reductions of a run retrace their way can be told from the cells alone: all
ways of the right length into the state of a reducing cell, from states that have somewhere
to go over the left side, must spell the right side.  A table with this property accepts
only what its grammar generates.  Tables need not have it, and then they may accept more:
a state can be entered over the same name from states that began different productions.
They have it where every item can step back over every transition into its state, and that
is so unless merging puts together states that differ in more than look-aheads.

* `ParseTable.waysInto` — the ways of a length into a state.
* `ParseTable.Retraces` — the finite check.
* `ParseTable.Retraces.retracing` — every run of such a table retraces its way.
* `Automaton.StepsBack`, `Automaton.Expanded.stepsBack` — items that step back, and where they do.
* `ParseTable.retraces_of_parse` — when the table of a grammar has the property.
* `ParseTable.generates_of_accepts` — what is accepted is generated.
* `ParseTable.exists_accepts_not_generates` — a table without the property.
-/

namespace LRTables

/-- Does the action go over a non-terminal? -/
def Action.isGoto : Action → Bool
  | .goto _ => true
  | _ => false

namespace ParseTable

variable {t : ParseTable}

/-! ## Ways into a state -/

/-- The symbol that a cell leads to the state over, if it does. -/
def entering? (q : Nat) (cell : String × Action) : Option Symbol :=
  match cell.2 with
  | .shift j => if j = q then some (.terminal cell.1) else none
  | .goto j => if j = q then some (.nonterminal cell.1) else none
  | _ => none

/-- The states that a state is entered from, with the symbols. -/
def entries (t : ParseTable) (q : Nat) : List (Nat × Symbol) :=
  t.rows.entries.flatMap fun e => (e.2.entries.filterMap (entering? q)).map fun x => (e.1, x)

/-- The ways of a length into a state: where each comes from, and its symbols, the last first. -/
def waysInto (t : ParseTable) : Nat → Nat → List (Nat × List Symbol)
  | 0, q => [(q, [])]
  | n + 1, q => (t.entries q).flatMap fun e =>
      (t.waysInto n e.1).map fun way => (way.1, e.2 :: way.2)

theorem action?_eq_some_iff {k : Nat} {name : String} {action : Action} :
    t.action? k name = some action ↔
      ∃ row, (k, row) ∈ t.rows.entries ∧ (name, action) ∈ row.entries := by
  simp only [action?, Option.bind_eq_some_iff, OrderedMap.get?_eq_some_iff]

theorem entering?_eq_some_iff {q : Nat} {cell : String × Action} {x : Symbol} :
    entering? q cell = some x ↔ cell = (x.name, moveTo x q) := by
  obtain ⟨name, action⟩ := cell
  cases action <;> cases x <;> simp [entering?, moveTo, and_comm]

/-- A state is entered from where cells lead to it. -/
theorem mem_entries_iff {p q : Nat} {x : Symbol} : (p, x) ∈ t.entries q ↔ t.Moves p x q := by
  constructor
  · intro h
    obtain ⟨⟨p', row⟩, hrow, hpair⟩ := List.mem_flatMap.1 h
    obtain ⟨x', hx, heq⟩ := List.mem_map.1 hpair
    obtain ⟨rfl, rfl⟩ := Prod.mk.inj heq
    obtain ⟨cell, hcell, hentering⟩ := List.mem_filterMap.1 hx
    rw [entering?_eq_some_iff.1 hentering] at hcell
    exact action?_eq_some_iff.2 ⟨row, hrow, hcell⟩
  · intro h
    obtain ⟨row, hrow, hcell⟩ := action?_eq_some_iff.1 h
    refine List.mem_flatMap.2 ⟨(p, row), hrow, List.mem_map.2 ⟨x, ?_, rfl⟩⟩
    exact List.mem_filterMap.2 ⟨_, hcell, entering?_eq_some_iff.2 rfl⟩

/-- A stack is one of the ways into its last state. -/
theorem mem_waysInto_of_spells {q p : Nat} {below : List Nat} {γ : List Symbol}
    (h : t.Spells (q :: below) γ) (hlast : (q :: below).getLast? = some p) :
    (p, γ) ∈ t.waysInto γ.length q := by
  induction below generalizing q γ with
  | nil =>
    cases h
    obtain rfl : q = p := by simpa using hlast
    exact List.mem_singleton.2 rfl
  | cons r below ih =>
    cases h with
    | @enter _ _ _ x δ hmove hrest =>
      rw [List.getLast?_cons_cons] at hlast
      refine List.mem_flatMap.2 ⟨(r, x), mem_entries_iff.2 hmove, ?_⟩
      exact List.mem_map.2 ⟨(p, δ), ih hrest hlast, rfl⟩

/-! ## The check -/

/-- Does the action, in a state, retrace every way that leads into it? -/
def Retraced (t : ParseTable) (q : Nat) : Action → Prop
  | .reduce lhs rhs => ∀ way ∈ t.waysInto rhs.length q,
      (t.action? way.1 lhs).any Action.isGoto = true → way.2.map Symbol.name = rhs.reverse
  | .accept => ∀ e ∈ t.entries q, e.1 = 0
  | _ => True

instance (t : ParseTable) (q : Nat) (action : Action) : Decidable (t.Retraced q action) :=
  match action with
  | .reduce lhs rhs => inferInstanceAs (Decidable (∀ way ∈ t.waysInto rhs.length q,
      (t.action? way.1 lhs).any Action.isGoto = true → way.2.map Symbol.name = rhs.reverse))
  | .accept => inferInstanceAs (Decidable (∀ e ∈ t.entries q, e.1 = 0))
  | .shift _ => isTrue trivial
  | .goto _ => isTrue trivial

/-- **Every reduction that the cells allow retraces its way**, and acceptance is one state
away from state zero. -/
def Retraces (t : ParseTable) : Prop :=
  ∀ e ∈ t.rows.entries, ∀ cell ∈ e.2.entries, t.Retraced e.1 cell.2

instance (t : ParseTable) : Decidable t.Retraces :=
  inferInstanceAs (Decidable (∀ e ∈ t.rows.entries, ∀ cell ∈ e.2.entries, t.Retraced e.1 cell.2))

theorem Retraces.retraced (h : t.Retraces) {k : Nat} {name : String} {action : Action}
    (haction : t.action? k name = some action) : t.Retraced k action := by
  obtain ⟨row, hrow, hcell⟩ := action?_eq_some_iff.1 haction
  exact h (k, row) hrow (name, action) hcell

/-! ## Runs -/

section Runs

variable {g : Grammar} {first : FirstSets} {a : Automaton} (hg : g.WellFormed)
  (hb : a.Built g first)

include hg hb

/-- Only the state that is entered from state zero accepts. -/
theorem Retraces.length_of_accept (h : (of g.startProduction.lhs a).Retraces) {q : Nat}
    {below : List Nat} {γ : List Symbol} {name : String}
    (hspells : (of g.startProduction.lhs a).Spells (q :: below) γ)
    (hlast : (q :: below).getLast? = some 0)
    (haccept : (of g.startProduction.lhs a).action? q name = some .accept) : below.length = 1 := by
  cases hspells with
  | single =>
    obtain rfl : q = 0 := by simpa using hlast
    obtain ⟨-, hitem⟩ := mem_of_accept hg hb haccept
    exact absurd (hb.start_dot _ hitem) (by simp)
  | @enter _ p low x γ hmove hrest =>
    obtain rfl : p = 0 := h.retraced haccept (p, x) (mem_entries_iff.2 hmove)
    cases hrest with
    | single => rfl
    | @enter _ r _ y δ hmove' _ =>
      exact absurd (has_of_moves hmove').edge (hb.not_edge_start r y.name)

/-- In such a table a step that does not fail retraces its way. -/
theorem Retraces.retracing (h : (of g.startProduction.lhs a).Retraces) {w : List String}
    {c : Configuration} (hinv : Inv g (of g.startProduction.lhs a) w c)
    (hstep : (of g.startProduction.lhs a).step c ≠ .fail) :
    (of g.startProduction.lhs a).Retracing c := by
  rintro q below name rest rfl
  obtain ⟨γ, read, hspells, hlast, -, -⟩ := hinv
  refine ⟨fun lhs rhs hreduce => ?_, fun haccept => h.length_of_accept hg hb hspells hlast haccept⟩
  obtain ⟨q', below', name', rest', heq, hcases⟩ := step_cases hstep
  obtain ⟨hstack, hinput⟩ := Configuration.mk.inj heq
  obtain ⟨rfl, rfl⟩ := List.cons.inj hstack
  obtain ⟨rfl, rfl⟩ := List.cons.inj hinput
  rcases hcases with ⟨j, hshift, -⟩ | ⟨lhs', rhs', p, low, j, hreduce', hdrop, hgoto, -⟩ |
    ⟨haccept, -⟩
  · rw [hshift] at hreduce
    exact absurd hreduce (by simp)
  · obtain ⟨rfl, rfl⟩ := Action.reduce.inj (Option.some.inj (hreduce'.symm.trans hreduce))
    refine ⟨γ.take rhs'.length, hspells.take _, ?_⟩
    -- the states that are taken away, and the one below them, are a way into the last state
    have hget : (q :: below)[rhs'.length]? = some p := by
      rw [← List.head?_drop, hdrop]
      rfl
    have hlt : rhs'.length < (q :: below).length := (List.getElem?_eq_some_iff.1 hget).1
    have hlen : (γ.take rhs'.length).length = rhs'.length := by
      rw [List.length_take, Nat.min_eq_left]
      rw [hspells.length] at hlt
      omega
    have hway := mem_waysInto_of_spells (hspells.take rhs'.length) (p := p) (by
      rw [← List.take_succ_cons, List.take_add_one, hget, Option.toList_some,
        List.getLast?_concat])
    rw [hlen] at hway
    exact h.retraced hreduce' (p, _) hway (by simp [hgoto, Action.isGoto])
  · rw [haccept] at hreduce
    exact absurd hreduce (by simp)

/-- Every run of such a table retraces its way. -/
theorem Retraces.acceptsThrough (he : g.EpsilonFree)
    (h : (of g.startProduction.lhs a).Retraces) {w : List String} {c : Configuration}
    (hinv : Inv g (of g.startProduction.lhs a) w c)
    (hrun : (of g.startProduction.lhs a).Accepts c) :
    (of g.startProduction.lhs a).AcceptsThrough (of g.startProduction.lhs a).Retracing c := by
  induction hrun with
  | accept _ hstep =>
    exact AcceptsThrough.accept (h.retracing hg hb hinv (by rw [hstep]; simp)) hstep
  | next _ hstep _ ih =>
    have hretracing := h.retracing hg hb hinv (by rw [hstep]; simp)
    exact AcceptsThrough.next hretracing hstep (ih (hinv.next hg hb he hretracing hstep))

end Runs

end ParseTable

/-! ## Automata in which items step back -/

/-- Are the items the same but for their look-aheads? -/
def Item.SameCore (i j : Item) : Prop := i.lhs = j.lhs ∧ i.rhs = j.rhs ∧ i.dot = j.dot

namespace Automaton

variable {g : Grammar} {first : FirstSets} {e a : Automaton} {f : Nat → Nat}

/-- **Does every item step back** over every transition?  Where the transition leads, an item with
its dot behind a symbol is, but for the look-ahead, an item advanced that is there where the
transition comes from. -/
def StepsBack (a : Automaton) : Prop :=
  ∀ k t, a.Has k t → ∀ i ∈ a.rulesOf t.target, 0 < i.dot →
    ∃ j ∈ a.rulesOf k, j.next? = some t.symbol ∧ i.SameCore j.advance

/-- Do states that must stand for each other differ only in look-aheads, as far as their dots are
behind symbols? -/
def FusesCores (e : Automaton) : Prop :=
  ∀ k j, Fused e k j → ∀ i ∈ e.rulesOf k, ∀ i' ∈ e.rulesOf j, 0 < i.dot → 0 < i'.dot →
    i.SameCore i'

/-- Where there is nothing to merge, no states differ that stand for each other. -/
theorem Expanded.fusesCores (h : e.Expanded g first) (hdet : e.Deterministic) : e.FusesCores := by
  intro k j hfused i hi i' hi' hpos hpos'
  obtain rfl := hdet.eq_of_fused hfused
  obtain rfl := Option.some.inj ((h.head_of_dot_pos hi hpos).symm.trans (h.head_of_dot_pos hi' hpos'))
  exact ⟨rfl, rfl, rfl⟩

/-- **Merging states that differ only in look-aheads lets items step back**: in the expansion a
transition leads to a state with one such item only, which is an item of the state that it comes
from, advanced. -/
theorem Expanded.stepsBack (h : e.Expanded g first) (hq : Quotient e a f) (hcores : e.FusesCores) :
    a.StepsBack := by
  intro k t ht i hi hpos
  obtain ⟨m, t', ⟨s, hs, hts⟩, rfl, hsymbol, htarget⟩ := hq.symbols k t ht
  obtain ⟨j, hj, hnext, u, hu, hhead⟩ := h.justified m s hs t' hts
  obtain ⟨n, hn, hnt, hin⟩ := hq.exists_source hi
  have hadvance : j.advance ∈ e.rulesOf t'.target := mem_rulesOf_of_head? hu hhead
  have hfused : Fused e n t'.target :=
    hq.fused_of_eq hn (mem_keys_of_mem_rulesOf hadvance) (hnt.trans htarget.symm)
  rw [← mem_rulesOf_of_get? hs] at hj
  exact ⟨j, hq.mem_image hj, by rw [hnext, hsymbol],
    hcores n t'.target hfused i hin _ hadvance hpos (Nat.succ_pos _)⟩

/-- **Where items step back, the ways of the length of their dots spell what is before their
dots.** -/
theorem StepsBack.eq_of_mem_waysInto (h : a.StepsBack) {start : String} {n q p : Nat}
    {γ : List Symbol} (hway : (p, γ) ∈ (ParseTable.of start a).waysInto n q) {i : Item}
    (hi : i ∈ a.rulesOf q) (hdot : i.dot = n) : γ = (i.rhs.take n).reverse := by
  induction n generalizing q γ i with
  | zero =>
    obtain ⟨-, rfl⟩ := Prod.mk.inj (List.mem_singleton.1 hway)
    rfl
  | succ n ih =>
    obtain ⟨⟨r, x⟩, hentry, hrest⟩ := List.mem_flatMap.1 hway
    obtain ⟨⟨p', δ⟩, hδ, heq⟩ := List.mem_map.1 hrest
    obtain ⟨rfl, rfl⟩ := Prod.mk.inj heq
    have hhas := ParseTable.has_of_moves (ParseTable.mem_entries_iff.1 hentry)
    obtain ⟨j, hj, hnext, -, hrhs, hdots⟩ := h r ⟨x, q⟩ hhas i hi (by omega)
    have hjdot : j.dot = n := by
      rw [hdot, Item.advance_dot] at hdots
      omega
    have hx : j.rhs[n]? = some x := by rw [← hjdot]; exact hnext
    rw [ih hδ hj hjdot, hrhs, Item.advance_rhs, List.take_add_one, hx]
    simp

end Automaton

namespace ParseTable

section StepsBack

variable {g : Grammar} {first : FirstSets} {e a : Automaton} {f : Nat → Nat}

/-- **The table retraces if items step back.** -/
theorem retraces_of_stepsBack (hg : g.WellFormed) (hkernels : e.OfKernels g first)
    (hq : Automaton.Quotient e a f) (h : a.StepsBack) :
    (of g.startProduction.lhs a).Retraces := by
  have hb : a.Built g first := hkernels.built hq hg
  rintro ⟨q, row⟩ hrow ⟨name, action⟩ hcell
  have haction : (of g.startProduction.lhs a).action? q name = some action :=
    action?_eq_some_iff.2 ⟨row, hrow, hcell⟩
  cases action with
  | shift j => trivial
  | goto j => trivial
  | reduce lhs rhs =>
    rintro ⟨p, γ⟩ hway -
    obtain ⟨p', -, rfl, rfl, hitem⟩ := exists_of_reduce hg hb haction
    rw [Production.rhsNames, List.length_map] at hway
    have hspells := h.eq_of_mem_waysInto hway hitem rfl
    rw [hspells, Item.ofProduction_rhs, List.take_length, Production.rhsNames, List.map_reverse]
  | accept =>
    rintro ⟨p, x⟩ hentry
    obtain ⟨-, hitem⟩ := mem_of_accept hg hb haction
    have hhas := has_of_moves (mem_entries_iff.1 hentry)
    obtain ⟨j, hj, -, hlhs, -, hdots⟩ := h p ⟨x, q⟩ hhas _ hitem (Nat.succ_pos _)
    -- the item steps back to the start item, which is in state zero only
    obtain ⟨γ, hv⟩ := hb.viable p j hj
    rcases hv.of_start hg hlhs.symm with ⟨-, rfl⟩ | ⟨-, rfl⟩
    · exact hkernels.eq_of_mem_quotient hg hq (Or.inl rfl) hj hb.seed_mem
    · exact absurd hdots (by simp)

end StepsBack

/-! ## The table of a grammar -/

/-- **When the table of a grammar retraces**: if in its automaton every item steps back, and so if
merging puts together only states that differ in look-aheads, and so if the expansion is
deterministic and there is nothing to merge. -/
theorem retraces_of_parse {text : String} {g : Grammar} (h : Grammar.parse text = .ok g) :
    ∃ e a t, Automaton.expand g = .ok e ∧ Automaton.ofGrammar g = .ok a ∧ ofAutomaton a = .ok t ∧
      (a.StepsBack → t.Retraces) ∧ (e.FusesCores → a.StepsBack) ∧
      (e.Deterministic → e.FusesCores) := by
  have hg := Grammar.wellFormed_of_parse h
  obtain ⟨first, e, a, f, -, hexpand, hkernels, hgrammar, hq⟩ :=
    Automaton.exists_ofGrammar_ofKernels hg
  exact ⟨e, a, _, hexpand, hgrammar, ofAutomaton_built (hkernels.built hq hg),
    retraces_of_stepsBack hg hkernels hq, hkernels.stepsBack hq, hkernels.fusesCores⟩

/-- **What the table of a grammar accepts is generated**, if no alternative is the empty
string and the reductions of the run retrace their way, as they do in every run where those
that the cells allow do. -/
theorem generates_of_accepts {text : String} {g : Grammar} (h : Grammar.parse text = .ok g)
    (he : g.EpsilonFree) :
    ∃ a t, Automaton.ofGrammar g = .ok a ∧ ofAutomaton a = .ok t ∧
      (∀ w, endMarker ∉ w → t.AcceptsThrough t.Retracing (.initial w) → g.Generates w) ∧
      (t.Retraces → ∀ w, endMarker ∉ w → t.Accepts (.initial w) → g.Generates w) := by
  have hg := Grammar.wellFormed_of_parse h
  obtain ⟨first, b, -, hbuild, -, hb⟩ := Automaton.exists_build hg
  refine ⟨b.automaton, _, ?_, ofAutomaton_built hb, fun w hw hrun => ?_, fun hret w hw hrun => ?_⟩
  · rw [Automaton.ofGrammar, hbuild]
    rfl
  · exact generates_of_retracing hg hb he hw (inv_initial ..) hrun
  · exact generates_of_retracing hg hb he hw (inv_initial ..)
      (hret.acceptsThrough hg hb he (inv_initial ..) hrun)

/-- In `s ---> c c` states are merged, and still every reduction retraces its way. -/
theorem generates_of_accepts_of_merged_states :
    ∃ g e a t, Grammar.parse "s ---> c c\nc ---> C c | D" = .ok g ∧
      Automaton.expand g = .ok e ∧ Automaton.ofGrammar g = .ok a ∧ a.size < e.size ∧
      ofAutomaton a = .ok t ∧ t.Retraces ∧ t.Accepts (.initial ["C", "D", "D"]) ∧
      g.Generates ["C", "D", "D"] := by
  obtain ⟨g, hparse, hg⟩ := exists_ok_of_any (e := Grammar.parse "s ---> c c\nc ---> C c | D")
    (P := fun g : Grammar => g.EpsilonFree ∧ (Automaton.expand g).toOption.any
      fun e : Automaton => (Automaton.ofGrammar g).toOption.any fun a : Automaton =>
        decide (a.size < e.size) && (ofAutomaton a).toOption.any fun t : ParseTable =>
          decide t.Retraces && t.acceptsWithin 10 (.initial ["C", "D", "D"])) (by decide +kernel)
  obtain ⟨he, hg⟩ := of_decide_eq_true hg
  obtain ⟨e, hexpand, hg⟩ := exists_ok_of_any hg
  obtain ⟨a, t, ha, ht, -, hgenerates⟩ := generates_of_accepts hparse he
  rw [ha] at hg
  simp only [Except.toOption, Option.any_some, ht, Bool.and_eq_true, decide_eq_true_eq] at hg
  obtain ⟨hsize, hretraces, hwithin⟩ := hg
  have haccepts := accepts_of_within hwithin
  exact ⟨g, e, a, t, hparse, hexpand, ha, hsize, ht, hretraces, haccepts,
    hgenerates hretraces _ (by decide) haccepts⟩

/-- **The table of a grammar can accept what is not generated.**  Behind `D` and behind `E`
the grammar goes on with an `X` to the same state, in which behind `D` more is expected. -/
theorem exists_accepts_not_generates :
    ∃ g a t, Grammar.parse "s ---> b | D a C | E a C\na ---> X G\nb ---> D X F" = .ok g ∧
      g.EpsilonFree ∧ Automaton.ofGrammar g = .ok a ∧ ofAutomaton a = .ok t ∧
      t.Accepts (.initial ["E", "X", "F"]) ∧ ¬ g.Generates ["E", "X", "F"] := by
  obtain ⟨g, hparse, hg⟩ := exists_ok_of_any
    (e := Grammar.parse "s ---> b | D a C | E a C\na ---> X G\nb ---> D X F")
    (P := fun g : Grammar => g.EpsilonFree ∧ g.formsWithin 4 ⊆ g.formsWithin 3 ∧
      ["E", "X", "F"].map Symbol.terminal ∉ g.formsWithin 3 ∧
      (Automaton.ofGrammar g).toOption.any fun a : Automaton => (ofAutomaton a).toOption.any
        fun t : ParseTable => t.acceptsWithin 8 (.initial ["E", "X", "F"])) (by decide +kernel)
  obtain ⟨he, hclosed, hnot, hg⟩ := of_decide_eq_true hg
  obtain ⟨a, ha, hg⟩ := exists_ok_of_any hg
  obtain ⟨t, ht, hg⟩ := exists_ok_of_any hg
  refine ⟨g, a, t, hparse, he, ha, ht, accepts_of_within hg, fun hgenerates => hnot ?_⟩
  exact Grammar.mem_formsWithin_of_derives hclosed hgenerates

end ParseTable

end LRTables
