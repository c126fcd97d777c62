import LRTables.Proofs.Automaton.Anchors
import LRTables.Proofs.Outcome
import LRTables.Proofs.Table.Cells
import LRTables.Proofs.Table.Soundness

/-!
# Where a table accepts

The accepting item is in one state, which the first transition of state zero leads to, so a
table has at most one accepting cell, and it can only be that of the end marker in this
state.  But other items of the state can be complete before the end marker as well, and then
the last of them has the cell.  There are none if no right side begins with the start symbol,
because then the state has been merged with no other, and none if no right side ends with it,
because all complete items of the state do.

* `ParseTable.entered_eq_accept_iff_seed` — only the accepting item enters an acceptance.
* `Automaton.OfKernels.accepting_of_fused` — where no right side begins with the start symbol.
* `ParseTable.accept_cell_of_parse` — the accepting cell of the table of a grammar.
* `ParseTable.exists_acceptCount_eq_zero` — a table without one.
-/

namespace LRTables

variable {g : Grammar} {first : FirstSets} {a b : Automaton} {f : Nat → Nat}

/-! ## The accepting item -/

/-- The accepting item is complete. -/
theorem Item.atEnd_seed_advance (g : Grammar) : g.seed.advance.atEnd = true := by
  simp [atEnd, Grammar.seed, Grammar.startProduction]

/-- The accepting item leads to nothing else. -/
theorem Item.eq_of_leads_seed_advance {i : Item}
    (h : Leads g.augmented first g.seed.advance i) : i = g.seed.advance := by
  rcases Relation.ReflTransGen.cases_head h with heq | ⟨j, hbrings, -⟩
  · exact heq.symm
  · obtain ⟨hnext, -, -, -, -⟩ := hbrings
    rw [(next?_eq_none_iff _).2 (atEnd_seed_advance g)] at hnext
    exact absurd hnext (by simp)

namespace Automaton

/-! ## Where no right side begins with the start symbol -/

namespace OfKernels

/-- The accepting state is reached from state zero only, over the start symbol. -/
theorem edge_to_accepting (h : a.OfKernels g first) (hg : g.WellFormed) {k u : Nat} {name : String}
    (hu : a.Edge k name u) (haccept : g.seed.advance ∈ a.rulesOf u) : k = 0 ∧ name = g.start := by
  obtain ⟨t, ⟨s, hs, ht⟩, rfl, rfl⟩ := hu
  obtain ⟨i, hi, hnext, w, hw, hhead⟩ := h.justified k s hs t ht
  have hseed : i = g.seed := by
    have hfirst := (h.head?_of_mem hg (Or.inr (Nat.succ_pos _)) haccept).1
    rw [mem_rulesOf_of_get? hw, hhead, Option.some.injEq] at hfirst
    exact Item.advance_injective hfirst
  rw [hseed] at hi hnext
  rw [← mem_rulesOf_of_get? hs] at hi
  have hsymbol : .nonterminal g.start = t.symbol := Option.some.inj hnext
  exact ⟨h.eq_of_mem hg (Or.inl rfl) hi h.seed_mem, by rw [← hsymbol]; rfl⟩

/-- The accepting state is the only one that is reached from state zero over the start symbol. -/
theorem accepting_of_edge (h : a.OfKernels g first) (hg : g.WellFormed)
    (hbegin : ∀ p ∈ g, p.rhs.head? ≠ some (.nonterminal g.start)) {v : Nat}
    (hv : a.Edge 0 g.start v) : g.seed.advance ∈ a.rulesOf v := by
  have hb : a.Built g first := h.built (Quotient.refl a) hg
  obtain ⟨t, ht, hname, rfl⟩ := hv
  obtain ⟨i, hi, hnext, hadvance⟩ := hb.justified 0 t ht
  obtain ⟨γ, hv⟩ := hb.viable 0 i hi
  have hstart : (Symbol.nonterminal g.start).WellNamed :=
    hg.wellNamed_augmented (List.mem_cons_self ..) (List.mem_singleton_self _)
  have hsymbol : t.symbol = .nonterminal g.start :=
    (hb.wellNamed_of_has hg ht).eq_of_name_eq hstart hname
  -- the dots in state zero are in front, so the item begins with the start symbol
  have hfront : i.rhs.head? = some (.nonterminal g.start) := by
    rw [← hsymbol, ← hnext, Item.next?, hb.start_dot i hi, List.head?_eq_getElem?]
  have hlhs : i.lhs = g.startProduction.lhs := by
    by_contra hne
    obtain ⟨p, hp, -, hrhs⟩ := hv.isOf_of_ne hne
    apply hbegin p hp
    rw [← hrhs, hfront]
  have hadvanced : i.advance = g.seed.advance := by
    rcases hv.of_start hg hlhs with ⟨-, rfl⟩ | ⟨-, rfl⟩
    · rfl
    · exact absurd hnext (by simp [Item.next?, Grammar.seed, Grammar.startProduction])
  rw [← hadvanced]
  exact hadvance

/-- **Where no right side begins with the start symbol**, the accepting state stands for itself
alone. -/
theorem accepting_of_fused (h : a.OfKernels g first) (hg : g.WellFormed)
    (hbegin : ∀ p ∈ g, p.rhs.head? ≠ some (.nonterminal g.start)) {k j : Nat}
    (hf : Fused a k j) : g.seed.advance ∈ a.rulesOf k ↔ g.seed.advance ∈ a.rulesOf j := by
  induction hf with
  | refl k => exact Iff.rfl
  | symm _ ih => exact ih.symm
  | trans _ _ ih ih' => exact ih.trans ih'
  | @step k j u v name hkj hu hv _ =>
    constructor
    · intro haccept
      obtain ⟨rfl, rfl⟩ := h.edge_to_accepting hg hu haccept
      obtain rfl := (h.fused_start hkj).1 rfl
      exact h.accepting_of_edge hg hbegin hv
    · intro haccept
      obtain ⟨rfl, rfl⟩ := h.edge_to_accepting hg hv haccept
      obtain rfl := (h.fused_start hkj).2 rfl
      exact h.accepting_of_edge hg hbegin hu

/-- And so it has no other item. -/
theorem eq_of_mem_accepting (h : a.OfKernels g first) (hg : g.WellFormed)
    (hq : Quotient a b f) (hbegin : ∀ p ∈ g, p.rhs.head? ≠ some (.nonterminal g.start)) {k : Nat}
    (haccept : g.seed.advance ∈ b.rulesOf k) {i : Item} (hi : i ∈ b.rulesOf k) :
    i = g.seed.advance := by
  obtain ⟨j, hj, rfl, hacceptj⟩ := hq.exists_source haccept
  obtain ⟨m, hm, hmj, him⟩ := hq.exists_source hi
  have hacceptm : g.seed.advance ∈ a.rulesOf m :=
    (h.accepting_of_fused hg hbegin (hq.fused_of_eq hm hj hmj)).2 hacceptj
  have hhead := (h.head?_of_mem hg (Or.inr (Nat.succ_pos _)) hacceptm).1
  obtain ⟨κ, hκ, -, hleads⟩ := h.mem_rulesOf_iff hm
  obtain rfl : g.seed.advance = κ := Option.some.inj (hhead.symm.trans hκ)
  exact Item.eq_of_leads_seed_advance ((hleads i).1 him)

end OfKernels

/-! ## Where no right side ends with the start symbol -/

/-- **Where no right side ends with the start symbol**, no other item is complete in a state
that is reached over it. -/
theorem Built.eq_of_completed (hb : b.Built g first) (hg : g.WellFormed)
    (hends : ∀ p ∈ g, p.rhs.getLast? ≠ some (.nonterminal g.start)) {k : Nat} {t : Transition}
    (ht : b.Has k t) (hsymbol : t.symbol = .nonterminal g.start) {i : Item}
    (hi : i ∈ b.rulesOf t.target) (hend : i.atEnd = true) : i = g.seed.advance := by
  obtain ⟨γ, hv⟩ := hb.viable t.target i hi
  obtain ⟨hpos, hdot⟩ := hv.dot_eq hg hend
  have hlast : i.rhs.getLast? = some (.nonterminal g.start) := by
    rw [List.getLast?_eq_getElem?, ← hdot, hb.getElem?_of_has hg ht hi hpos, hsymbol]
  have hlhs : i.lhs = g.startProduction.lhs := by
    by_contra hne
    obtain ⟨p, hp, -, hrhs⟩ := hv.isOf_of_ne hne
    apply hends p hp
    rw [← hrhs, hlast]
  exact hv.eq_seed_advance hg hlhs hpos

end Automaton

/-! ## The accepting cell -/

namespace ParseTable

/-- The accepting item enters an acceptance. -/
theorem entered_seed_advance (g : Grammar) :
    Automaton.entered g.startProduction.lhs g.seed.advance = .accept :=
  (Automaton.entered_eq_accept_iff _ _).2 ⟨rfl, rfl⟩

/-- Of the complete items no other one does. -/
theorem entered_eq_accept_iff_seed (hg : g.WellFormed) {γ : List Symbol} {i : Item}
    (h : Item.Viable g.augmented first g.seed γ i) (hend : i.atEnd = true) :
    Automaton.entered g.startProduction.lhs i = .accept ↔ i = g.seed.advance := by
  constructor
  · intro hentered
    have hlhs := ((Automaton.entered_eq_accept_iff _ _).1 hentered).1
    exact h.eq_seed_advance hg hlhs (h.dot_eq hg hend).1
  · rintro rfl
    exact entered_seed_advance g

section Cell

variable (hg : g.WellFormed) (ha : a.OfKernels g first) (hq : Automaton.Quotient a b f) {k : Nat}
  {u : State} (hu : b.get? k = some u) (haccept : g.seed.advance ∈ u.rules)

include hg ha hq hu haccept

/-- **An accepting cell is that of the end marker in the state of the accepting item.** -/
theorem eq_of_accept {k' : Nat} {name : String}
    (h : (of g.startProduction.lhs b).action? k' name = some .accept) :
    k' = k ∧ name = endMarker := by
  have hb : b.Built g first := ha.built hq hg
  obtain ⟨hname, hmem⟩ := mem_of_accept hg hb h
  rw [← Automaton.mem_rulesOf_of_get? hu] at haccept
  have hkernel : g.seed.advance = g.seed ∨ 0 < g.seed.advance.dot := Or.inr (Nat.succ_pos _)
  exact ⟨ha.eq_of_mem_quotient hg hq hkernel hmem haccept, hname⟩

/-- **What that cell holds**: the action of the last item that is complete before the end of
the input. -/
theorem exists_action?_endMarker :
    ∃ i, (u.completed endMarker).getLast? = some i ∧
      (of g.startProduction.lhs b).action? k endMarker =
        some (Automaton.entered g.startProduction.lhs i) ∧
      (Automaton.entered g.startProduction.lhs i = .accept ↔ i = g.seed.advance) := by
  have hne : u.completed endMarker ≠ [] :=
    List.ne_nil_of_mem (State.mem_completed_iff.2 ⟨haccept, Item.atEnd_seed_advance g, rfl⟩)
  obtain ⟨i, hi⟩ := Option.ne_none_iff_exists'.1 (fun h => hne (List.getLast?_eq_none_iff.1 h))
  obtain ⟨hmem, hend, -⟩ := State.mem_completed_iff.1 (List.mem_of_getLast? hi)
  rw [← Automaton.mem_rulesOf_of_get? hu] at hmem
  obtain ⟨γ, hv⟩ := (ha.built hq hg).viable k i hmem
  exact ⟨i, hi, action?_of_completed hu hi, entered_eq_accept_iff_seed hg hv hend⟩

/-- **How many accepting cells there are**: one if the accepting item is the last that is
complete before the end of the input, and none if it is not. -/
theorem acceptCount_of_completed : (of g.startProduction.lhs b).acceptCount =
    if (u.completed endMarker).getLast? = some g.seed.advance then 1 else 0 := by
  obtain ⟨i, hi, haction, hiff⟩ := exists_action?_endMarker hg ha hq hu haccept
  rw [hi]
  by_cases hlast : i = g.seed.advance
  · rw [if_pos (congrArg some hlast)]
    rw [hiff.2 hlast] at haction
    exact acceptCount_eq_one haction fun k' name h => eq_of_accept hg ha hq hu haccept h
  · rw [if_neg fun h => hlast (Option.some.inj h)]
    apply acceptCount_eq_zero
    intro k' name h
    obtain ⟨rfl, rfl⟩ := eq_of_accept hg ha hq hu haccept h
    rw [haction, Option.some.injEq] at h
    exact hlast (hiff.1 h)

/-- There is one if no other item is complete before the end of the input. -/
theorem acceptCount_of_forall (h : ∀ i ∈ u.rules, i.atEnd = true → i = g.seed.advance) :
    (of g.startProduction.lhs b).acceptCount = 1 := by
  obtain ⟨i, hi, -, -⟩ := exists_action?_endMarker hg ha hq hu haccept
  obtain ⟨hmem, hend, -⟩ := State.mem_completed_iff.1 (List.mem_of_getLast? hi)
  rw [acceptCount_of_completed hg ha hq hu haccept, if_pos (by rw [hi, h i hmem hend])]

/-- There is one if no cell gets two different actions. -/
theorem acceptCount_of_conflictFree (hfree : b.ConflictFree) :
    (of g.startProduction.lhs b).acceptCount = 1 := by
  have hstart := startOf_built (ha.built hq hg)
  have hmem : g.seed.advance ∈ b.rulesOf k := by
    rw [Automaton.mem_rulesOf_of_get? hu]
    exact haccept
  have haction : (of g.startProduction.lhs b).action? k endMarker = some .accept := by
    rw [← entered_seed_advance g]
    exact action?_of_complete hfree hstart hmem (Item.atEnd_seed_advance g)
  exact acceptCount_eq_one haction fun k' name h => eq_of_accept hg ha hq hu haccept h

end Cell

/-- **The accepting cell of the table of a grammar.**  The first transition of state zero is
over the start symbol, and the state that it leads to has the accepting item once.  Only the
cell of the end marker in this state can be accepting.  It holds the action of the last item
of the state that is complete before the end of the input, so the table has one accepting
cell if this is the accepting item, and none otherwise.  It has one if no cell gets two
different actions, if no right side begins with the start symbol, and if none ends with it. -/
theorem accept_cell_of_parse {text : String} (h : Grammar.parse text = .ok g) :
    ∃ a t s r u, Automaton.ofGrammar g = .ok a ∧ ofAutomaton a = .ok t ∧ a.get? 0 = some s ∧
      s.transitions.head? = some r ∧ r.symbol = .nonterminal g.start ∧
      a.get? r.target = some u ∧ u.rules.count g.seed.advance = 1 ∧
      (∀ k name, t.action? k name = some .accept → k = r.target ∧ name = endMarker) ∧
      t.action? r.target endMarker =
        (u.completed endMarker).getLast?.map (Automaton.entered g.startProduction.lhs) ∧
      t.acceptCount = (if (u.completed endMarker).getLast? = some g.seed.advance then 1 else 0) ∧
      (a.ConflictFree → t.acceptCount = 1) ∧
      ((∀ p ∈ g, p.rhs.head? ≠ some (.nonterminal g.start)) → t.acceptCount = 1) ∧
      ((∀ p ∈ g, p.rhs.getLast? ≠ some (.nonterminal g.start)) → t.acceptCount = 1) := by
  have hg := Grammar.wellFormed_of_parse h
  obtain ⟨first, e, b, f, -, he, hgrammar, hq, hanchored⟩ := Automaton.exists_ofGrammar_anchored hg
  have hb : b.Built g first := he.built hq hg
  obtain ⟨s, r, u, hs, -, -, hr, hsymbol, hu, haccept⟩ := hanchored.start
  have hhas : b.Has 0 r := ⟨s, hs, List.mem_of_mem_head? hr⟩
  obtain ⟨i, hi, haction, -⟩ := exists_action?_endMarker hg he hq hu haccept
  refine ⟨b, _, s, r, u, hgrammar, ofAutomaton_built hb, hs, hr, hsymbol, hu, ?_, ?_, ?_,
    acceptCount_of_completed hg he hq hu haccept,
    acceptCount_of_conflictFree hg he hq hu haccept, ?_, ?_⟩
  · rw [← Automaton.mem_rulesOf_of_get? hu] at haccept ⊢
    exact he.count_rulesOf hg hq (Or.inr (Nat.succ_pos _)) haccept
  · intro k name hcell
    exact eq_of_accept hg he hq hu haccept hcell
  · rw [haction, hi]
    rfl
  · intro hbegin
    apply acceptCount_of_forall hg he hq hu haccept
    intro i hi _
    rw [← Automaton.mem_rulesOf_of_get? hu] at hi haccept
    exact he.eq_of_mem_accepting hg hq hbegin haccept hi
  · intro hends
    apply acceptCount_of_forall hg he hq hu haccept
    intro i hi hend
    rw [← Automaton.mem_rulesOf_of_get? hu] at hi
    exact hb.eq_of_completed hg hends hhas hsymbol hi hend

/-- In the ambiguous grammar of sums a whole sum and the accepting item are complete in one
state.  The accepting item comes behind, and has the cell. -/
theorem accept_cell_of_parse_of_sums :
    ∃ g a t u, Grammar.parse "e ---> e P e | N" = .ok g ∧ Automaton.ofGrammar g = .ok a ∧
      ofAutomaton a = .ok t ∧ a.get? 8 = some u ∧ (u.completed endMarker).length = 2 ∧
      t.action? 8 endMarker = some .accept ∧ t.acceptCount = 1 ∧
      ∀ k name, t.action? k name = some .accept → k = 8 ∧ name = endMarker := by
  obtain ⟨g, hparse, hg⟩ := exists_ok_of_any (e := Grammar.parse "e ---> e P e | N")
    (P := fun g : Grammar => (Automaton.ofGrammar g).toOption.any fun a : Automaton =>
      (a.get? 0).any (fun s : State =>
        decide (s.transitions.head?.map Transition.target = some 8)) &&
      (a.get? 8).any fun u : State => decide ((u.completed endMarker).length = 2 ∧
        (u.completed endMarker).getLast? = some g.seed.advance)) (by decide +kernel)
  obtain ⟨a, t, s, r, u, ha, ht, hs, hr, -, hu, -, honly, hcell, hcount, -⟩ :=
    accept_cell_of_parse hparse
  rw [ha] at hg
  simp only [Except.toOption, Option.any_some, hs, hr, Option.map_some, Option.some.injEq,
    Bool.and_eq_true, decide_eq_true_eq] at hg
  obtain ⟨htarget, hstate⟩ := hg
  rw [htarget] at hu hcell
  rw [hu, Option.any_some, decide_eq_true_eq] at hstate
  obtain ⟨hlength, hlast⟩ := hstate
  rw [if_pos hlast] at hcount
  rw [hlast, Option.map_some, entered_seed_advance] at hcell
  refine ⟨g, a, t, u, hparse, ha, ht, hu, hlength, hcell, hcount, ?_⟩
  intro k name haction
  rw [← htarget]
  exact honly k name haction

/-- **A table can be without an accepting cell.**  Where the start symbol stands for itself,
that production is complete with the accepting item, and it comes last. -/
theorem exists_acceptCount_eq_zero :
    ∃ g a t, Grammar.parse "s ---> s | A" = .ok g ∧ Automaton.ofGrammar g = .ok a ∧
      ofAutomaton a = .ok t ∧ t.acceptCount = 0 ∧
      t.action? 1 endMarker = some (.reduce "s" ["s"]) := by
  obtain ⟨g, hparse, hg⟩ := exists_ok_of_any (e := Grammar.parse "s ---> s | A")
    (P := fun g : Grammar => (Automaton.ofGrammar g).toOption.any fun a : Automaton =>
      (ofAutomaton a).toOption.any fun t : ParseTable => decide (t.acceptCount = 0 ∧
        t.action? 1 endMarker = some (.reduce "s" ["s"]))) (by decide +kernel)
  obtain ⟨a, ha, hg⟩ := exists_ok_of_any hg
  obtain ⟨t, ht, hg⟩ := exists_ok_of_any hg
  obtain ⟨hcount, hcell⟩ := of_decide_eq_true hg
  exact ⟨g, a, t, hparse, ha, ht, hcount, hcell⟩

end ParseTable

end LRTables
