import LRTables.Proofs.Automaton.Kernels

/-!
# The order of discovery

An expansion tells its states apart by their first items alone.  Nothing is lost by that: a
state is the closure of its first item, so two states with the same first item would be the
same state, and there are no two.  What a state leads to is recorded while states are still
being found, and stays right, because a state keeps its number.

* `Expansion.LinksTo` — the transition of an item, to the one state of the advanced item.
* `Expansion.Indexed` — states told apart by their first items, each found from an earlier one.
* `Expansion.linksTo_indexOf` — the transition of an item leads where it should.
* `Expansion.exists_parent` — every state but the first is found from an earlier one.
* `Automaton.expandedStates_indexed` — the states of every grammar are such.
-/

namespace LRTables

variable {g : Grammar} {first : FirstSets} {all : List (List Item)}

namespace Expansion

/-- **The transition of an item**: over the symbol behind its dot, to the state whose first item
is the advanced one, and there is no other such state. -/
def LinksTo (states : List State) (i : Item) (t : Transition) : Prop :=
  i.next? = some t.symbol ∧
    ∀ k, (∃ s, states[k]? = some s ∧ s.rules.head? = some i.advance) ↔ k = t.target

/-- **States that are told apart by their first items**, in the order of discovery. -/
structure Indexed (g : Grammar) (first : FirstSets) (states : List State) : Prop where
  /-- The first state is that of the start item. -/
  start : ∃ s, states[0]? = some s ∧ s.rules.head? = some g.seed
  /-- Every state has a first item and is its closure. -/
  closure : ∀ (k : Nat) (s : State), states[k]? = some s →
    ∃ κ, s.rules.head? = some κ ∧ Item.closure g.augmented first κ = .ok s.rules
  /-- The first items of different states are not the same. -/
  distinct : ∀ (j k : Nat) (s t : State) (κ κ' : Item), states[j]? = some s →
    states[k]? = some t → s.rules.head? = some κ → t.rules.head? = some κ' →
    κ.same κ' = true → j = k
  /-- The transitions of a state are those of its items that can advance, one for each, in the
  order of the items. -/
  linked : ∀ (k : Nat) (s : State), states[k]? = some s →
    List.Forall₂ (LinksTo states) (s.rules.filter fun i => !i.atEnd) s.transitions
  /-- An earlier state leads to every state but the first. -/
  found : ∀ (k : Nat) (s : State), states[k]? = some s → 0 < k →
    ∃ j < k, ∃ r : State, states[j]? = some r ∧ ∃ t ∈ r.transitions, t.target = k

/-! ## Where transitions lead -/

theorem getElem?_map_state_iff {k : Nat} {s : State} :
    (all.map (state all))[k]? = some s ↔ ∃ items, all[k]? = some items ∧ state all items = s := by
  rw [List.getElem?_map, Option.map_eq_some_iff]

/-- The state of a closure has the items of the closure. -/
@[simp] theorem rules_state (items : List Item) : (state all items).rules = items := rfl

/-- **The transition of an item leads to the state of the advanced item.** -/
theorem linksTo_indexOf (hg : g.WellFormed) (hall : closures g.augmented first g.seed = .ok all)
    (h : Complete g first all) {items : List Item} (hitems : items ∈ all) {i : Item}
    (hi : i ∈ items) {x : Symbol} (hx : i.next? = some x) :
    LinksTo (all.map (state all)) i ⟨x, indexOf all i.advance⟩ := by
  obtain ⟨rest, hrest⟩ := getElem?_indexOf_advance hg h hitems hi hx
  refine ⟨hx, fun k => ⟨?_, ?_⟩⟩
  · rintro ⟨s, hs, hhead⟩
    obtain ⟨items', hitems', rfl⟩ := getElem?_map_state_iff.1 hs
    exact eq_of_head?_eq hall hitems' hrest hhead
  · rintro rfl
    exact ⟨_, getElem?_map_state_iff.2 ⟨_, hrest, rfl⟩, rfl⟩

/-- What a list keeps and what is made of it go along each other, if every element is kept exactly
when something is made of it. -/
theorem forall₂_filter_filterMap {α β : Type} {R : α → β → Prop} {p : α → Bool}
    {f : α → Option β} {l : List α}
    (h : ∀ a ∈ l, (p a = false ∧ f a = none) ∨ p a = true ∧ ∃ b, f a = some b ∧ R a b) :
    List.Forall₂ R (l.filter p) (l.filterMap f) := by
  induction l with
  | nil => exact List.Forall₂.nil
  | cons a l ih =>
    have hrest := ih fun b hb => h b (List.mem_cons_of_mem a hb)
    rcases h a (List.mem_cons_self ..) with ⟨hp, hf⟩ | ⟨hp, b, hf, hR⟩
    · simpa [hp, hf] using hrest
    · simpa [hp, hf] using List.Forall₂.cons hR hrest

/-- The transitions of a state go along its items. -/
theorem forall₂_linksTo (hg : g.WellFormed)
    (hall : closures g.augmented first g.seed = .ok all) (h : Complete g first all)
    {items : List Item} (hitems : items ∈ all) :
    List.Forall₂ (LinksTo (all.map (state all))) (items.filter fun i => !i.atEnd)
      (state all items).transitions := by
  refine forall₂_filter_filterMap fun i hi => ?_
  cases hx : i.next? with
  | none =>
    have hend : i.atEnd = true := i.next?_eq_none_iff.1 hx
    exact Or.inl ⟨by simp [hend], rfl⟩
  | some x =>
    exact Or.inr ⟨(Item.not_atEnd_iff i).2 ⟨x, hx⟩, _, rfl, linksTo_indexOf hg hall h hitems hi hx⟩

/-! ## Where states are found -/

/-- What a step finds begins with an advanced item of the closure that was taken. -/
theorem exists_advance_of_step {known known' items : List Item} {found : List (List Item)}
    (h : step g first known items = .ok (known', found)) {c : List Item} (hc : c ∈ found) :
    ∃ i ∈ items, (∃ x, i.next? = some x) ∧ c.head? = some i.advance := by
  obtain ⟨κ, hκ, hclosure⟩ := exists_of_mem_mapM (mapM_of_step h).2 c hc
  obtain ⟨i, hi, hx, rfl⟩ := mem_successors_iff.1 (mem_of_mem_newKernels hκ)
  exact ⟨i, hi, hx, Item.head?_of_closure hclosure⟩

/-- **Every state but the first is found from an earlier one**, which leads to it. -/
theorem exists_parent (hg : g.WellFormed) (hall : closures g.augmented first g.seed = .ok all)
    (h : Complete g first all) {k : Nat} {items : List Item} (hk : all[k]? = some items)
    (hpos : 0 < k) :
    ∃ j < k, ∃ items', all[j]? = some items' ∧ ∃ t ∈ (state all items').transitions,
      t.target = k := by
  obtain ⟨start, bound, -, hrun⟩ := exists_run_of_closures hall
  rcases Worklist.exists_parent_of_run hrun hk with hqueue | ⟨j, items', s₁, s₂, found, hj, hitems',
    hstep, hfound⟩
  · -- only the first one was waiting
    have hlt : k < 1 := (List.getElem?_eq_some_iff.1 hqueue).1
    omega
  · obtain ⟨i, hi, ⟨x, hx⟩, hhead⟩ := exists_advance_of_step hstep hfound
    obtain ⟨rest, hrest⟩ := getElem?_indexOf_advance hg h (List.mem_of_getElem? hitems') hi hx
    refine ⟨j, hj, items', hitems', ⟨x, indexOf all i.advance⟩, ?_, ?_⟩
    · exact List.mem_filterMap.2 ⟨i, hi, by simp [hx]⟩
    · exact eq_of_head?_eq hall hrest hk hhead.symm

/-- The states of the closures of a grammar are told apart by their first items. -/
theorem indexed (hg : g.WellFormed) (hall : closures g.augmented first g.seed = .ok all)
    (h : Complete g first all) : Indexed g first (all.map (state all)) := by
  constructor
  · obtain ⟨rest, hseed⟩ := h.seed
    exact ⟨_, getElem?_map_state_iff.2 ⟨_, hseed, rfl⟩, rfl⟩
  · intro k s hs
    obtain ⟨items, hitems, rfl⟩ := getElem?_map_state_iff.1 hs
    obtain ⟨κ, hκ⟩ := exists_closure_of_mem hall items (List.mem_of_getElem? hitems)
    exact ⟨κ, Item.head?_of_closure hκ, hκ⟩
  · intro j k s t κ κ' hs ht hκ hκ' hsame
    obtain ⟨items, hitems, rfl⟩ := getElem?_map_state_iff.1 hs
    obtain ⟨items', hitems', rfl⟩ := getElem?_map_state_iff.1 ht
    obtain ⟨γ, hv⟩ := (h.closed items (List.mem_of_getElem? hitems)).viable
      (List.mem_of_mem_head? hκ)
    obtain ⟨γ', hv'⟩ := (h.closed items' (List.mem_of_getElem? hitems')).viable
      (List.mem_of_mem_head? hκ')
    have heq : κ = κ' := Item.eq_of_same hg hv.isOf hv'.isOf hsame
    rw [rules_state] at hκ hκ'
    exact eq_of_head?_eq hall hitems hitems' (by rw [hκ, hκ', heq])
  · intro k s hs
    obtain ⟨items, hitems, rfl⟩ := getElem?_map_state_iff.1 hs
    exact forall₂_linksTo hg hall h (List.mem_of_getElem? hitems)
  · intro k s hs hpos
    obtain ⟨items, hitems, rfl⟩ := getElem?_map_state_iff.1 hs
    obtain ⟨j, hj, items', hitems', ht⟩ := exists_parent hg hall h hitems hpos
    exact ⟨j, hj, _, getElem?_map_state_iff.2 ⟨_, hitems', rfl⟩, ht⟩

end Expansion

namespace Automaton

/-- **Telling states apart by their first items loses nothing.**  For every text that is a
grammar the expansion goes through.  No two of its states have the same first item, every state
is the closure of its first item, its transitions are those of its items that can advance, in
their order, each to the one state of the advanced item, and an earlier state leads to every
state but the first. -/
theorem expandedStates_indexed {text : String} (h : Grammar.parse text = .ok g) :
    ∃ first states, FirstSets.compute g = .ok first ∧ g.augment = .ok g.augmented ∧
      g.augmented.startItem = .ok g.seed ∧ expandedStates g = .ok states ∧
      Expansion.Indexed g first states := by
  have hg := Grammar.wellFormed_of_parse h
  obtain ⟨first, hcompute, hf⟩ := FirstSets.exists_exact hg
  obtain ⟨all, hall, hcomplete⟩ := Expansion.exists_closures hg hf
  exact ⟨first, _, hcompute, Grammar.augment_of_ne_nil hg.ne_nil, Grammar.startItem_augmented g,
    expandedStates_of_closures hg hcompute hall, Expansion.indexed hg hall hcomplete⟩

/-- In `s ---> c c` the two look-aheads of the first `c` make two states over `C`, which differ in
nothing else, and state three leads over `C` back to itself. -/
theorem expandedStates_indexed_of_two_looks :
    ∃ g first states s, Grammar.parse "s ---> c c\nc ---> C c | D" = .ok g ∧
      expandedStates g = .ok states ∧ Expansion.Indexed g first states ∧ states.length = 13 ∧
      states[3]? = some s ∧ s.rules.head? = some ⟨"c", [.terminal "C", .nonterminal "c"], 1, "C"⟩ ∧
      Expansion.LinksTo states ⟨"c", [.terminal "C", .nonterminal "c"], 0, "C"⟩
        ⟨.terminal "C", 3⟩ := by
  obtain ⟨g, hparse, hg⟩ := exists_ok_of_any (e := Grammar.parse "s ---> c c\nc ---> C c | D")
    (P := fun g : Grammar => (expandedStates g).toOption.any fun states : List State =>
      decide (states.length = 13) && (states[3]?).any fun s : State =>
        decide (s.rules.head? = some ⟨"c", [.terminal "C", .nonterminal "c"], 1, "C"⟩))
    (by decide +kernel)
  obtain ⟨first, states, -, -, -, hstates, hindexed⟩ := expandedStates_indexed hparse
  rw [hstates] at hg
  simp only [Except.toOption, Option.any_some, Bool.and_eq_true, decide_eq_true_eq,
    Option.any_eq_true] at hg
  obtain ⟨hlength, s, hs, hhead⟩ := hg
  refine ⟨g, first, states, s, hparse, hstates, hindexed, hlength, hs, hhead, rfl, fun k => ?_⟩
  constructor
  · rintro ⟨t, ht, hhead'⟩
    exact hindexed.distinct k 3 t s _ _ ht hs hhead' hhead (Item.same_refl _)
  · rintro rfl
    exact ⟨s, hs, hhead⟩

end Automaton

end LRTables
