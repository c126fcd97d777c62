import LRTables.Proofs.Automaton.Changes
import LRTables.Proofs.Automaton.Discovery
import Mathlib.Data.Finset.Card

/-!
# How much there is to find

Four loops build the automaton of a grammar: the passes for the FIRST sets, the search of each
closure, the search for kernels, and the merge passes.  All of them find only so much, because
look-aheads are names of terminals or the end marker, and so the bounds that they are given cut
nothing off.

* `Grammar.lookNames` — the names that look-aheads can have.
* `FirstSets.Sound.count_le_card` — how many names the FIRST sets hold.
* `Expansion.traverses_of_closure` — how many items a closure holds.
* `Expansion.length_le_of_closures` — how many kernels there are.
* `Automaton.Completed` — every loop goes on to its own end.
* `Automaton.construction_bounded` — so it is for every grammar, and within these bounds.
-/

namespace LRTables

variable {g : Grammar} {first : FirstSets}

/-! ## Names -/

namespace Grammar

/-- **The names that look-aheads can have**: the end marker and the terminals of the right sides,
the name of the empty string among them if it is used. -/
def lookNames (g : Grammar) : Finset String := insert endMarker g.terminals.toFinset

theorem mem_lookNames {name : String} :
    name ∈ g.lookNames ↔ name = endMarker ∨ name ∈ g.terminals := by
  simp [lookNames]

end Grammar

/-- The FIRST sets hold no more names than there are non-terminals and look-aheads for. -/
theorem FirstSets.Sound.count_le_card (hg : g.WellFormed) (hs : Sound g first)
    (hkeys : first.keys = (initial g).keys) :
    first.count ≤ g.nonterminals.toFinset.card * g.lookNames.card := by
  have hnames : first.count ≤ first.size * g.lookNames.toList.length := by
    refine hs.count_le fun n a ha => ?_
    rw [Finset.mem_toList, Grammar.mem_lookNames]
    exact Or.inr (ha.mem_terminals_of_wellFormed hg)
  have hnodup : first.keys.Nodup := first.nodup_keys
  have hsize : first.size ≤ g.nonterminals.toFinset.card := by
    rw [OrderedMap.size_eq_length_keys, ← List.toFinset_card_of_nodup hnodup]
    refine Finset.card_le_card fun n hn => ?_
    rw [List.mem_toFinset] at hn ⊢
    have hmem : n ∈ (initial g).keys := by
      rw [← hkeys]
      exact hn
    obtain ⟨p, hp, rfl⟩ := mem_keys_initial.1 hmem
    exact List.mem_flatMap.2 ⟨p, hp, List.mem_cons_self ..⟩
  rw [Finset.length_toList] at hnames
  exact hnames.trans (Nat.mul_le_mul_right _ hsize)

/-- What an item brings its non-terminal in with are names that look-aheads can have, each once. -/
theorem Item.Viable.lookaheads_nodup (hg : g.WellFormed) (hf : first.Exact g)
    (hs : FirstSets.Sound g first) {γ : List Symbol} {i : Item}
    (h : Viable g.augmented first g.seed γ i) {looks : List String}
    (hlooks : i.lookaheads first = .ok looks) :
    looks.Nodup ∧ ∀ a ∈ looks, a ∈ g.lookNames := by
  rcases lookaheads_cases hlooks with ⟨-, rfl⟩ | ⟨c, hc, rfl⟩ | ⟨b, -, hnames⟩
  · refine ⟨List.nodup_singleton _, fun a ha => ?_⟩
    rw [List.mem_singleton.1 ha, Grammar.mem_lookNames]
    exact h.look_mem hg hf
  · refine ⟨List.nodup_singleton _, fun a ha => ?_⟩
    obtain ⟨p, hp, -, hrhs⟩ := h.isOf
    have hmem : .terminal c ∈ p.rhs := by
      rw [← hrhs]
      exact List.mem_of_getElem? hc
    have hterminal : c ∈ Grammar.terminals g.augmented := Grammar.mem_terminals_of_mem_rhs hp hmem
    rw [List.mem_singleton.1 ha, Grammar.mem_lookNames]
    exact Or.inr hterminal
  · obtain ⟨hnodup, hfirst⟩ := hs b looks hnames
    refine ⟨hnodup, fun a ha => ?_⟩
    rw [Grammar.mem_lookNames]
    exact Or.inr ((hfirst a ha).mem_terminals_of_wellFormed hg)

/-! ## Closures and kernels -/

namespace Expansion

/-- **A closure in an expansion is the whole search**, and has an item for each production and each
look-ahead at most, besides the item that it is the closure of. -/
theorem traverses_of_closure (hg : g.WellFormed) (hf : first.Exact g)
    (hs : FirstSets.Sound g first) {γ : List Symbol} {κ : Item}
    (hκ : Item.Viable g.augmented first g.seed γ κ) {items : List Item}
    (h : Item.closure g.augmented first κ = .ok items) :
    Worklist.Traverses (Item.expand g.augmented first) [] [κ] items ∧
      items.length ≤ 1 + g.augmented.length * g.lookNames.card := by
  rw [← Finset.length_toList]
  refine Item.traverses_of_closure (fun i hi n _ => ?_) (fun i hi looks hlooks a => ?_) h
  · exact Item.exists_lookaheads hg hf (hκ.leads hi).isOf
  · obtain ⟨hnodup, hmem⟩ := (hκ.leads hi).lookaheads_nodup hg hf hs hlooks
    refine (List.subperm_of_subset hnodup fun b hb => ?_).count_le a
    exact Finset.mem_toList.2 (hmem b hb)

/-- The first items of the closures that are found are kernels. -/
theorem exists_kernels {all : List (List Item)} (h : ∀ items ∈ all, IsClosure g first items) :
    ∃ ks : List Item, all.map List.head? = ks.map some ∧ ∀ k ∈ ks, Kernel g first k := by
  induction all with
  | nil => exact ⟨[], rfl, by simp⟩
  | cons items all ih =>
    obtain ⟨ks, hks, hkernels⟩ := ih fun c hc => h c (List.mem_cons_of_mem _ hc)
    obtain ⟨k, rest, rfl, hk, -⟩ := h items (List.mem_cons_self ..)
    refine ⟨k :: ks, ?_, ?_⟩
    · rw [List.map_cons, List.map_cons, hks, List.head?_cons]
    · intro j hj
      rcases List.mem_cons.1 hj with rfl | hj
      · exact hk
      · exact hkernels j hj

/-- **There are as many closures at most** as places behind symbols and look-aheads, besides that
of the start item. -/
theorem length_le_of_closures (hg : g.WellFormed) (hf : first.Exact g) {all : List (List Item)}
    (hall : closures g.augmented first g.seed = .ok all) (h : Complete g first all) :
    all.length ≤ 1 + places g.augmented * g.lookNames.card := by
  obtain ⟨ks, hks, hkernels⟩ := exists_kernels h.closed
  have hnodup : (ks.map some).Nodup := by
    rw [← hks]
    exact nodup_kernels hall
  have hlen : all.length = ks.length := by simpa using congrArg List.length hks
  rw [hlen, ← Finset.length_toList]
  refine length_le_of_kernels _ _ (List.Nodup.of_map some hnodup) hkernels fun k hk => ?_
  obtain ⟨γ, hv⟩ := (hkernels k hk).viable
  exact ⟨hv.isOf, Finset.mem_toList.2 (Grammar.mem_lookNames.2 (hv.look_mem hg hf))⟩

end Expansion

/-! ## The loops, one after the other -/

/-- **The passes for the FIRST sets**: each adds a name, but for the last. -/
theorem FirstSets.exists_settled (hg : g.WellFormed) :
    ∃ passes first, FirstSets.passes g = .ok passes ∧ compute g = .ok first ∧ first.Exact g ∧
      Sound g first ∧ Settles g (initial g) passes first ∧
      passes.length ≤ 1 + g.nonterminals.toFinset.card * g.lookNames.card := by
  obtain ⟨passes, first, hpasses, hcompute, hsettles, hs, hkeys, hlen⟩ := exists_passes hg.defined
  obtain ⟨first', hcompute', hf⟩ := exists_exact hg
  obtain rfl : first' = first := Except.ok.inj (hcompute'.symm.trans hcompute)
  have hcount := hs.count_le_card hg hkeys
  exact ⟨passes, first', hpasses, hcompute, hf, hs, hsettles, by omega⟩

namespace Automaton

/-- **The expansion**: every state is the whole search of a closure, and all states are the whole
search for kernels. -/
theorem exists_expandedStates (hg : g.WellFormed) (hcompute : FirstSets.compute g = .ok first)
    (hf : first.Exact g) (hs : FirstSets.Sound g first) :
    ∃ states, expandedStates g = .ok states ∧ (ofStates states).Expanded g first ∧
      (∀ s ∈ states, (∃ κ, Worklist.Traverses (Item.expand g.augmented first) [] [κ] s.rules) ∧
        s.rules.length ≤ 1 + g.augmented.length * g.lookNames.card) ∧
      (∃ s, states.head? = some s ∧ s.rules.head? = some g.seed ∧
        Worklist.Traverses (Expansion.step g.augmented first) [g.seed] [s.rules]
          (states.map State.rules)) ∧
      states.length ≤ 1 + Expansion.places g.augmented * g.lookNames.card := by
  obtain ⟨all, hall, hcomplete⟩ := Expansion.exists_closures hg hf
  have hrules : (all.map (Expansion.state all)).map State.rules = all := by
    rw [List.map_map]
    exact List.map_id all
  refine ⟨_, expandedStates_of_closures hg hcompute hall, expanded_ofStates hg hcomplete, ?_, ?_,
    ?_⟩
  · intro s hs'
    obtain ⟨items, hitems, rfl⟩ := List.mem_map.1 hs'
    obtain ⟨κ, hκ⟩ := Expansion.exists_closure_of_mem hall items hitems
    obtain ⟨γ, hv⟩ :=
      (hcomplete.closed items hitems).viable (List.mem_of_mem_head? (Item.head?_of_closure hκ))
    obtain ⟨hwhole, hlen⟩ := Expansion.traverses_of_closure hg hf hs hv hκ
    exact ⟨⟨κ, hwhole⟩, hlen⟩
  · obtain ⟨rest, all', hall', -, -, hwhole⟩ := Expansion.exists_closures_traverses hg hf
    obtain rfl : all' = all := Except.ok.inj (hall'.symm.trans hall)
    obtain ⟨others, hothers⟩ := hwhole.queue_prefix
    refine ⟨Expansion.state all' (g.seed :: rest), ?_, rfl, ?_⟩
    · rw [List.head?_map, ← hothers]
      rfl
    · rw [hrules]
      exact hwhole
  · rw [List.length_map]
    exact Expansion.length_le_of_closures hg hf hall hcomplete

/-- **The merge passes**: each takes a state away, but for the last, and one state stays. -/
theorem exists_merged (hg : g.WellFormed) {states : List State}
    (hstates : expandedStates g = .ok states) (ha : (ofStates states).Expanded g first) :
    ∃ b, build g = .ok b ∧ b.automaton.Built g first ∧
      Settles (ofStates states) b.passes b.automaton ∧ b.passes.length ≤ states.length := by
  obtain ⟨passes, last, hmerge, hsettles, ⟨f, hq⟩, hlen⟩ := exists_mergeAll ha.closed
  have hexpand : expand g = .ok (ofStates states) := by
    rw [expand, hstates]
    rfl
  have hbuilt : last.Built g first := ha.built hq hg
  refine ⟨_, build_of_mergeAll hexpand hmerge, hbuilt, hsettles, ?_⟩
  obtain ⟨s, hzero, -⟩ := hbuilt.start
  have hpos : 0 < last.size := by
    rw [OrderedMap.size_eq_length_keys]
    exact List.length_pos_of_mem (OrderedMap.mem_keys_of_get? hzero)
  rw [size_ofStates] at hlen
  show passes.length ≤ states.length
  omega

/-- **Every loop goes on to its own end.**  No number bounds the loops here: the passes for the
FIRST sets end with one that adds nothing, the searches of the closures and the search for kernels
leave nothing to be taken, and the merge passes end with one that merges nothing. -/
structure Completed (g : Grammar) (passes : List FirstSets) (first : FirstSets)
    (states : List State) (b : Build) : Prop where
  /-- The passes for the FIRST sets. -/
  settled : FirstSets.Settles g (FirstSets.initial g) passes first
  /-- The search of the closure that a state is. -/
  closed : ∀ s ∈ states, ∃ κ, Worklist.Traverses (Item.expand g.augmented first) [] [κ] s.rules
  /-- The search for kernels, from the closure of the start item on. -/
  expanded : ∃ s, states.head? = some s ∧ s.rules.head? = some g.seed ∧
    Worklist.Traverses (Expansion.step g.augmented first) [g.seed] [s.rules]
      (states.map State.rules)
  /-- The merge passes. -/
  merged : Settles (ofStates states) b.passes b.automaton

/-- **The bounds of the loops.** -/
structure Bounded (g : Grammar) (passes : List FirstSets) (states : List State) (b : Build) :
    Prop where
  /-- Passes for the FIRST sets, by the non-terminals and the names in their sets. -/
  first : passes.length ≤ 1 + g.nonterminals.toFinset.card * g.lookNames.card
  /-- Items of a closure, by the productions and their look-aheads. -/
  items : ∀ s ∈ states, s.rules.length ≤ 1 + g.augmented.length * g.lookNames.card
  /-- States of the expansion, by the places behind symbols and the look-aheads. -/
  kernels : states.length ≤ 1 + Expansion.places g.augmented * g.lookNames.card
  /-- Merge passes, by the states. -/
  merges : b.passes.length ≤ states.length
  /-- After any number of merge passes the next one takes away as many states as it has merges. -/
  removed : ∀ n, ∃ a a' merges, afterPasses n (ofStates states) = .ok a ∧
    a.mergePass = .ok (a', merges) ∧ merges.length + a'.size = a.size

/-- **Every loop of the construction comes to its end**, for every text that is a grammar, and
within bounds that are read off the grammar. -/
theorem construction_bounded {text : String} (h : Grammar.parse text = .ok g) :
    ∃ passes first states b, FirstSets.passes g = .ok passes ∧ FirstSets.compute g = .ok first ∧
      expandedStates g = .ok states ∧ build g = .ok b ∧ Completed g passes first states b ∧
      Bounded g passes states b := by
  have hg := Grammar.wellFormed_of_parse h
  obtain ⟨passes, first, hpasses, hcompute, hf, hs, hsettled, hpassesLength⟩ :=
    FirstSets.exists_settled hg
  obtain ⟨states, hstates, ha, hclosures, hkernels, hstatesLength⟩ :=
    exists_expandedStates hg hcompute hf hs
  obtain ⟨b, hbuild, -, hmerged, hmergesLength⟩ := exists_merged hg hstates ha
  refine ⟨passes, first, states, b, hpasses, hcompute, hstates, hbuild,
    ⟨hsettled, fun s hs => (hclosures s hs).1, hkernels, hmerged⟩,
    ⟨hpassesLength, fun s hs => (hclosures s hs).2, hstatesLength, hmergesLength, fun n => ?_⟩⟩
  obtain ⟨a, f, hafter, hq, -⟩ := exists_afterPasses ha.closed n
  obtain ⟨a', merges, -, hpass, -, hlen⟩ := exists_pass (hq.closed ha.closed)
  exact ⟨a, a', merges, hafter, hpass, hlen⟩

/-- Sums have three look-aheads, so there is room for four passes and sixteen states; there are two
passes and ten states, of which six are merged away in three passes. -/
theorem construction_bounded_of_sums :
    ∃ g passes first states b, Grammar.parse "e ---> e P e | N" = .ok g ∧
      FirstSets.passes g = .ok passes ∧ expandedStates g = .ok states ∧ build g = .ok b ∧
      Completed g passes first states b ∧ Bounded g passes states b ∧ g.lookNames.card = 3 ∧
      passes.length = 2 ∧ states.length = 10 ∧ b.passes.map List.length = [5, 1, 0] := by
  obtain ⟨g, hparse, hg⟩ := exists_ok_of_any (e := Grammar.parse "e ---> e P e | N")
    (P := fun g : Grammar => decide (g.lookNames.card = 3) &&
      (FirstSets.passes g).toOption.any (fun passes : List FirstSets =>
        decide (passes.length = 2)) &&
      (expandedStates g).toOption.any (fun states : List State => decide (states.length = 10)) &&
      (build g).toOption.any fun b : Build =>
        decide (b.passes.map List.length = [5, 1, 0])) (by decide +kernel)
  obtain ⟨passes, first, states, b, hpasses, -, hstates, hbuild, hcompleted, hbounded⟩ :=
    construction_bounded hparse
  rw [hpasses, hstates, hbuild] at hg
  simp only [Except.toOption, Option.any_some, Bool.and_eq_true, decide_eq_true_eq] at hg
  obtain ⟨⟨⟨hlooks, hpassesLength⟩, hstatesLength⟩, hmerges⟩ := hg
  exact ⟨g, passes, first, states, b, hparse, hpasses, hstates, hbuild, hcompleted, hbounded,
    hlooks, hpassesLength, hstatesLength, hmerges⟩

end Automaton

end LRTables
