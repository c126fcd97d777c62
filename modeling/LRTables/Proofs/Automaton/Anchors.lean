import LRTables.Proofs.Automaton.Changes
import LRTables.Proofs.Automaton.Kernels

/-!
# Where an automaton starts and accepts

Two items hold an automaton in place: the start item, from which everything is found, and
the start item advanced, with which the input is accepted.  Both are kernels, so each is in
one state, once, however many passes are made.  State zero is never absorbed and absorbs
nothing, because nothing leads to it, and its first transition, which is that of the start
item, leads to what has become of the accepting state.

* `Automaton.Anchored` — where the two items are.
* `Automaton.OfKernels.anchored` — they are there after states are merged.
* `Automaton.exists_ofGrammar_anchored` — and in the automaton of a grammar.
* `Automaton.afterPasses_anchored` — and after any number of passes.
-/

namespace LRTables.Automaton

variable {g : Grammar} {first : FirstSets} {a b : Automaton} {f : Nat → Nat}

/-- **The start item and the accepting item are in their places.** -/
structure Anchored (g : Grammar) (first : FirstSets) (b : Automaton) : Prop where
  /-- State zero is the closure of the start item, which comes first in it.  The first
  transition of state zero is over the start symbol, to a state with the accepting item. -/
  start : ∃ s t u, b.get? 0 = some s ∧ Item.closure g.augmented first g.seed = .ok s.rules ∧
    s.rules.head? = some g.seed ∧ s.transitions.head? = some t ∧
    t.symbol = .nonterminal g.start ∧ b.get? t.target = some u ∧ g.seed.advance ∈ u.rules
  /-- The start item is once in the automaton. -/
  seed_once : b.items.count g.seed = 1
  /-- The accepting item is once in the automaton. -/
  accept_once : b.items.count g.seed.advance = 1
  /-- No transition leads to state zero. -/
  target_ne_zero : ∀ k t, b.Has k t → t.target ≠ 0

namespace OfKernels

/-- Before any states are merged, the transition of the start item leads to the state of the
accepting item. -/
theorem exists_leading? (h : a.OfKernels g first) :
    ∃ t, a.leading? 0 = some t ∧ t.symbol = .nonterminal g.start ∧
      g.seed.advance ∈ a.rulesOf t.target := by
  obtain ⟨s, hs, hseed⟩ := h.start
  have hnext : g.seed.next? = some (.nonterminal g.start) := rfl
  obtain ⟨t, ht, hsymbol, u, hu, hhead⟩ := h.leading 0 s hs g.seed _ hseed hnext
  refine ⟨t, ?_, hsymbol, ?_⟩
  · rw [leading?, hs]
    exact ht
  · exact mem_rulesOf_of_head? hu hhead

theorem seed_mem (h : a.OfKernels g first) : g.seed ∈ a.rulesOf 0 := by
  obtain ⟨s, hs, hseed⟩ := h.start
  exact mem_rulesOf_of_head? hs hseed

/-- State zero keeps the closure that it is. -/
theorem closure_start (h : a.OfKernels g first) (hq : Quotient a b f) {s : State}
    (hs : b.get? 0 = some s) :
    s.rules.head? = some g.seed ∧ Item.closure g.augmented first g.seed = .ok s.rules := by
  obtain ⟨s', hs', hseed⟩ := h.start
  obtain ⟨κ, hκ, hclosure⟩ := h.closure 0 s' hs'
  obtain rfl : g.seed = κ := Option.some.inj (hseed.symm.trans hκ)
  have hrules := h.rulesOf_start hq
  rw [mem_rulesOf_of_get? hs, mem_rulesOf_of_get? hs'] at hrules
  rw [hrules]
  exact ⟨hseed, hclosure⟩

/-- **The two items are in their places after states are merged.** -/
theorem anchored (h : a.OfKernels g first) (hg : g.WellFormed) (hq : Quotient a b f)
    (hlead : KeepsLeading a b f) : b.Anchored g first := by
  obtain ⟨t, ht, hsymbol, haccept⟩ := h.exists_leading?
  have hzero : 0 ∈ b.keys := (h.start_mem_keys hq).2
  have hseed : g.seed = g.seed ∨ 0 < g.seed.dot := Or.inl rfl
  have hadvance : g.seed.advance = g.seed ∨ 0 < g.seed.advance.dot := Or.inr (Nat.succ_pos _)
  constructor
  · obtain ⟨s, hs, hhead⟩ := Option.bind_eq_some_iff.1 (hlead 0 hzero t ht)
    obtain ⟨u, hu, hmem⟩ := exists_get?_of_mem_rulesOf (hq.mem_image haccept)
    obtain ⟨hfirst, hclosure⟩ := h.closure_start hq hs
    exact ⟨s, _, u, hs, hclosure, hfirst, hhead, hsymbol, hu, hmem⟩
  · exact h.count_items hg hq hseed (hq.mem_image h.seed_mem)
  · exact h.count_items hg hq hadvance (hq.mem_image haccept)
  · intro k r hr hr0
    apply h.not_edge_start_of_quotient hq k r.symbol.name
    rw [← hr0]
    exact hr.edge

end OfKernels

/-- **Every well-formed grammar has its automaton**, which comes from the closures of kernels
by merging states, and has the two items in their places. -/
theorem exists_ofGrammar_anchored (hg : g.WellFormed) :
    ∃ first a b f, first.Exact g ∧ a.OfKernels g first ∧ ofGrammar g = .ok b ∧ Quotient a b f ∧
      b.Anchored g first := by
  obtain ⟨first, a, -, hf, hexpand, ha⟩ := exists_ofKernels hg
  obtain ⟨passes, b, hmerge, -⟩ := exists_mergeAll ha.closed
  have hpasses := afterPasses_of_mergePasses hmerge
  obtain ⟨f, hq, hlead⟩ := (changes_of_afterPasses ha.closed hpasses).exists_quotient ha.closed
  refine ⟨first, a, b, f, hf, ha, ?_, hq, ha.anchored hg hq hlead⟩
  rw [ofGrammar, build_of_mergeAll hexpand hmerge]
  rfl

/-- **The start item and the accepting item survive in their places**: after any number of
passes over the expansion of a grammar, none included, state zero is the closure of the start
item, nothing leads to it, and its first transition leads over the start symbol to the state
with the accepting item.  Each of the two items is once in the whole automaton. -/
theorem afterPasses_anchored {text : String} (h : Grammar.parse text = .ok g) :
    ∃ first a, FirstSets.compute g = .ok first ∧ g.augment = .ok g.augmented ∧
      g.augmented.startItem = .ok g.seed ∧ expand g = .ok a ∧
      ∀ n, ∃ b, afterPasses n a = .ok b ∧ b.Anchored g first := by
  have hg := Grammar.wellFormed_of_parse h
  obtain ⟨first, a, hcompute, -, hexpand, ha⟩ := exists_ofKernels hg
  refine ⟨first, a, hcompute, Grammar.augment_of_ne_nil hg.ne_nil, Grammar.startItem_augmented g,
    hexpand, ?_⟩
  intro n
  obtain ⟨b, f, hpasses, hq, hlead⟩ := exists_afterPasses ha.closed n
  exact ⟨b, hpasses, ha.anchored hg hq hlead⟩

/-- In an ambiguous grammar the state with the accepting item is absorbed by another. -/
theorem afterPasses_anchored_of_sums :
    ∃ g first a b, Grammar.parse "e ---> e P e | N" = .ok g ∧ expand g = .ok a ∧
      afterPasses 3 a = .ok b ∧ b.Anchored g first ∧ g.seed.advance ∈ a.rulesOf 1 ∧
      g.seed.advance ∈ b.rulesOf 8 ∧ b.keys = [0, 3, 6, 8] := by
  obtain ⟨g, hparse, hg⟩ := exists_ok_of_any (e := Grammar.parse "e ---> e P e | N")
    (P := fun g : Grammar => (expand g).toOption.any fun a : Automaton =>
      decide (g.seed.advance ∈ a.rulesOf 1) && (afterPasses 3 a).toOption.any fun b : Automaton =>
        decide (g.seed.advance ∈ b.rulesOf 8 ∧ b.keys = [0, 3, 6, 8])) (by decide +kernel)
  obtain ⟨first, a, -, -, -, hexpand, hafter⟩ := afterPasses_anchored hparse
  obtain ⟨b, hb, hanchored⟩ := hafter 3
  rw [hexpand] at hg
  simp only [Except.toOption, Option.any_some, hb, Bool.and_eq_true, decide_eq_true_eq] at hg
  exact ⟨g, first, a, b, hparse, hexpand, hb, hanchored, hg.1, hg.2.1, hg.2.2⟩

end LRTables.Automaton
