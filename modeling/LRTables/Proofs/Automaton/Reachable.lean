import LRTables.Proofs.Automaton.Bounds
import LRTables.Proofs.Item.Restriction
import LRTables.Proofs.Outputs

/-!
# Productions that cannot be reached do not matter

The search for kernels begins at the start symbol, and every item that it comes to is one of a
production that is reached from there.  So what is left without the other productions has the same
closures in the same order, the same states with the same transitions, goes through the same merges,
and has the same table.

* `Expansion.closures_keeping` — the closures of a closed part of a grammar.
* `Automaton.build_keeping` — its automaton, and how that comes about.
* `Automaton.build_reachablePart` — FIRST sets, automaton and table of what is reached.
-/

namespace LRTables

variable {g : Grammar} {keep : String → Bool} {first : FirstSets}

namespace Expansion

/-- The items of a closure are of productions of the grammar if its first one is. -/
theorem known_of_closure (hg : g.WellFormed) (hf : first.Exact g) {i : Item} (hi : Known g i)
    {items : List Item} (h : Item.closure g.augmented first i = .ok items) :
    ∀ j ∈ items, Known g j := by
  obtain ⟨rest, hclosure, hmem⟩ :=
    Item.exists_closure (Item.exists_lookaheads_of_leads hg hf hi)
  obtain rfl := Except.ok.inj (hclosure.symm.trans h)
  exact fun j hj => ((hmem j).1 hj).isOf hg hi

theorem known_successors {items : List Item} (h : ∀ i ∈ items, Known g i) :
    ∀ j ∈ successors items, Known g j := by
  intro j hj
  obtain ⟨i, hi, -, rfl⟩ := mem_successors_iff.1 hj
  exact h i hi

section Keeping

variable (hg : g.WellFormed) (hkeep : g.IsClosed keep) (hf : first.Exact g)
  (hf' : FirstSets.Exact (g.keeping keep) (first.restrict keep))

include hg hkeep hf hf'

/-- Items of the part lead to the same closures as in the whole grammar. -/
theorem step_keeping {items : List Item} (hitems : ∀ i ∈ items, Known (g.keeping keep) i)
    (known : List Item) :
    step (g.keeping keep).augmented (first.restrict keep) known items =
      step g.augmented first known items := by
  have hclosures : (newKernels known (successors items)).mapM
      (Item.closure (g.keeping keep).augmented (first.restrict keep)) =
      (newKernels known (successors items)).mapM (Item.closure g.augmented first) :=
    mapM_congr fun k hk => Item.closure_keeping hg hkeep
      (known_successors hitems k (mem_of_mem_newKernels hk)) hf hf'
  simp only [step, hclosures]

/-- **The closures of a part are those of the whole grammar**, in the same order. -/
theorem closures_keeping :
    closures (g.keeping keep).augmented (first.restrict keep) (g.keeping keep).seed =
      closures g.augmented first g.seed := by
  have hg' := hkeep.wellFormed hg
  have hseed := hkeep.seed_keeping hg
  have hknown : Known (g.keeping keep) (g.keeping keep).seed :=
    ⟨_, List.mem_cons_self .., rfl, rfl⟩
  obtain ⟨rest, all, hall, hclosure, -, hsearch⟩ := exists_closures_traverses hg hf
  obtain ⟨rest', all', hall', hclosure', -, hsearch'⟩ := exists_closures_traverses hg' hf'
  have hfirst := known_of_closure hg' hf' hknown hclosure'
  rw [Item.closure_keeping hg hkeep hknown hf hf', hseed, hclosure] at hclosure'
  obtain rfl : rest = rest' := (List.cons.inj (Except.ok.inj hclosure')).2
  rw [hseed] at hsearch' hfirst
  have hsame := hsearch.congr (P := fun items => ∀ i ∈ items, Known (g.keeping keep) i)
    (fun known items hitems => (step_keeping hg hkeep hf hf' hitems known).symm)
    (fun known items known' found hitems hstep c hc => by
      obtain ⟨k, hk, hkc⟩ := exists_of_mem_mapM (mapM_of_step hstep).2 c hc
      exact known_of_closure hg' hf'
        (known_successors hitems k (mem_of_mem_newKernels hk)) hkc)
    (fun c hc => by rw [List.mem_singleton.1 hc]; exact hfirst)
  rw [hall, hall', hsame.out_unique hsearch']

end Keeping

end Expansion

namespace Automaton

/-- **A closed part has the automaton of the whole grammar**, and it comes about in the same way. -/
theorem build_keeping (hg : g.WellFormed) (hkeep : g.IsClosed keep) :
    build (g.keeping keep) = build g := by
  have hg' := hkeep.wellFormed hg
  obtain ⟨first, hcompute, hf⟩ := FirstSets.exists_exact hg
  obtain ⟨first', hcompute', hf'⟩ := FirstSets.exists_exact hg'
  obtain rfl : first.restrict keep = first' :=
    Except.ok.inj ((FirstSets.compute_keeping hg hkeep hcompute).symm.trans hcompute')
  obtain ⟨all, hall, -⟩ := Expansion.exists_closures hg hf
  have hall' := hall
  rw [← Expansion.closures_keeping hg hkeep hf hf'] at hall'
  rw [build, build, expand_of_closures hg hcompute hall, expand_of_closures hg' hcompute' hall']

/-- **Productions that cannot be reached do not matter.**  Without them the FIRST sets of the
non-terminals that are left, the automaton, the way in which it comes about, and the table are the
same, in the same order. -/
theorem build_reachablePart {text : String} {g : Grammar} (h : Grammar.parse text = .ok g) :
    ∃ first b t, FirstSets.compute g = .ok first ∧
      FirstSets.compute g.reachablePart =
        .ok (first.restrict fun n => decide (g.Reachable n)) ∧
      build g = .ok b ∧ build g.reachablePart = .ok b ∧
      ParseTable.ofAutomaton b.automaton = .ok t := by
  have hg := Grammar.wellFormed_of_parse h
  obtain ⟨first, hcompute, -⟩ := FirstSets.exists_exact hg
  obtain ⟨_, b, -, hbuild, -, hb⟩ := exists_build hg
  refine ⟨first, b, _, hcompute, FirstSets.compute_keeping hg g.isClosed_reachable hcompute, hbuild,
    ?_, ParseTable.ofAutomaton_built hb⟩
  rw [Grammar.reachablePart, build_keeping hg g.isClosed_reachable, hbuild]

/-- Three rules that cannot be reached, each of which waits for the next one, call for two more
passes, and for nothing else. -/
theorem build_reachablePart_of_three_unused :
    ∃ g first b t, Grammar.parse "s ---> A a\nx ---> y\ny ---> z\na ---> C | a D\nz ---> Z s" =
        .ok g ∧
      g.reachablePart.map Production.lhs = ["s", "a", "a"] ∧
      (FirstSets.passes g).map List.length = .ok 4 ∧
      (FirstSets.passes g.reachablePart).map List.length = .ok 2 ∧
      FirstSets.compute g = .ok first ∧
      FirstSets.compute g.reachablePart =
        .ok (first.restrict fun n => decide (g.Reachable n)) ∧
      build g = .ok b ∧ build g.reachablePart = .ok b ∧
      ParseTable.ofAutomaton b.automaton = .ok t := by
  obtain ⟨g, hparse, hpart⟩ := exists_ok_of_any
    (e := Grammar.parse "s ---> A a\nx ---> y\ny ---> z\na ---> C | a D\nz ---> Z s")
    (P := fun g : Grammar => decide (g.reachablePart.map Production.lhs = ["s", "a", "a"] ∧
      (FirstSets.passes g).map List.length = .ok 4 ∧
      (FirstSets.passes g.reachablePart).map List.length = .ok 2)) (by decide +kernel)
  obtain ⟨hlhs, hpasses, hpasses'⟩ := of_decide_eq_true hpart
  obtain ⟨first, b, t, hresult⟩ := build_reachablePart hparse
  exact ⟨g, first, b, t, hparse, hlhs, hpasses, hpasses', hresult⟩

end Automaton

end LRTables
