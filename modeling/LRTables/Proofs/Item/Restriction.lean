import LRTables.Proofs.FirstSets.Restriction
import LRTables.Proofs.Item.Viable

/-!
# Closures in a part of a grammar

An item of a production that is kept has only non-terminals that are kept on its right side.  So it
has the same look-aheads in the part as in the whole grammar, brings in the same items in the same
order, and has the same closure.

* `Item.lookaheads_restrict`, `Item.expand_keeping` — what an item of the part brings in.
* `Item.closure_keeping` — its closure.
-/

namespace LRTables.Item

variable {g : Grammar} {keep : String → Bool} {first : FirstSets} {i : Item}

/-- What an item of the grammar leads to has its look-aheads. -/
theorem exists_lookaheads_of_leads (hg : g.WellFormed) (hf : first.Exact g)
    (hi : ∃ p ∈ g.augmented, i.IsOf p) : ∀ j, Leads g.augmented first i j → ∀ n,
      j.next? = some (.nonterminal n) → ∃ looks, j.lookaheads first = .ok looks :=
  fun _ hj _ _ => exists_lookaheads hg hf (hj.isOf hg hi)

/-- The productions that a non-terminal that is kept is begun with. -/
theorem beginning_keeping (hg : g.WellFormed) (hkeep : g.IsClosed keep) {n : String}
    (hn : keep n = true) (looks : List String) :
    beginning (g.keeping keep).augmented n looks = beginning g.augmented n looks := by
  simp only [beginning, Grammar.augmented, hkeep.startProduction_keeping hg, List.filter_cons,
    Grammar.filter_keeping hn]

section Known

variable (hg : g.WellFormed) (hkeep : g.IsClosed keep)
  (hi : ∃ p ∈ (g.keeping keep).augmented, i.IsOf p)

include hg hkeep hi

/-- The non-terminals of an item of the part are kept. -/
theorem keep_of_mem_rhs {n : String} (hn : .nonterminal n ∈ i.rhs) : keep n = true := by
  obtain ⟨p, hp, -, hrhs⟩ := hi
  exact hkeep.keep_of_mem hg hp (by rw [← hrhs]; exact hn)

/-- An item of the part has the look-aheads that it has in the whole grammar. -/
theorem lookaheads_restrict (first : FirstSets) :
    i.lookaheads (first.restrict keep) = i.lookaheads first := by
  unfold lookaheads
  split
  · rfl
  · rfl
  · rename_i b hb
    have hkept := keep_of_mem_rhs hg hkeep hi (List.mem_of_getElem? hb)
    rw [OrderedMap.get?_restrict, if_pos hkept]

/-- An item of the part brings in what it brings in in the whole grammar. -/
theorem expand_keeping (first : FirstSets) (marks : Marks) :
    expand (g.keeping keep).augmented (first.restrict keep) marks i =
      expand g.augmented first marks i := by
  unfold expand
  split
  · rename_i n hn
    have hkept := keep_of_mem_rhs hg hkeep hi (mem_of_next? hn)
    rw [lookaheads_restrict hg hkeep hi]
    simp only [beginning_keeping hg hkeep hkept]
  · rfl

/-- **An item of the part has the closure that it has in the whole grammar.** -/
theorem closure_keeping (hf : first.Exact g)
    (hf' : FirstSets.Exact (g.keeping keep) (first.restrict keep)) :
    closure (g.keeping keep).augmented (first.restrict keep) i = closure g.augmented first i := by
  have hg' := hkeep.wellFormed hg
  have hmem : ∃ p ∈ g.augmented, i.IsOf p := by
    obtain ⟨p, hp, hof⟩ := hi
    rw [hkeep.augmented_keeping hg] at hp
    refine ⟨p, ?_, hof⟩
    exact List.cons_subset_cons _ (fun q hq => (Grammar.mem_keeping_iff.1 hq).1) hp
  obtain ⟨items, hclosure, hitems⟩ :=
    exists_closure_traverses (exists_lookaheads_of_leads hg hf hmem)
  obtain ⟨items', hclosure', hitems'⟩ :=
    exists_closure_traverses (exists_lookaheads_of_leads hg' hf' hi)
  have hsame := hitems.congr (P := fun j => ∃ p ∈ (g.keeping keep).augmented, j.IsOf p)
    (fun marks j hj => (expand_keeping hg hkeep hj first marks).symm)
    (fun marks j marks' found hj hexpand k hk => by
      obtain ⟨p, hp, hof⟩ := (brings_of_expand hexpand k hk).exists_mem hg' hj
      exact ⟨p, List.mem_cons_of_mem _ hp, hof⟩)
    (fun j hj => by rw [List.mem_singleton.1 hj]; exact hi)
  rw [hclosure, hclosure', hsame.out_unique hitems']

end Known

end LRTables.Item
