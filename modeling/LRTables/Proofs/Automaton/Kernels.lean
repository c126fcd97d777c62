import LRTables.Proofs.Automaton.Items

/-!
# Kernels

A state of an expansion is the closure of its first item, which is its kernel.  The start
item and the items with their dot behind a symbol are brought in by nothing, so they can only
be kernels; and the search takes every kernel once.  So such an item is in one state of the
expansion, once, and since a merge puts the lists of two states behind each other, it stays
once in the whole automaton, in the state that stands for its own.

* `Item.exists_of_closure` — what stands behind the first item of a closure.
* `Expansion.nodup_kernels` — no two closures of a search have the same first item.
* `Automaton.OfKernels` — the automaton whose states are the closures of their kernels.
* `Automaton.exists_ofKernels` — every well-formed grammar has it.
* `Automaton.OfKernels.eq_of_mem_quotient` — a kernel is in one state after states are merged.
* `Automaton.OfKernels.count_items` — it is there once.
-/

namespace LRTables

variable {g : Grammar} {first : FirstSets}

/-! ## Closures -/

namespace Item

/-- The first item of a closure is the one that it is the closure of. -/
theorem head?_of_closure {κ : Item} {items : List Item} (h : closure g first κ = .ok items) :
    items.head? = some κ := by
  unfold closure at h
  rw [Nat.add_comm] at h
  obtain ⟨marks, found, rest, -, -, rfl⟩ := Worklist.exists_of_run_cons h
  rfl

/-- **Behind the first item of a closure** are beginnings of productions of the grammar only. -/
theorem exists_of_closure (hg : g.WellFormed) {κ : Item} (hκ : ∃ p ∈ g.augmented, κ.IsOf p)
    {items : List Item} (h : closure g.augmented first κ = .ok items) :
    ∃ rest, items = κ :: rest ∧ ∀ i ∈ rest, i.dot = 0 ∧ ∃ p ∈ g, i.IsOf p := by
  have hhead := head?_of_closure h
  unfold closure at h
  obtain ⟨found, hlisted, hfound⟩ := Worklist.exists_forall_of_run
    (P := fun i : Item => ∃ p ∈ g.augmented, i.IsOf p)
    (Q := fun i : Item => i.dot = 0 ∧ ∃ p ∈ g, i.IsOf p)
    (fun marks i marks' new hi hexpand j hj => by
      have hbrings : Brings g.augmented first i j := brings_of_expand hexpand j hj
      obtain ⟨p, hp, hjp⟩ := hbrings.exists_mem hg hi
      exact ⟨⟨p, List.mem_cons_of_mem _ hp, hjp⟩, hbrings.dot, p, hp, hjp⟩) h
    (fun i hi => by
      rw [List.mem_singleton] at hi
      rw [hi]
      exact hκ)
  cases items with
  | nil => simp at hhead
  | cons i rest =>
    obtain rfl : i = κ := Option.some.inj hhead
    refine ⟨rest, rfl, ?_⟩
    intro j hj
    have hmem : j ∈ found := (List.cons_prefix_cons.1 hlisted).2.subset hj
    exact (hfound j hmem).2

end Item

/-! ## The search for kernels -/

namespace Expansion

variable {seed : Item} {all : List (List Item)}

/-- What a search for kernels is. -/
theorem exists_run_of_closures (h : closures g first seed = .ok all) :
    ∃ items bound, Item.closure g first seed = .ok items ∧
      Worklist.run (step g first) bound [seed] [items] = .ok all := by
  unfold closures at h
  split at h
  · exact absurd h (by simp)
  · rename_i items hitems
    exact ⟨items, _, hitems, h⟩

/-- A step finds the closures of the new kernels, in their order. -/
theorem mapM_of_step {known known' items : List Item} {found : List (List Item)}
    (h : step g first known items = .ok (known', found)) :
    known' = (newKernels known (successors items)).reverse ++ known ∧
      (newKernels known (successors items)).mapM (Item.closure g first) = .ok found := by
  simp only [step] at h
  split at h
  · exact absurd h (by simp)
  · rename_i closures hmap
    obtain ⟨rfl, rfl⟩ := Prod.mk.inj (Except.ok.inj h)
    exact ⟨rfl, hmap⟩

/-- Everything that the search lists is a closure. -/
theorem exists_closure_of_mem (h : closures g first seed = .ok all) :
    ∀ items ∈ all, ∃ κ, Item.closure g first κ = .ok items := by
  obtain ⟨items, bound, hitems, hrun⟩ := exists_run_of_closures h
  obtain ⟨found, hlisted, hfound⟩ := Worklist.exists_forall_of_run
    (P := fun items => ∃ κ, Item.closure g first κ = .ok items) (Q := fun _ => True)
    (fun known items known' new _ hstep c hc => by
      obtain ⟨κ, -, hκ⟩ := exists_of_mem_mapM (mapM_of_step hstep).2 c hc
      exact ⟨⟨κ, hκ⟩, trivial⟩) hrun
    (fun c hc => by
      rw [List.mem_singleton] at hc
      exact ⟨seed, by rw [hc, hitems]⟩)
  intro c hc
  rcases List.mem_append.1 (hlisted.subset hc) with hc | hc
  · rw [List.mem_singleton] at hc
    exact ⟨seed, by rw [hc, hitems]⟩
  · exact (hfound c hc).1

/-- What is known after a step are the first items of what it finds, and what was known. -/
theorem known_perm_of_step {known known' items : List Item} {found : List (List Item)}
    (h : step g first known items = .ok (known', found)) :
    (known'.map some).Perm (found.map List.head? ++ known.map some) := by
  obtain ⟨rfl, hmap⟩ := mapM_of_step h
  have hheads : found.map List.head? = (newKernels known (successors items)).map some :=
    map_eq_of_mapM (fun κ c hκ => Item.head?_of_closure hκ) hmap
  rw [hheads, List.map_append, List.map_reverse]
  exact (List.reverse_perm _).append_right _

theorem nodup_of_step {known known' items : List Item} {found : List (List Item)}
    (h : step g first known items = .ok (known', found)) (hknown : (known.map some).Nodup) :
    (known'.map some).Nodup := by
  have hinj : Function.Injective (some : Item → Option Item) := fun _ _ => Option.some.inj
  obtain ⟨rfl, -⟩ := mapM_of_step h
  rw [List.nodup_map_iff hinj] at hknown ⊢
  exact nodup_newKernels (successors items) hknown

/-- **No two closures of a search have the same first item.** -/
theorem nodup_kernels (h : closures g first seed = .ok all) : (all.map List.head?).Nodup := by
  obtain ⟨items, bound, hitems, hrun⟩ := exists_run_of_closures h
  obtain ⟨found, hlisted, hfound⟩ := Worklist.exists_nodup_of_run List.head? (List.map some)
    (fun known items known' new hstep => ⟨known_perm_of_step hstep, nodup_of_step hstep⟩) hrun
    (by simp)
  have hperm : (([items] ++ found).map List.head?).Perm
      (found.map List.head? ++ [seed].map some) := by
    rw [List.map_append, List.map_singleton, Item.head?_of_closure hitems]
    exact List.perm_append_comm
  have hnodup : (([items] ++ found).map List.head?).Nodup := hperm.nodup_iff.2 hfound
  exact hnodup.sublist (hlisted.sublist.map List.head?)

/-- A closure is listed once. -/
theorem eq_of_head?_eq (h : closures g first seed = .ok all) {j k : Nat} {items items' : List Item}
    (hj : all[j]? = some items) (hk : all[k]? = some items') (hhead : items.head? = items'.head?) :
    j = k := by
  have hj' : (all.map List.head?)[j]? = some items.head? := by
    rw [List.getElem?_map, hj]
    rfl
  have hk' : (all.map List.head?)[k]? = some items.head? := by
    rw [List.getElem?_map, hk, hhead]
    rfl
  obtain ⟨hlt, hget⟩ := List.getElem?_eq_some_iff.1 hj'
  obtain ⟨hlt', hget'⟩ := List.getElem?_eq_some_iff.1 hk'
  exact (nodup_kernels h).getElem_inj_iff.1 (hget.trans hget'.symm)

end Expansion

namespace Automaton

/-! ## States and their kernels -/

/-- **The automaton whose states are the closures of their kernels**, each kernel having one
state, with the transition of the kernel in front. -/
structure OfKernels (g : Grammar) (first : FirstSets) (a : Automaton) : Prop extends
    Expanded g first a where
  /-- A state is the closure of its first item. -/
  closure : ∀ k s, a.get? k = some s →
    ∃ κ, s.rules.head? = some κ ∧ Item.closure g.augmented first κ = .ok s.rules
  /-- No two states have the same first item. -/
  distinct : ∀ j k s t, a.get? j = some s → a.get? k = some t →
    s.rules.head? = t.rules.head? → j = k
  /-- The first transition is that of the first item, if it can advance. -/
  leading : ∀ k s, a.get? k = some s → ∀ κ x, s.rules.head? = some κ → κ.next? = some x →
    ∃ t, s.transitions.head? = some t ∧ t.symbol = x ∧
      ∃ u, a.get? t.target = some u ∧ u.rules.head? = some κ.advance

theorem ofKernels_ofStates (hg : g.WellFormed) {all : List (List Item)}
    (hall : Expansion.closures g.augmented first g.seed = .ok all)
    (h : Expansion.Complete g first all) :
    (ofStates (all.map (Expansion.state all))).OfKernels g first := by
  refine ⟨expanded_ofStates hg h, ?_, ?_, ?_⟩
  · intro k s hs
    obtain ⟨items, hitems, rfl⟩ := get?_states_iff.1 hs
    obtain ⟨κ, hκ⟩ := Expansion.exists_closure_of_mem hall items (List.mem_of_getElem? hitems)
    exact ⟨κ, Item.head?_of_closure hκ, hκ⟩
  · intro j k s t hs ht hhead
    obtain ⟨items, hitems, rfl⟩ := get?_states_iff.1 hs
    obtain ⟨items', hitems', rfl⟩ := get?_states_iff.1 ht
    exact Expansion.eq_of_head?_eq hall hitems hitems' hhead
  · intro k s hs κ x hhead hx
    obtain ⟨items, hitems, rfl⟩ := get?_states_iff.1 hs
    have hκ : κ ∈ items := List.mem_of_mem_head? hhead
    refine ⟨⟨x, Expansion.indexOf all κ.advance⟩, ?_, rfl,
      exists_target hg h (List.mem_of_getElem? hitems) hκ hx⟩
    cases items with
    | nil => simp at hκ
    | cons i rest =>
      obtain rfl : i = κ := Option.some.inj hhead
      simp [Expansion.state, hx]

/-- **Every well-formed grammar has its expansion into the closures of kernels.** -/
theorem exists_ofKernels (hg : g.WellFormed) :
    ∃ first a, FirstSets.compute g = .ok first ∧ first.Exact g ∧ expand g = .ok a ∧
      a.OfKernels g first := by
  obtain ⟨first, hcompute, hf⟩ := FirstSets.exists_exact hg
  obtain ⟨all, hall, hcomplete⟩ := Expansion.exists_closures hg hf
  exact ⟨first, _, hcompute, hf, expand_of_closures hg hcompute hall,
    ofKernels_ofStates hg hall hcomplete⟩

/-- **The automaton of a grammar is a quotient of its expansion.** -/
theorem exists_ofGrammar_ofKernels (hg : g.WellFormed) :
    ∃ first e a f, first.Exact g ∧ expand g = .ok e ∧ e.OfKernels g first ∧ ofGrammar g = .ok a ∧
      Quotient e a f := by
  obtain ⟨first, e, -, hf, hexpand, he⟩ := exists_ofKernels hg
  obtain ⟨passes, a, hmerge, -, ⟨f, hq⟩, -⟩ := exists_mergeAll he.closed
  refine ⟨first, e, a, f, hf, hexpand, he, ?_, hq⟩
  rw [ofGrammar, build_of_mergeAll hexpand hmerge]
  rfl

/-- The items of all states, one state after the other. -/
def items (a : Automaton) : List Item := a.values.flatMap State.rules

namespace OfKernels

variable {a b : Automaton} {f : Nat → Nat} {κ : Item} {j k : Nat}

/-- A kernel is the first item of its state, and there once. -/
theorem head?_of_mem (h : a.OfKernels g first) (hg : g.WellFormed)
    (hκ : κ = g.seed ∨ 0 < κ.dot) (hmem : κ ∈ a.rulesOf k) :
    (a.rulesOf k).head? = some κ ∧ (a.rulesOf k).count κ = 1 := by
  obtain ⟨s, hs, -⟩ := exists_get?_of_mem_rulesOf hmem
  rw [mem_rulesOf_of_get? hs] at hmem ⊢
  obtain ⟨κ', hhead, hclosure⟩ := h.closure k s hs
  obtain ⟨κ'', hhead', ⟨γ, hv⟩, -⟩ := h.leads k s hs
  obtain rfl : κ' = κ'' := Option.some.inj (hhead.symm.trans hhead')
  obtain ⟨rest, hrules, hrest⟩ := Item.exists_of_closure hg hv.isOf hclosure
  -- behind the first item the dots are in front, and no left side is the new start symbol
  have hnot : κ ∉ rest := by
    intro hin
    obtain ⟨hdot, p, hp, hlhs, -⟩ := hrest κ hin
    rcases hκ with rfl | hpos
    · exact hg.lhs_ne_startProduction hp hlhs.symm
    · omega
  rw [hrules] at hmem ⊢
  rcases List.mem_cons.1 hmem with rfl | hmem
  · exact ⟨rfl, by rw [List.count_cons_self, List.count_eq_zero.2 hnot]⟩
  · exact absurd hmem hnot

/-- A kernel is in one state. -/
theorem eq_of_mem (h : a.OfKernels g first) (hg : g.WellFormed) (hκ : κ = g.seed ∨ 0 < κ.dot)
    (hj : κ ∈ a.rulesOf j) (hk : κ ∈ a.rulesOf k) : j = k := by
  obtain ⟨s, hs, -⟩ := exists_get?_of_mem_rulesOf hj
  obtain ⟨t, ht, -⟩ := exists_get?_of_mem_rulesOf hk
  have hs' := (h.head?_of_mem hg hκ hj).1
  have ht' := (h.head?_of_mem hg hκ hk).1
  rw [mem_rulesOf_of_get? hs] at hs'
  rw [mem_rulesOf_of_get? ht] at ht'
  exact h.distinct j k s t hs ht (hs'.trans ht'.symm)

/-- **A kernel is in one state after states are merged**: that which stands for its own. -/
theorem eq_of_mem_quotient (h : a.OfKernels g first) (hg : g.WellFormed) (hq : Quotient a b f)
    (hκ : κ = g.seed ∨ 0 < κ.dot) (hj : κ ∈ b.rulesOf j) (hk : κ ∈ b.rulesOf k) : j = k := by
  obtain ⟨m, -, rfl, hm⟩ := hq.exists_source hj
  obtain ⟨n, -, rfl, hn⟩ := hq.exists_source hk
  rw [h.eq_of_mem hg hκ hm hn]

/-- It is there once. -/
theorem count_rulesOf (h : a.OfKernels g first) (hg : g.WellFormed) (hq : Quotient a b f)
    (hκ : κ = g.seed ∨ 0 < κ.dot) (hk : κ ∈ b.rulesOf k) : (b.rulesOf k).count κ = 1 := by
  obtain ⟨j, hja, rfl, hj⟩ := hq.exists_source hk
  obtain ⟨others, ⟨hnodup, hothers⟩, hrules⟩ := hq.rules (f j) (hq.maps j hja)
  -- the lists of the states that go to this one, each once
  have hlists : b.rulesOf (f j) = (f j :: others).flatMap a.rulesOf := by
    rw [hrules, List.flatMap_cons]
  have hstates : (f j :: others).Nodup := by
    apply List.nodup_cons.2
    exact ⟨fun hm => ((hothers (f j)).1 hm).2.2 rfl, hnodup⟩
  have hmem : j ∈ f j :: others := by
    by_cases hfj : j = f j
    · rw [← hfj]
      exact List.mem_cons_self ..
    · exact List.mem_cons_of_mem _ ((hothers j).2 ⟨hja, rfl, hfj⟩)
  rw [hlists, OrderedMap.count_flatMap_of_unique hstates hmem fun i _ hi => h.eq_of_mem hg hκ hi hj]
  exact (h.head?_of_mem hg hκ hj).2

/-- **A kernel is once in the whole automaton**, however states are merged. -/
theorem count_items (h : a.OfKernels g first) (hg : g.WellFormed) (hq : Quotient a b f)
    (hκ : κ = g.seed ∨ 0 < κ.dot) (hk : κ ∈ b.rulesOf k) : b.items.count κ = 1 := by
  obtain ⟨s, hs, -⟩ := exists_get?_of_mem_rulesOf hk
  have honly : ∀ j t, b.get? j = some t → κ ∈ t.rules → j = k := by
    intro j t ht hmem
    rw [← mem_rulesOf_of_get? ht] at hmem
    exact h.eq_of_mem_quotient hg hq hκ hmem hk
  rw [items, OrderedMap.count_flatMap_values hs honly, ← mem_rulesOf_of_get? hs]
  exact h.count_rulesOf hg hq hκ hk

end OfKernels

end Automaton

end LRTables
