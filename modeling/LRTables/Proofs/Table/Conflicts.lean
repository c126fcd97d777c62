import LRTables.Proofs.Automaton.Determinism
import LRTables.Proofs.Automaton.Kernels
import LRTables.Proofs.Item.Canonical
import LRTables.Proofs.Table.Cells

/-!
# Conflicts and LR(1) grammars

In a deterministic automaton the items over a string are all in the state at the end of the
path over the string, so a grammar that is not LR(1) has a state in which items clash, and
a table with conflicts.  The converse does not hold: a state that was merged has the items
over several strings, and two of them can clash that no set of the canonical collection
has.  An LR(1) grammar whose automaton is deterministic has no other conflicts.  The items of
a state that was not merged are all in one set of the collection, so two that clash come from
different states of the expansion, and where merging keeps to the sets there are none.

* `Automaton.Deterministic.path_unique` — one path over each string.
* `Automaton.not_conflictFree_iff` — conflicts are items that clash.
* `Automaton.not_conflictFree_iff_of_isLR1` — in LR(1) grammars, items of states that were merged.
* `ParseTable.isLR1_of_conflictFree` — tables without conflicts have LR(1) grammars.
* `ParseTable.conflictFree_of_isLR1` — LR(1) grammars have tables without conflicts, but for merging.
* `ParseTable.exists_isLR1_not_conflictFree` — an LR(1) grammar whose table has a conflict.
-/

namespace LRTables

namespace Automaton

variable {g : Grammar} {first : FirstSets} {a : Automaton}

/-! ## Paths -/

/-- In a deterministic automaton there is one path over each string. -/
theorem Deterministic.path_unique (hdet : a.Deterministic) {γ : List Symbol} {k j : Nat}
    (hk : a.Path γ k) (hj : a.Path γ j) : k = j := by
  induction γ using List.reverseRecOn generalizing k j with
  | nil => rw [path_nil_iff.1 hk, path_nil_iff.1 hj]
  | append_singleton γ x ih =>
    obtain ⟨k', hk', hkx⟩ := path_concat_iff.1 hk
    obtain ⟨j', hj', hjx⟩ := path_concat_iff.1 hj
    obtain rfl := ih hk' hj'
    exact hdet k' x.name k j hkx.edge hjx.edge

/-! ## Conflicts -/

theorem moveTo_injective {x y : Symbol} {u v : Nat}
    (h : ParseTable.moveTo x u = ParseTable.moveTo y v) : u = v := by
  cases x <;> cases y <;> simp_all [ParseTable.moveTo]

/-- Without conflicts there are no two edges over one name. -/
theorem deterministic_of_conflictFree (hb : a.Built g first) (hfree : a.ConflictFree) :
    a.Deterministic := by
  rintro k name u v ⟨t, ⟨s, hs, ht⟩, hname, rfl⟩ ⟨r, ⟨s', hs', hr⟩, hname', rfl⟩
  obtain rfl := Option.some.inj (hs.symm.trans hs')
  have hcell := hfree _ (ParseTable.startOf_built hb) k s hs _
    (ParseTable.mem_cells_iff.2 (Or.inl ⟨t, ht, hname, rfl⟩)) _
    (ParseTable.mem_cells_iff.2 (Or.inl ⟨r, hr, hname', rfl⟩)) rfl
  exact moveTo_injective hcell

/-- Complete items with one look-ahead that enter the same are equal. -/
theorem eq_of_entered (hg : g.WellFormed) {i j : Item} {γ δ : List Symbol}
    (hi : Item.Viable g.augmented first g.seed γ i) (hj : Item.Viable g.augmented first g.seed δ j)
    (hiend : i.atEnd = true) (hjend : j.atEnd = true) (hlook : i.look = j.look)
    (h : entered g.startProduction.lhs i = entered g.startProduction.lhs j) : i = j := by
  obtain ⟨hipos, hidot⟩ := hi.dot_eq hg hiend
  obtain ⟨hjpos, hjdot⟩ := hj.dot_eq hg hjend
  unfold entered at h
  split at h
  · rename_i hacc
    split at h
    · rename_i hacc'
      rw [hi.eq_seed_advance hg hacc.1 hipos, hj.eq_seed_advance hg hacc'.1 hjpos]
    · exact absurd h (by simp)
  · split at h
    · exact absurd h (by simp)
    · obtain ⟨hlhs, hnames⟩ := Action.reduce.inj h
      refine Item.eq_of_same hg hi.isOf hj.isOf ((Item.same_iff i j).2 ⟨hlhs, hnames, ?_, hlook⟩)
      have hlen := congrArg List.length hnames
      simp only [Item.rhsNames, List.length_map] at hlen
      rw [hidot, hjdot, hlen]

section Cells

variable (hg : g.WellFormed) (hb : a.Built g first) {k : Nat} {s : State}
  (hs : a.get? k = some s)

include hb hs

/-- A transition and a complete item for one name make a clash. -/
theorem exists_clash_of_transition {t : Transition} (ht : t ∈ s.transitions) {i : Item}
    (hi : i ∈ s.rules) (hend : i.atEnd = true) (hlook : i.look = t.symbol.name) :
    ∃ i ∈ s.rules, ∃ j ∈ s.rules, i.Clash j := by
  obtain ⟨j, hj, hnext, -⟩ := hb.justified k t ⟨s, hs, ht⟩
  rw [mem_rulesOf_of_get? hs] at hj
  refine ⟨i, hi, j, hj, hend, Or.inr ?_⟩
  rw [hnext, hlook]
  rfl

include hg

/-- Without ambiguity two transitions over one name enter the same. -/
theorem moveTo_eq_of_transitions (hdet : a.Deterministic) {t r : Transition}
    (ht : t ∈ s.transitions) (hr : r ∈ s.transitions) (hname : t.symbol.name = r.symbol.name) :
    ParseTable.moveTo t.symbol t.target = ParseTable.moveTo r.symbol r.target := by
  have htarget : t.target = r.target :=
    hdet k t.symbol.name _ _ ⟨t, ⟨s, hs, ht⟩, rfl, rfl⟩ ⟨r, ⟨s, hs, hr⟩, hname.symm, rfl⟩
  obtain ⟨i, hi, hinext, -⟩ := hb.justified k t ⟨s, hs, ht⟩
  obtain ⟨j, hj, hjnext, -⟩ := hb.justified k r ⟨s, hs, hr⟩
  obtain ⟨γ, hiv⟩ := hb.viable k i hi
  obtain ⟨δ, hjv⟩ := hb.viable k j hj
  have hwell : t.symbol.WellNamed := Item.wellNamed_of_isOf hg hiv.isOf (Item.mem_of_next? hinext)
  have hwell' : r.symbol.WellNamed := Item.wellNamed_of_isOf hg hjv.isOf (Item.mem_of_next? hjnext)
  rw [hwell.eq_of_name_eq hwell' hname, htarget]

/-- Two different actions for one cell make a clash. -/
theorem exists_clash_of_cells (hdet : a.Deterministic) {c d : String × Action}
    (hc : c ∈ ParseTable.cells g.startProduction.lhs s)
    (hd : d ∈ ParseTable.cells g.startProduction.lhs s) (hname : c.1 = d.1) (hne : c.2 ≠ d.2) :
    ∃ i ∈ s.rules, ∃ j ∈ s.rules, i.Clash j := by
  obtain ⟨name, action⟩ := c
  obtain ⟨name', action'⟩ := d
  obtain rfl : name = name' := hname
  rcases ParseTable.mem_cells_iff.1 hc with ⟨t, ht, htname, rfl⟩ | ⟨i, hi, hend, hlook, rfl⟩
  · rcases ParseTable.mem_cells_iff.1 hd with ⟨r, hr, hrname, rfl⟩ | ⟨j, hj, hend, hlook, rfl⟩
    · exact absurd (moveTo_eq_of_transitions hg hb hs hdet ht hr (htname.trans hrname.symm)) hne
    · exact exists_clash_of_transition hb hs ht hj hend (hlook.trans htname.symm)
  · rcases ParseTable.mem_cells_iff.1 hd with ⟨r, hr, hrname, rfl⟩ | ⟨j, hj, hend', hlook', rfl⟩
    · exact exists_clash_of_transition hb hs hr hi hend (hlook.trans hrname.symm)
    · refine ⟨i, hi, j, hj, hend, Or.inl ⟨hend', hlook.trans hlook'.symm, ?_⟩⟩
      rintro rfl
      exact hne rfl

/-- A clash enters two different actions for one cell. -/
theorem exists_cells_of_clash {i j : Item} (hi : i ∈ s.rules) (hj : j ∈ s.rules)
    (h : i.Clash j) :
    ∃ c ∈ ParseTable.cells g.startProduction.lhs s,
      ∃ d ∈ ParseTable.cells g.startProduction.lhs s, c.1 = d.1 ∧ c.2 ≠ d.2 := by
  obtain ⟨hend, hcases⟩ := h
  have hcell : (i.look, entered g.startProduction.lhs i) ∈
      ParseTable.cells g.startProduction.lhs s :=
    ParseTable.mem_cells_iff.2 (Or.inr ⟨i, hi, hend, rfl, rfl⟩)
  rw [← mem_rulesOf_of_get? hs] at hi hj
  refine ⟨_, hcell, ?_⟩
  rcases hcases with ⟨hend', hlook, hne⟩ | hnext
  · obtain ⟨γ, hiv⟩ := hb.viable k i hi
    obtain ⟨δ, hjv⟩ := hb.viable k j hj
    rw [mem_rulesOf_of_get? hs] at hj
    refine ⟨(j.look, entered g.startProduction.lhs j),
      ParseTable.mem_cells_iff.2 (Or.inr ⟨j, hj, hend', rfl, rfl⟩), hlook, fun heq => hne ?_⟩
    exact eq_of_entered hg hiv hjv hend hend' hlook heq
  · obtain ⟨x, hx, hname⟩ := Option.map_eq_some_iff.1 hnext
    obtain ⟨t, ⟨s', hs', ht⟩, rfl, -⟩ := hb.advances k j hj x hx
    obtain rfl := Option.some.inj (hs.symm.trans hs')
    exact ⟨(t.symbol.name, ParseTable.moveTo t.symbol t.target),
      ParseTable.mem_cells_iff.2 (Or.inl ⟨t, ht, rfl, rfl⟩), hname.symm,
      entered_ne_moveTo _ _ _ _⟩

end Cells

/-- **The conflicts of a deterministic automaton are items that clash.** -/
theorem not_conflictFree_iff (hg : g.WellFormed) (hb : a.Built g first) (hdet : a.Deterministic) :
    ¬ a.ConflictFree ↔ ∃ k, ∃ i ∈ a.rulesOf k, ∃ j ∈ a.rulesOf k, i.Clash j := by
  constructor
  · intro h
    by_contra hclash
    refine h fun start hstart k s hs c hc d hd hname => ?_
    obtain rfl : g.startProduction.lhs = start :=
      Except.ok.inj ((ParseTable.startOf_built hb).symm.trans hstart)
    by_contra hne
    have hstate := exists_clash_of_cells hg hb hs hdet hc hd hname hne
    rw [← mem_rulesOf_of_get? hs] at hstate
    exact hclash ⟨k, hstate⟩
  · rintro ⟨k, i, hi, j, hj, hclash⟩ hfree
    obtain ⟨s, hs, his⟩ := exists_get?_of_mem_rulesOf hi
    rw [mem_rulesOf_of_get? hs] at hj
    obtain ⟨c, hc, d, hd, hname, hne⟩ := exists_cells_of_clash hg hb hs his hj hclash
    exact hne (hfree _ (ParseTable.startOf_built hb) k s hs c hc d hd hname)

/-! ## What merging brings together -/

section Merging

variable {e : Automaton} {f : Nat → Nat}

/-- The items of a state stand together, as long as no states are merged. -/
theorem Expanded.together (h : e.Expanded g first) (hg : g.WellFormed) (he : g.EpsilonFree)
    (hf : first.Exact g) {k : Nat} {i j : Item} (hi : i ∈ e.rulesOf k) (hj : j ∈ e.rulesOf k) :
    g.Together i j := by
  obtain ⟨κ, -, ⟨γ, hγ⟩, hmem⟩ := h.mem_rulesOf_iff (mem_keys_of_mem_rulesOf hi)
  exact Grammar.together_of_viable hg he hf (hγ.leads ((hmem i).1 hi)) (hγ.leads ((hmem j).1 hj))

/-- Items of a state are those of states that must stand for each other. -/
theorem Quotient.exists_fused (hq : Quotient e a f) {k : Nat} {i j : Item} (hi : i ∈ a.rulesOf k)
    (hj : j ∈ a.rulesOf k) : ∃ m n, Fused e m n ∧ i ∈ e.rulesOf m ∧ j ∈ e.rulesOf n := by
  obtain ⟨m, hm, hmk, him⟩ := hq.exists_source hi
  obtain ⟨n, hn, hnk, hjn⟩ := hq.exists_source hj
  exact ⟨m, n, hq.fused_of_eq hm hn (hmk.trans hnk.symm), him, hjn⟩

/-- Items of a state stand together if a list of the collection has them all. -/
theorem together_of_collection (hg : g.WellFormed) (he : g.EpsilonFree) (hf : first.Exact g)
    {n : Nat} (h : ∀ c ∈ a.entries, ∃ L ∈ g.collectionWithin first n, ∀ i ∈ c.2.rules, i ∈ L)
    {k : Nat} {i j : Item} (hi : i ∈ a.rulesOf k) (hj : j ∈ a.rulesOf k) : g.Together i j := by
  obtain ⟨s, hs, his⟩ := exists_get?_of_mem_rulesOf hi
  rw [mem_rulesOf_of_get? hs] at hj
  obtain ⟨L, hL, hrules⟩ := h (k, s) ((a.get?_eq_some_iff k s).1 hs)
  exact Grammar.together_of_mem_collectionWithin hg he hf hL (hrules i his) (hrules j hj)

/-- **The conflicts of an LR(1) grammar are clashes between states that were merged**: of two
items that clash in a deterministic automaton, no state that was found held both. -/
theorem not_conflictFree_iff_of_isLR1 (hg : g.WellFormed) (he : g.EpsilonFree)
    (hf : first.Exact g) (hexpanded : e.Expanded g first) (hq : Quotient e a f) (hlr : g.IsLR1)
    (hdet : a.Deterministic) :
    ¬ a.ConflictFree ↔ ∃ k j, k ≠ j ∧ Fused e k j ∧
      ∃ i ∈ e.rulesOf k, ∃ i' ∈ e.rulesOf j, i.Clash i' := by
  rw [not_conflictFree_iff hg (hexpanded.built hq hg) hdet]
  constructor
  · rintro ⟨k, i, hi, i', hi', hclash⟩
    obtain ⟨m, n, hfused, him, hin⟩ := hq.exists_fused hi hi'
    refine ⟨m, n, ?_, hfused, i, him, i', hin, hclash⟩
    rintro rfl
    exact hlr.not_clash (hexpanded.together hg he hf him hin) hclash
  · rintro ⟨m, n, -, hfused, i, him, i', hin, hclash⟩
    have hin' := hq.mem_image hin
    rw [← hq.eq_of_fused hdet hfused] at hin'
    exact ⟨f m, i, hq.mem_image him, i', hin', hclash⟩

end Merging

end Automaton

namespace ParseTable

/-- **A grammar whose table has no conflicts is LR(1)**, if no alternative is the empty string. -/
theorem isLR1_of_conflictFree {text : String} {g : Grammar} (h : Grammar.parse text = .ok g)
    (he : g.EpsilonFree) {a : Automaton} (ha : Automaton.ofGrammar g = .ok a)
    (hfree : a.ConflictFree) : g.IsLR1 := by
  have hg := Grammar.wellFormed_of_parse h
  obtain ⟨first, b, hf, hb, hbuilt⟩ := Automaton.exists_ofGrammar hg
  obtain rfl := Except.ok.inj (ha.symm.trans hb)
  have hdet := Automaton.deterministic_of_conflictFree hbuilt hfree
  refine (Grammar.isLR1_iff hg he hf).2 fun γ i j hi hj hclash => ?_
  -- both items are in the one state at the end of the path
  obtain ⟨k, hk, hik⟩ := hbuilt.exists_path hi
  obtain ⟨k', hk', hjk⟩ := hbuilt.exists_path hj
  obtain rfl := hdet.path_unique hk hk'
  exact (Automaton.not_conflictFree_iff hg hbuilt hdet).2 ⟨k, i, hik, j, hjk, hclash⟩ hfree

/-- **The table of an LR(1) grammar has no conflict but by merging**, if no alternative is the
empty string.  It has none if the expansion is deterministic, so that there is nothing to merge.
If what is left after merging is deterministic, as it should be, the table has none where merging
keeps to the sets of the canonical collection: any items of states that must stand for each other
stand together in one of these.  Whether it does or not, such a table has a conflict exactly when
two states that must stand for each other have items that clash. -/
theorem conflictFree_of_isLR1 {text : String} {g : Grammar} (h : Grammar.parse text = .ok g)
    (he : g.EpsilonFree) (hlr : g.IsLR1) :
    ∃ e a t, Automaton.expand g = .ok e ∧ Automaton.ofGrammar g = .ok a ∧ ofAutomaton a = .ok t ∧
      (e.Deterministic → a.ConflictFree) ∧
      (a.Deterministic → (∀ k j, Automaton.Fused e k j →
        ∀ i ∈ e.rulesOf k, ∀ i' ∈ e.rulesOf j, g.Together i i') → a.ConflictFree) ∧
      (a.Deterministic → (¬ a.ConflictFree ↔ ∃ k j, k ≠ j ∧ Automaton.Fused e k j ∧
        ∃ i ∈ e.rulesOf k, ∃ i' ∈ e.rulesOf j, i.Clash i')) := by
  have hg := Grammar.wellFormed_of_parse h
  obtain ⟨first, e, a, f, hf, hexpand, hkernels, hgrammar, hq⟩ :=
    Automaton.exists_ofGrammar_ofKernels hg
  have hexpanded := hkernels.toExpanded
  have hiff := Automaton.not_conflictFree_iff_of_isLR1 hg he hf hexpanded hq hlr
  refine ⟨e, a, _, hexpand, hgrammar, ofAutomaton_built (hexpanded.built hq hg), fun hdet => ?_,
    fun hdet htogether => ?_, hiff⟩
  · -- every state stands for itself alone
    by_contra hconflict
    obtain ⟨k, j, hne, hfused, -⟩ := (hiff (hdet.of_quotient hexpanded.closed hq)).1 hconflict
    exact hne (hdet.eq_of_fused hfused)
  · by_contra hconflict
    obtain ⟨k, j, -, hfused, i, hi, i', hi', hclash⟩ := (hiff hdet).1 hconflict
    exact hlr.not_clash (htogether k j hfused i hi i' hi') hclash

/-- In `s ---> c c` the states that are merged are behind the same string, so that merging them makes
no conflict; and in `s ---> A s` there is nothing to merge. -/
theorem conflictFree_of_isLR1_of_two_contexts :
    (∃ g e a, Grammar.parse "s ---> c c\nc ---> C c | D" = .ok g ∧ g.IsLR1 ∧
      Automaton.expand g = .ok e ∧ Automaton.ofGrammar g = .ok a ∧ a.size < e.size ∧
      a.ConflictFree ∧ ∀ k j, k ≠ j → Automaton.Fused e k j →
        ∀ i ∈ e.rulesOf k, ∀ i' ∈ e.rulesOf j, ¬ i.Clash i') ∧
    ∃ g e a, Grammar.parse "s ---> A s | B" = .ok g ∧ g.IsLR1 ∧
      Automaton.expand g = .ok e ∧ Automaton.ofGrammar g = .ok a ∧ e.Deterministic ∧
      a.ConflictFree := by
  constructor
  · obtain ⟨g, hparse, hg⟩ := exists_ok_of_any (e := Grammar.parse "s ---> c c\nc ---> C c | D")
      (P := fun g : Grammar => g.EpsilonFree ∧
        g.lr1Within 3 = true ∧ (FirstSets.compute g).toOption.any (fun first : FirstSets =>
          (Automaton.ofGrammar g).toOption.any fun a : Automaton =>
            decide (∀ c ∈ a.entries, ∃ L ∈ g.collectionWithin first 3, ∀ i ∈ c.2.rules, i ∈ L)) ∧
        (Automaton.expand g).toOption.any (fun e : Automaton =>
          (Automaton.ofGrammar g).toOption.any fun a : Automaton =>
            decide (a.size < e.size) && decide a.Deterministic)) (by decide +kernel)
    obtain ⟨he, hcollection, hcover, hg⟩ := of_decide_eq_true hg
    have hwf := Grammar.wellFormed_of_parse hparse
    have hlr := Grammar.isLR1_of_lr1Within hwf he hcollection
    obtain ⟨first, hcompute, hf⟩ := FirstSets.exists_exact hwf
    obtain ⟨-, e', a', f, -, hexpand', -, ha', hq⟩ := Automaton.exists_ofGrammar_ofKernels hwf
    obtain ⟨e, a, t, hexpand, ha, -, -, hfree, hiff⟩ := conflictFree_of_isLR1 hparse he hlr
    obtain rfl := Except.ok.inj (hexpand.symm.trans hexpand')
    obtain rfl := Except.ok.inj (ha.symm.trans ha')
    simp only [hexpand, ha, hcompute, Except.toOption, Option.any_some, Bool.and_eq_true,
      decide_eq_true_eq] at hg hcover
    obtain ⟨hsize, hdet⟩ := hg
    have hfree := hfree hdet fun k j hfused i hi i' hi' => by
      have hi' := hq.mem_image hi'
      rw [← hq.eq_of_fused hdet hfused] at hi'
      exact Automaton.together_of_collection hwf he hf hcover (hq.mem_image hi) hi'
    refine ⟨g, e, a, hparse, hlr, hexpand, ha, hsize, hfree, ?_⟩
    intro k j hne hfused i hi i' hi' hclash
    exact (hiff hdet).2 ⟨k, j, hne, hfused, i, hi, i', hi', hclash⟩ hfree
  · obtain ⟨g, hparse, hg⟩ := exists_ok_of_any (e := Grammar.parse "s ---> A s | B")
      (P := fun g : Grammar => g.EpsilonFree ∧ g.lr1Within 2 = true ∧
        (Automaton.expand g).toOption.any fun e : Automaton => decide e.Deterministic)
      (by decide +kernel)
    obtain ⟨he, hcollection, hg⟩ := of_decide_eq_true hg
    have hlr := Grammar.isLR1_of_lr1Within (Grammar.wellFormed_of_parse hparse) he hcollection
    obtain ⟨e, a, t, hexpand, ha, -, hfree, -⟩ := conflictFree_of_isLR1 hparse he hlr
    rw [hexpand] at hg
    have hdet : e.Deterministic := of_decide_eq_true hg
    exact ⟨g, e, a, hparse, hlr, hexpand, ha, hdet, hfree hdet⟩

/-- **The table of an LR(1) grammar can have a conflict.**  Behind `D` and behind `E` the
grammar goes on with an `X` to the same state, which has one more complete item behind each. -/
theorem exists_isLR1_not_conflictFree :
    ∃ g a, Grammar.parse "s ---> b | c | D a C | E a C\na ---> X G\nb ---> D X\nc ---> E X" =
        .ok g ∧ g.EpsilonFree ∧ Automaton.ofGrammar g = .ok a ∧ g.IsLR1 ∧ ¬ a.ConflictFree := by
  obtain ⟨g, hparse, hg⟩ := exists_ok_of_any
    (e := Grammar.parse "s ---> b | c | D a C | E a C\na ---> X G\nb ---> D X\nc ---> E X")
    (P := fun g : Grammar => g.EpsilonFree ∧ g.lr1Within 4 = true ∧
      (Automaton.ofGrammar g).toOption.any fun a : Automaton => ¬ a.ConflictFree)
    (by decide +kernel)
  obtain ⟨he, hcollection, hg⟩ := of_decide_eq_true hg
  obtain ⟨a, ha, hconflict⟩ := exists_ok_of_any hg
  have hlr := Grammar.isLR1_of_lr1Within (Grammar.wellFormed_of_parse hparse) he hcollection
  exact ⟨g, a, hparse, he, ha, hlr, of_decide_eq_true hconflict⟩

end ParseTable

end LRTables
