import LRTables.Proofs.Automaton.Expansion
import LRTables.Proofs.Automaton.Pass

/-!
# What the automaton of a grammar holds

The automaton of a grammar is a quotient of its expansion, and what matters of the
expansion survives: the items are found over strings, every state has with an item what
the item brings in, an item with its dot in front is brought in, an item that can advance
has its transition, and a transition has its item.  A state is reached over one name only,
because states that stand for each other are.

* `Automaton.Built` — what the automaton of a grammar holds.
* `Automaton.Expanded.not_edge_start` and `fused_start` — nothing leads to state zero.
* `Automaton.Expanded.accessed_of_fused` — states that stand for each other are reached
  over the same name.
* `Automaton.Expanded.built` — a quotient of an expansion holds what matters of it.
* `Automaton.exists_build` and `exists_ofGrammar` — every well-formed grammar has its automaton.
* `Automaton.Built.symbol_eq_of_has` — a state is entered over one symbol only.
* `Automaton.Built.exists_path` — the items over a string are at the end of a path over it.
-/

namespace LRTables.Automaton

variable {g : Grammar} {first : FirstSets} {a b : Automaton} {f : Nat → Nat}

/-- **What the automaton of a grammar holds.** -/
structure Built (g : Grammar) (first : FirstSets) (b : Automaton) : Prop where
  /-- Transitions lead to states. -/
  closed : b.Closed
  /-- State zero is there, and its first item is that of the start production. -/
  start : ∃ s, b.get? 0 = some s ∧ s.rules.head? = some g.seed
  /-- No dot in state zero is behind a symbol. -/
  start_dot : ∀ i ∈ b.rulesOf 0, i.dot = 0
  /-- Nothing leads to state zero. -/
  not_edge_start : ∀ k name, ¬ b.Edge k name 0
  /-- Items are found over strings. -/
  viable : ∀ k, ∀ i ∈ b.rulesOf k, ∃ γ, Item.Viable g.augmented first g.seed γ i
  /-- A state has what its items bring in. -/
  brings : ∀ k, ∀ i ∈ b.rulesOf k, ∀ j, Item.Brings g.augmented first i j → j ∈ b.rulesOf k
  /-- An item with its dot in front is that of the start production, or is brought in. -/
  brought : ∀ k, ∀ j ∈ b.rulesOf k, j.dot = 0 →
    j = g.seed ∨ ∃ i ∈ b.rulesOf k, Item.Brings g.augmented first i j
  /-- There is a transition for each item that can advance. -/
  advances : ∀ k, ∀ i ∈ b.rulesOf k, ∀ x, i.next? = some x →
    ∃ t, b.Has k t ∧ t.symbol = x ∧ i.advance ∈ b.rulesOf t.target
  /-- There is an item for each transition. -/
  justified : ∀ k t, b.Has k t → ∃ i ∈ b.rulesOf k, i.next? = some t.symbol ∧
    i.advance ∈ b.rulesOf t.target
  /-- The dots in a state are behind the name that the state is reached over, or in front. -/
  accessed : ∀ k name u, b.Edge k name u → ∀ i ∈ b.rulesOf u, 0 < i.dot →
    ∃ y, i.rhs[i.dot - 1]? = some y ∧ y.name = name

/-! ## The expansion -/

theorem mem_rulesOf_of_get? {k : Nat} {s : State} (hs : a.get? k = some s) :
    a.rulesOf k = s.rules := by
  rw [rulesOf, hs]
  rfl

theorem mem_rulesOf_of_head? {k : Nat} {s : State} {i : Item} (hs : a.get? k = some s)
    (h : s.rules.head? = some i) : i ∈ a.rulesOf k := by
  rw [mem_rulesOf_of_get? hs]
  exact List.mem_of_mem_head? h

theorem exists_get?_of_mem_rulesOf {k : Nat} {i : Item} (hi : i ∈ a.rulesOf k) :
    ∃ s, a.get? k = some s ∧ i ∈ s.rules := by
  cases hs : a.get? k with
  | none => simp [rulesOf, hs] at hi
  | some s =>
    rw [mem_rulesOf_of_get? hs] at hi
    exact ⟨s, rfl, hi⟩

theorem mem_keys_of_mem_rulesOf {k : Nat} {i : Item} (hi : i ∈ a.rulesOf k) : k ∈ a.keys := by
  obtain ⟨s, hs, -⟩ := exists_get?_of_mem_rulesOf hi
  exact OrderedMap.mem_keys_of_get? hs

/-- Is the dot of the first item of the state behind a symbol of that name? -/
def Accessed (a : Automaton) (name : String) (k : Nat) : Prop :=
  ∃ κ, (a.rulesOf k).head? = some κ ∧ 0 < κ.dot ∧
    ∃ y, κ.rhs[κ.dot - 1]? = some y ∧ y.name = name

namespace Expanded

theorem closed (h : a.Expanded g first) : a.Closed := by
  rintro k t ⟨s, hs, ht⟩
  obtain ⟨-, -, -, u, hu, -⟩ := h.justified k s hs t ht
  exact OrderedMap.mem_keys_of_get? hu

/-- Where an edge leads, the dot of the first item is behind its name. -/
theorem accessed_of_edge (h : a.Expanded g first) {k u : Nat} {name : String}
    (he : a.Edge k name u) (x : String) : Accessed a x u ↔ x = name := by
  obtain ⟨t, ⟨s, hs, ht⟩, rfl, rfl⟩ := he
  obtain ⟨i, -, hnext, st, hst, hhead⟩ := h.justified k s hs t ht
  have hget : i.advance.rhs[i.advance.dot - 1]? = some t.symbol := by
    simpa [Item.next?] using hnext
  constructor
  · rintro ⟨κ, hκ, -, y, hy, rfl⟩
    rw [mem_rulesOf_of_get? hst, hhead, Option.some.injEq] at hκ
    subst hκ
    rw [Option.some.inj (hy.symm.trans hget)]
  · rintro rfl
    refine ⟨i.advance, ?_, Nat.succ_pos _, t.symbol, hget, rfl⟩
    rw [mem_rulesOf_of_get? hst, hhead]

/-- **States that stand for each other are reached over the same name.** -/
theorem accessed_of_fused (h : a.Expanded g first) {k j : Nat} (hf : Fused a k j) (x : String) :
    Accessed a x k ↔ Accessed a x j := by
  induction hf with
  | refl k => exact Iff.rfl
  | symm _ ih => exact ih.symm
  | trans _ _ ih ih' => exact ih.trans ih'
  | step _ hu hv _ => exact (h.accessed_of_edge hu x).trans (h.accessed_of_edge hv x).symm

/-- Nothing leads to state zero. -/
theorem not_edge_start (h : a.Expanded g first) (k : Nat) (name : String) : ¬ a.Edge k name 0 := by
  intro he
  obtain ⟨κ, hκ, hpos, -⟩ := (h.accessed_of_edge he name).2 rfl
  obtain ⟨s, hs, hseed⟩ := h.start
  rw [mem_rulesOf_of_get? hs, hseed, Option.some.injEq] at hκ
  subst hκ
  exact absurd hpos (Nat.lt_irrefl 0)

/-- State zero stands for itself alone. -/
theorem fused_start (h : a.Expanded g first) {k j : Nat} (hf : Fused a k j) : k = 0 ↔ j = 0 := by
  induction hf with
  | refl k => exact Iff.rfl
  | symm _ ih => exact ih.symm
  | trans _ _ ih ih' => exact ih.trans ih'
  | @step k j u v name _ hu hv _ =>
    constructor
    · rintro rfl
      exact absurd hu (h.not_edge_start k name)
    · rintro rfl
      exact absurd hv (h.not_edge_start j name)

/-- The items of a state are its first one and what that leads to. -/
theorem mem_rulesOf_iff (h : a.Expanded g first) {k : Nat} (hk : k ∈ a.keys) :
    ∃ κ, (a.rulesOf k).head? = some κ ∧ (∃ γ, Item.Viable g.augmented first g.seed γ κ) ∧
      ∀ i, i ∈ a.rulesOf k ↔ Item.Leads g.augmented first κ i := by
  obtain ⟨s, hs⟩ := (a.mem_keys_iff k).1 hk
  rw [mem_rulesOf_of_get? hs]
  exact h.leads k s hs

/-- An item with its dot in front is that of the start production, or is brought in by an
item of its state. -/
theorem exists_brings (h : a.Expanded g first) {k : Nat} {j : Item} (hj : j ∈ a.rulesOf k)
    (hdot : j.dot = 0) : j = g.seed ∨ ∃ i ∈ a.rulesOf k, Item.Brings g.augmented first i j := by
  obtain ⟨κ, hκ, -, hmem⟩ := h.mem_rulesOf_iff (mem_keys_of_mem_rulesOf hj)
  rcases Relation.ReflTransGen.cases_tail ((hmem j).1 hj) with rfl | ⟨i, hi, hij⟩
  · obtain ⟨s, hs, -⟩ := exists_get?_of_mem_rulesOf hj
    rw [mem_rulesOf_of_get? hs] at hκ
    rcases h.kernel k s hs j hκ with hseed | hpos
    · exact Or.inl hseed
    · exact absurd hdot (Nat.ne_of_gt hpos)
  · exact Or.inr ⟨i, (hmem i).2 hi, hij⟩

/-- An item with its dot behind a symbol is the first of its state. -/
theorem head_of_dot_pos (h : a.Expanded g first) {k : Nat} {i : Item} (hi : i ∈ a.rulesOf k)
    (hpos : 0 < i.dot) : (a.rulesOf k).head? = some i := by
  obtain ⟨κ, hκ, -, hmem⟩ := h.mem_rulesOf_iff (mem_keys_of_mem_rulesOf hi)
  rcases Relation.ReflTransGen.cases_tail ((hmem i).1 hi) with rfl | ⟨j, -, hj⟩
  · exact hκ
  · exact absurd hj.dot (Nat.ne_of_gt hpos)

end Expanded

/-! ## The quotient -/

/-- An item of a quotient is one of a state that the state stands for. -/
theorem Quotient.exists_source (hq : Quotient a b f) {k : Nat} {i : Item} (hi : i ∈ b.rulesOf k) :
    ∃ j ∈ a.keys, f j = k ∧ i ∈ a.rulesOf j :=
  (hq.mem_rulesOf_iff (mem_keys_of_mem_rulesOf hi) i).1 hi

/-- An item is one of the state that stands for its own. -/
theorem Quotient.mem_image (hq : Quotient a b f) {j : Nat} {i : Item} (hi : i ∈ a.rulesOf j) :
    i ∈ b.rulesOf (f j) := by
  have hj : j ∈ a.keys := mem_keys_of_mem_rulesOf hi
  exact (hq.mem_rulesOf_iff (hq.maps j hj) i).2 ⟨j, hj, rfl, hi⟩

namespace Expanded

section Quotient

variable (h : a.Expanded g first) (hq : Quotient a b f)

include h hq

theorem eq_start_iff {k : Nat} (hk : k ∈ a.keys) : f k = 0 ↔ k = 0 :=
  (h.fused_start (hq.fused k hk)).symm

theorem start_mem_keys : 0 ∈ a.keys ∧ 0 ∈ b.keys := by
  obtain ⟨s, hs, -⟩ := h.start
  have hzero : 0 ∈ a.keys := OrderedMap.mem_keys_of_get? hs
  exact ⟨hzero, (hq.mem_keys_iff 0).2 ⟨hzero, (h.eq_start_iff hq hzero).2 rfl⟩⟩

/-- State zero keeps its items, and gets no others. -/
theorem rulesOf_start : b.rulesOf 0 = a.rulesOf 0 := by
  obtain ⟨others, ⟨-, hothers⟩, hrules⟩ := hq.rules 0 (h.start_mem_keys hq).2
  have hnone : others = [] := by
    refine List.eq_nil_iff_forall_not_mem.2 fun j hj => ?_
    obtain ⟨hja, hfj, hne⟩ := (hothers j).1 hj
    exact hne ((h.eq_start_iff hq hja).1 hfj)
  rw [hrules, hnone, List.flatMap_nil, List.append_nil]

theorem exists_start_of_quotient : ∃ s, b.get? 0 = some s ∧ s.rules.head? = some g.seed := by
  obtain ⟨s, hs⟩ := (b.mem_keys_iff 0).1 (h.start_mem_keys hq).2
  obtain ⟨s', hs', hseed⟩ := h.start
  have hrules := h.rulesOf_start hq
  rw [mem_rulesOf_of_get? hs, mem_rulesOf_of_get? hs'] at hrules
  exact ⟨s, hs, by rw [hrules, hseed]⟩

theorem start_dot_of_quotient {i : Item} (hi : i ∈ b.rulesOf 0) : i.dot = 0 := by
  rw [h.rulesOf_start hq] at hi
  obtain ⟨s, hs, hseed⟩ := h.start
  by_contra hdot
  have hhead := h.head_of_dot_pos hi (Nat.pos_of_ne_zero hdot)
  rw [mem_rulesOf_of_get? hs, hseed, Option.some.injEq] at hhead
  subst hhead
  exact hdot rfl

theorem not_edge_start_of_quotient (k : Nat) (name : String) : ¬ b.Edge k name 0 := by
  intro he
  obtain ⟨j, v, hjv, -, hv⟩ := (hq.edges k name 0).1 he
  obtain rfl := (h.eq_start_iff hq (h.closed.target_mem hjv)).1 hv
  exact h.not_edge_start j name hjv

theorem viable_of_quotient {k : Nat} {i : Item} (hi : i ∈ b.rulesOf k) :
    ∃ γ, Item.Viable g.augmented first g.seed γ i := by
  obtain ⟨j, hj, -, hij⟩ := hq.exists_source hi
  obtain ⟨κ, -, ⟨γ, hγ⟩, hmem⟩ := h.mem_rulesOf_iff hj
  exact ⟨γ, hγ.leads ((hmem i).1 hij)⟩

theorem brings_of_quotient {k : Nat} {i i' : Item} (hi : i ∈ b.rulesOf k)
    (hbrings : Item.Brings g.augmented first i i') : i' ∈ b.rulesOf k := by
  obtain ⟨j, hj, rfl, hij⟩ := hq.exists_source hi
  obtain ⟨κ, -, -, hmem⟩ := h.mem_rulesOf_iff hj
  exact hq.mem_image ((hmem i').2 (((hmem i).1 hij).tail hbrings))

theorem brought_of_quotient {k : Nat} {j : Item} (hj : j ∈ b.rulesOf k) (hdot : j.dot = 0) :
    j = g.seed ∨ ∃ i ∈ b.rulesOf k, Item.Brings g.augmented first i j := by
  obtain ⟨m, -, rfl, hjm⟩ := hq.exists_source hj
  refine (h.exists_brings hjm hdot).imp_right ?_
  rintro ⟨i, hi, hij⟩
  exact ⟨i, hq.mem_image hi, hij⟩

theorem justified_of_quotient {k : Nat} {t : Transition} (ht : b.Has k t) :
    ∃ i ∈ b.rulesOf k, i.next? = some t.symbol ∧ i.advance ∈ b.rulesOf t.target := by
  obtain ⟨j, t', ⟨s, hs, hts⟩, rfl, hsymbol, htarget⟩ := hq.symbols k t ht
  obtain ⟨i, hi, hnext, u, hu, hhead⟩ := h.justified j s hs t' hts
  have hij : i ∈ a.rulesOf j := by
    rw [mem_rulesOf_of_get? hs]
    exact hi
  have hadvance : i.advance ∈ a.rulesOf t'.target := mem_rulesOf_of_head? hu hhead
  refine ⟨i, hq.mem_image hij, by rw [← hsymbol, hnext], ?_⟩
  rw [← htarget]
  exact hq.mem_image hadvance

theorem advances_of_quotient (hg : g.WellFormed) {k : Nat} {i : Item} (hi : i ∈ b.rulesOf k)
    {x : Symbol} (hx : i.next? = some x) :
    ∃ t, b.Has k t ∧ t.symbol = x ∧ i.advance ∈ b.rulesOf t.target := by
  obtain ⟨j, hj, rfl, hij⟩ := hq.exists_source hi
  obtain ⟨s, hs, his⟩ := exists_get?_of_mem_rulesOf hij
  obtain ⟨t', ht', rfl, u, hu, hhead⟩ := h.advances j s hs i his x hx
  have hadvance : i.advance ∈ a.rulesOf t'.target := mem_rulesOf_of_head? hu hhead
  have he : b.Edge (f j) t'.symbol.name (f t'.target) :=
    (hq.edges _ _ _).2 ⟨j, t'.target, Has.edge ⟨s, hs, ht'⟩, rfl, rfl⟩
  obtain ⟨t, ht, hname, htarget⟩ := he
  refine ⟨t, ht, ?_, ?_⟩
  · -- both symbols stand behind dots, so their names tell them apart
    obtain ⟨i', hi', hnext', -⟩ := h.justified_of_quotient hq ht
    obtain ⟨γ, hv⟩ := h.viable_of_quotient hq hi
    obtain ⟨γ', hv'⟩ := h.viable_of_quotient hq hi'
    have hwell : t.symbol.WellNamed := Item.wellNamed_of_isOf hg hv'.isOf (Item.mem_of_next? hnext')
    have hwell' : t'.symbol.WellNamed := Item.wellNamed_of_isOf hg hv.isOf (Item.mem_of_next? hx)
    exact hwell.eq_of_name_eq hwell' hname
  · rw [htarget]
    exact hq.mem_image hadvance

theorem accessed_of_quotient {k u : Nat} {name : String} (he : b.Edge k name u) {i : Item}
    (hi : i ∈ b.rulesOf u) (hpos : 0 < i.dot) :
    ∃ y, i.rhs[i.dot - 1]? = some y ∧ y.name = name := by
  obtain ⟨j, v, hjv, -, rfl⟩ := (hq.edges k name u).1 he
  obtain ⟨w, hw, hfw, hiw⟩ := hq.exists_source hi
  have hfused : Fused a v w := by
    have hvu := hq.fused v (h.closed.target_mem hjv)
    have hwu := hq.fused w hw
    rw [hfw] at hwu
    exact hvu.trans hwu.symm
  have haccessed := (h.accessed_of_fused hfused name).1 ((h.accessed_of_edge hjv name).2 rfl)
  obtain ⟨κ, hκ, -, y, hy, hname⟩ := haccessed
  obtain rfl := Option.some.inj (hκ.symm.trans (h.head_of_dot_pos hiw hpos))
  exact ⟨y, hy, hname⟩

/-- **A quotient of an expansion holds what matters of it.** -/
theorem built (hg : g.WellFormed) : b.Built g first where
  closed := hq.closed h.closed
  start := h.exists_start_of_quotient hq
  start_dot := fun _ hi => h.start_dot_of_quotient hq hi
  not_edge_start := h.not_edge_start_of_quotient hq
  viable := fun _ _ hi => h.viable_of_quotient hq hi
  brings := fun _ _ hi _ hbrings => h.brings_of_quotient hq hi hbrings
  brought := fun _ _ hj hdot => h.brought_of_quotient hq hj hdot
  advances := fun _ _ hi _ hx => h.advances_of_quotient hq hg hi hx
  justified := fun _ _ ht => h.justified_of_quotient hq ht
  accessed := fun _ _ _ he _ hi hpos => h.accessed_of_quotient hq he hi hpos

end Quotient

end Expanded

/-- **Every well-formed grammar has its automaton**, and the last pass merges nothing. -/
theorem exists_build (hg : g.WellFormed) :
    ∃ first b, first.Exact g ∧ build g = .ok b ∧ b.passes.getLast? = some [] ∧
      b.automaton.Built g first := by
  obtain ⟨first, a, hfirst, hexpand, ha⟩ := exists_expand hg
  obtain ⟨passes, last, hmerge, hsettles, ⟨f, hquot⟩, -⟩ := exists_mergeAll ha.closed
  exact ⟨first, ⟨a.size, passes, last⟩, hfirst, build_of_mergeAll hexpand hmerge,
    getLast?_of_settles hsettles, ha.built hquot hg⟩

/-- The automaton of a well-formed grammar, without the account of its passes. -/
theorem exists_ofGrammar (hg : g.WellFormed) :
    ∃ first a, first.Exact g ∧ ofGrammar g = .ok a ∧ a.Built g first := by
  obtain ⟨first, b, hf, hbuild, -, hb⟩ := exists_build hg
  refine ⟨first, b.automaton, hf, ?_, hb⟩
  rw [ofGrammar, hbuild]
  rfl

/-! ## The symbols that states are entered over -/

/-- Symbols of transitions are well-named. -/
theorem Built.wellNamed_of_has (hb : b.Built g first) (hg : g.WellFormed) {k : Nat}
    {t : Transition} (ht : b.Has k t) : t.symbol.WellNamed := by
  obtain ⟨i, hi, hnext, -⟩ := hb.justified k t ht
  obtain ⟨γ, hv⟩ := hb.viable k i hi
  exact Item.wellNamed_of_isOf hg hv.isOf (Item.mem_of_next? hnext)

/-- Where a transition leads, the dots that are not in front are behind its symbol. -/
theorem Built.getElem?_of_has (hb : b.Built g first) (hg : g.WellFormed) {k : Nat}
    {t : Transition} (ht : b.Has k t) {i : Item} (hi : i ∈ b.rulesOf t.target) (hpos : 0 < i.dot) :
    i.rhs[i.dot - 1]? = some t.symbol := by
  obtain ⟨y, hy, hname⟩ := hb.accessed k t.symbol.name t.target ht.edge i hi hpos
  obtain ⟨γ, hv⟩ := hb.viable t.target i hi
  have hwell : y.WellNamed := Item.wellNamed_of_isOf hg hv.isOf (List.mem_of_getElem? hy)
  rw [hy, hwell.eq_of_name_eq (hb.wellNamed_of_has hg ht) hname]

/-- **A state is entered over one symbol only.** -/
theorem Built.symbol_eq_of_has (hb : b.Built g first) (hg : g.WellFormed) {k j : Nat}
    {t r : Transition} (ht : b.Has k t) (hr : b.Has j r) (htarget : t.target = r.target) :
    t.symbol = r.symbol := by
  obtain ⟨i, -, hnext, hadvance⟩ := hb.justified k t ht
  have hsymbol : i.advance.rhs[i.advance.dot - 1]? = some t.symbol := hnext
  rw [htarget] at hadvance
  have hget := hb.getElem?_of_has hg hr hadvance (Nat.succ_pos _)
  exact Option.some.inj (hsymbol.symm.trans hget)

/-! ## Paths -/

/-- A way from state zero over the symbols. -/
inductive Path (b : Automaton) : List Symbol → Nat → Prop where
  /-- Nothing is read. -/
  | start : Path b [] 0
  /-- One more symbol is read. -/
  | step {γ : List Symbol} {k : Nat} {t : Transition} (h : Path b γ k) (ht : b.Has k t) :
      Path b (γ ++ [t.symbol]) t.target

theorem path_nil_iff {k : Nat} : b.Path [] k ↔ k = 0 := by
  constructor
  · intro h
    generalize hγ : ([] : List Symbol) = γ at h
    cases h with
    | start => rfl
    | step _ _ => exact absurd hγ (by simp)
  · rintro rfl
    exact Path.start

theorem path_concat_iff {γ : List Symbol} {x : Symbol} {k : Nat} :
    b.Path (γ ++ [x]) k ↔ ∃ j, b.Path γ j ∧ b.Has j ⟨x, k⟩ := by
  constructor
  · intro h
    generalize hδ : γ ++ [x] = δ at h
    cases h with
    | start => exact absurd hδ (by simp)
    | @step γ' j t h ht =>
      obtain ⟨rfl, hx⟩ := List.append_inj' hδ rfl
      obtain rfl := List.singleton_inj.1 hx
      exact ⟨j, h, ht⟩
  · rintro ⟨j, h, ht⟩
    exact Path.step h ht

theorem Built.seed_mem (hb : b.Built g first) : g.seed ∈ b.rulesOf 0 := by
  obtain ⟨s, hs, hhead⟩ := hb.start
  exact mem_rulesOf_of_head? hs hhead

/-- **Where the items over a string are**: at the end of a path over the string. -/
theorem Built.exists_path (hb : b.Built g first) {γ : List Symbol} {i : Item}
    (h : Item.Viable g.augmented first g.seed γ i) : ∃ k, b.Path γ k ∧ i ∈ b.rulesOf k := by
  induction h with
  | start => exact ⟨0, Path.start, hb.seed_mem⟩
  | bring _ hbrings ih =>
    obtain ⟨k, hpath, hi⟩ := ih
    exact ⟨k, hpath, hb.brings k _ hi _ hbrings⟩
  | advance _ hnext ih =>
    obtain ⟨k, hpath, hi⟩ := ih
    obtain ⟨t, ht, rfl, hadvance⟩ := hb.advances k _ hi _ hnext
    exact ⟨t.target, Path.step hpath ht, hadvance⟩

end LRTables.Automaton
