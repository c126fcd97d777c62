import LRTables.Automaton.Merge
import LRTables.Proofs.Entries
import Mathlib.Tactic.Common

/-!
# Quotients of automata

Merging states makes a quotient: a map from the states to those that are kept, which
takes edges to edges and makes no others.  A state that is kept has its own items in
front and behind them those of the states that it stands for, each list once.  States
stand for each other only if they must: because they are reached over the same name from
states that stand for each other.

* `Automaton.Edge`, `Automaton.Closed` — edges by their names, and that they lead to states.
* `Automaton.Fused` — the states that must stand for each other.
* `Automaton.Quotient` — one automaton as the quotient of another.
* `Automaton.Quotient.absorb` — absorbing a state makes a quotient of a quotient.
* `Automaton.Quotient.setTransitions` — so does leaving out transitions without loss.
-/

namespace LRTables.Automaton

variable {a b : Automaton} {f : Nat → Nat}

/-! ## Edges -/

/-- Has the state of that number the transition? -/
def Has (a : Automaton) (k : Nat) (t : Transition) : Prop :=
  ∃ s, a.get? k = some s ∧ t ∈ s.transitions

/-- Is there a transition over a symbol of that name from one state to the other? -/
def Edge (a : Automaton) (k : Nat) (name : String) (u : Nat) : Prop :=
  ∃ t, a.Has k t ∧ t.symbol.name = name ∧ t.target = u

/-- Do all transitions lead to states? -/
def Closed (a : Automaton) : Prop := ∀ k t, a.Has k t → t.target ∈ a.keys

theorem Has.mem_keys {k : Nat} {t : Transition} (h : a.Has k t) : k ∈ a.keys := by
  obtain ⟨s, hs, -⟩ := h
  exact OrderedMap.mem_keys_of_get? hs

theorem Has.edge {k : Nat} {t : Transition} (h : a.Has k t) : a.Edge k t.symbol.name t.target :=
  ⟨t, h, rfl, rfl⟩

theorem Edge.source_mem {k u : Nat} {name : String} (h : a.Edge k name u) : k ∈ a.keys := by
  obtain ⟨t, ht, -, -⟩ := h
  exact ht.mem_keys

theorem Closed.target_mem (ha : a.Closed) {k u : Nat} {name : String} (h : a.Edge k name u) :
    u ∈ a.keys := by
  obtain ⟨t, ht, -, rfl⟩ := h
  exact ha k t ht

/-- The states that must stand for each other: the least equivalence that holds of two
states which are reached over one name from states of which it holds. -/
inductive Fused (a : Automaton) : Nat → Nat → Prop where
  /-- A state stands for itself. -/
  | refl (k : Nat) : Fused a k k
  /-- Standing for each other is mutual. -/
  | symm {k j : Nat} (h : Fused a k j) : Fused a j k
  /-- Standing for each other passes on. -/
  | trans {k j i : Nat} (h : Fused a k j) (h' : Fused a j i) : Fused a k i
  /-- What is reached over one name stands for each other. -/
  | step {k j u v : Nat} {name : String} (h : Fused a k j) (hu : a.Edge k name u)
      (hv : a.Edge j name v) : Fused a u v

/-! ## Quotients -/

/-- The items of a state, none if it is not there. -/
def rulesOf (a : Automaton) (k : Nat) : List Item := ((a.get? k).map State.rules).getD []

/-- Are these, each once, the states other than `k` that go to `k`? -/
def Stands (a : Automaton) (f : Nat → Nat) (k : Nat) (others : List Nat) : Prop :=
  others.Nodup ∧ ∀ j, j ∈ others ↔ j ∈ a.keys ∧ f j = k ∧ j ≠ k

/-- Is one automaton the quotient of another under the map? -/
structure Quotient (a b : Automaton) (f : Nat → Nat) : Prop where
  /-- The states that are kept are those that the map leaves where they are, in their order. -/
  keys : b.keys = a.keys.filter fun k => f k = k
  /-- Every state goes to one that is kept. -/
  maps : ∀ k ∈ a.keys, f k ∈ b.keys
  /-- A state has its own items, and behind them the lists of those it stands for. -/
  rules : ∀ k ∈ b.keys, ∃ others, Stands a f k others ∧
    b.rulesOf k = a.rulesOf k ++ others.flatMap a.rulesOf
  /-- The edges are the images of edges. -/
  edges : ∀ k name u, b.Edge k name u ↔ ∃ j v, a.Edge j name v ∧ f j = k ∧ f v = u
  /-- Transitions keep their symbols. -/
  symbols : ∀ k t, b.Has k t → ∃ j t', a.Has j t' ∧ f j = k ∧ t'.symbol = t.symbol ∧
    f t'.target = t.target
  /-- Only states that must stand for each other do. -/
  fused : ∀ k ∈ a.keys, Fused a k (f k)

/-- An automaton is its own quotient. -/
theorem Quotient.refl (a : Automaton) : Quotient a a id := by
  refine ⟨by simp, fun k hk => hk, fun k _ => ⟨[], ⟨by simp, by simp⟩, by simp⟩, ?_, ?_,
    fun k _ => Fused.refl k⟩
  · intro k name u
    simp
  · intro k t ht
    exact ⟨k, t, ht, rfl, rfl, rfl⟩

namespace Quotient

theorem mem_keys_iff (h : Quotient a b f) (k : Nat) : k ∈ b.keys ↔ k ∈ a.keys ∧ f k = k := by
  rw [h.keys, List.mem_filter, decide_eq_true_eq]

theorem fixed (h : Quotient a b f) {k : Nat} (hk : k ∈ b.keys) : f k = k :=
  ((h.mem_keys_iff k).1 hk).2

/-- The items of a state are those of the states it stands for. -/
theorem mem_rulesOf_iff (h : Quotient a b f) {k : Nat} (hk : k ∈ b.keys) (i : Item) :
    i ∈ b.rulesOf k ↔ ∃ j ∈ a.keys, f j = k ∧ i ∈ a.rulesOf j := by
  obtain ⟨others, ⟨-, hothers⟩, hrules⟩ := h.rules k hk
  rw [hrules, List.mem_append, List.mem_flatMap]
  constructor
  · rintro (hi | ⟨j, hj, hi⟩)
    · exact ⟨k, ((h.mem_keys_iff k).1 hk).1, h.fixed hk, hi⟩
    · exact ⟨j, ((hothers j).1 hj).1, ((hothers j).1 hj).2.1, hi⟩
  · rintro ⟨j, hj, hfj, hi⟩
    by_cases hjk : j = k
    · exact Or.inl (hjk ▸ hi)
    · exact Or.inr ⟨j, (hothers j).2 ⟨hj, hfj, hjk⟩, hi⟩

/-- A quotient with as many states leaves every state where it is. -/
theorem fixed_of_size (h : Quotient a b f) (hsize : b.size = a.size) : ∀ k ∈ a.keys, f k = k := by
  intro k hk
  have hlen : (a.keys.filter fun k => f k = k).length = a.keys.length := by
    rw [← h.keys, ← OrderedMap.size_eq_length_keys, ← OrderedMap.size_eq_length_keys, hsize]
  have := List.length_filter_eq_length_iff.1 hlen k hk
  exact of_decide_eq_true this

/-- Only states that must stand for each other go to the same state. -/
theorem fused_of_eq (h : Quotient a b f) {k j : Nat} (hk : k ∈ a.keys) (hj : j ∈ a.keys)
    (heq : f k = f j) : Fused a k j := by
  have hkf : Fused a k (f k) := h.fused k hk
  have hjf : Fused a j (f j) := h.fused j hj
  rw [heq] at hkf
  exact hkf.trans hjf.symm

/-- A quotient of an automaton whose transitions lead to states is another. -/
theorem closed (h : Quotient a b f) (ha : a.Closed) : b.Closed := by
  intro k t ht
  obtain ⟨j, t', ht', -, -, hv⟩ := h.symbols k t ht
  rw [← hv]
  exact h.maps _ (ha j t' ht')

/-- Two edges of a quotient over one name lead to states that must stand for each other. -/
theorem fused_of_edges (h : Quotient a b f) (ha : a.Closed) {k u v : Nat} {name : String}
    (hu : b.Edge k name u) (hv : b.Edge k name v) : Fused a u v := by
  obtain ⟨j, u', hju, rfl, rfl⟩ := (h.edges k name u).1 hu
  obtain ⟨i, v', hiv, hij, rfl⟩ := (h.edges _ name v).1 hv
  have hfused : Fused a j i := by
    have hi := h.fused i hiv.source_mem
    rw [hij] at hi
    exact (h.fused j hju.source_mem).trans hi.symm
  have huv : Fused a u' v' := Fused.step hfused hju hiv
  exact ((h.fused u' (ha.target_mem hju)).symm.trans huv).trans (h.fused v' (ha.target_mem hiv))

end Quotient

/-! ## Absorbing a state -/

/-- Where a state goes when `keep` absorbs `lose`. -/
def redirect (keep lose k : Nat) : Nat := if k = lose then keep else k

theorem redirect_self (keep lose : Nat) : redirect keep lose lose = keep := if_pos rfl

theorem redirect_of_ne {keep lose k : Nat} (h : k ≠ lose) : redirect keep lose k = k := if_neg h

/-- The states that stay where they are when `keep` absorbs `lose`. -/
theorem redirect_fixed_iff {keep lose j : Nat} (hne : keep ≠ lose) (hkeep : f keep = keep) :
    redirect keep lose (f j) = j ↔ f j = j ∧ j ≠ lose := by
  by_cases hj : f j = lose
  · rw [hj, redirect_self]
    constructor
    · rintro rfl
      exact absurd (hkeep.symm.trans hj) hne
    · rintro ⟨hfj, hjl⟩
      exact absurd hfj.symm hjl
  · rw [redirect_of_ne hj]
    constructor
    · intro hfj
      exact ⟨hfj, fun hjl => hj (hfj.trans hjl)⟩
    · rintro ⟨hfj, -⟩
      exact hfj

/-- The states that the absorbed one stood for, and itself, come behind the others. -/
theorem Stands.absorb {keep lose : Nat} {mine its : List Nat} (hmine : Stands a f keep mine)
    (hits : Stands a f lose its) (hne : keep ≠ lose) (hkeep : f keep = keep) (hlose : f lose = lose)
    (hmem : lose ∈ a.keys) : Stands a (redirect keep lose ∘ f) keep (mine ++ lose :: its) := by
  obtain ⟨hmine, hminemem⟩ := hmine
  obtain ⟨hits, hitsmem⟩ := hits
  refine ⟨List.nodup_append.2 ⟨hmine, List.nodup_cons.2 ⟨?_, hits⟩, ?_⟩, fun i => ?_⟩
  · intro hl
    exact ((hitsmem lose).1 hl).2.2 rfl
  · rintro x hx y hy rfl
    have hfx : f x = keep := ((hminemem x).1 hx).2.1
    rcases List.mem_cons.1 hy with rfl | hy
    · exact hne (hfx.symm.trans hlose)
    · exact hne (hfx.symm.trans ((hitsmem x).1 hy).2.1)
  · rw [List.mem_append, List.mem_cons, hminemem, hitsmem, Function.comp]
    constructor
    · rintro (⟨hi, hfi, hik⟩ | rfl | ⟨hi, hfi, hil⟩)
      · exact ⟨hi, by rw [hfi, redirect_of_ne hne], hik⟩
      · exact ⟨hmem, by rw [hlose, redirect_self], fun e => hne e.symm⟩
      · refine ⟨hi, by rw [hfi, redirect_self], ?_⟩
        rintro rfl
        exact hne (hkeep.symm.trans hfi)
    · rintro ⟨hi, hfi, hik⟩
      by_cases hil : f i = lose
      · by_cases hil' : i = lose
        · exact Or.inr (Or.inl hil')
        · exact Or.inr (Or.inr ⟨hi, hil, hil'⟩)
      · rw [redirect_of_ne hil] at hfi
        exact Or.inl ⟨hi, hfi, hik⟩

/-- Any other state stands for what it stood for. -/
theorem Stands.absorb_of_ne {keep lose k : Nat} {others : List Nat} (h : Stands a f k others)
    (hkeep : k ≠ keep) (hlose : k ≠ lose) : Stands a (redirect keep lose ∘ f) k others := by
  refine ⟨h.1, fun i => ?_⟩
  rw [h.2, Function.comp]
  by_cases hil : f i = lose
  · rw [hil, redirect_self]
    constructor
    · rintro ⟨-, hl, -⟩
      exact absurd hl.symm hlose
    · rintro ⟨-, hk, -⟩
      exact absurd hk.symm hkeep
  · rw [redirect_of_ne hil]

theorem retarget_target (keep lose : Nat) (t : Transition) :
    (t.retarget keep lose).target = redirect keep lose t.target := by
  unfold Transition.retarget redirect
  split <;> rfl

theorem retarget_symbol (keep lose : Nat) (t : Transition) :
    (t.retarget keep lose).symbol = t.symbol := by
  unfold Transition.retarget
  split <;> rfl

section Absorb

variable {keep lose : Nat} {s t : State}

/-- The automaton after absorbing, when both states are there. -/
def absorbed (b : Automaton) (keep lose : Nat) (s t : State) : Automaton :=
  ((b.insert keep (s.append t)).mapValues (State.retarget keep lose)).erase lose

theorem absorb_of_get? (hs : b.get? keep = some s) (ht : b.get? lose = some t) :
    b.absorb keep lose = .ok (b.absorbed keep lose s t) := by
  simp only [absorb, hs, ht, absorbed]

theorem get?_absorbed (k : Nat) :
    (b.absorbed keep lose s t).get? k =
      if lose = k then none
      else if keep = k then some ((s.append t).retarget keep lose)
      else (b.get? k).map (State.retarget keep lose) := by
  rw [absorbed, OrderedMap.get?_erase, OrderedMap.get?_mapValues, OrderedMap.get?_insert]
  by_cases hk : keep = k <;> simp [hk]

theorem keys_absorbed (hs : b.get? keep = some s) :
    (b.absorbed keep lose s t).keys = b.keys.filter fun k => k ≠ lose := by
  rw [absorbed, OrderedMap.keys_erase, OrderedMap.keys_mapValues,
    OrderedMap.keys_insert_of_get? hs]

/-- Absorbing takes one state away. -/
theorem size_absorbed (hs : b.get? keep = some s) (ht : b.get? lose = some t) :
    (b.absorbed keep lose s t).size + 1 = b.size := by
  have hkeys : ((b.insert keep (s.append t)).mapValues (State.retarget keep lose)).keys =
      b.keys := by
    rw [OrderedMap.keys_mapValues, OrderedMap.keys_insert_of_get? hs]
  have hmem : lose ∈ ((b.insert keep (s.append t)).mapValues (State.retarget keep lose)).keys := by
    rw [hkeys]
    exact OrderedMap.mem_keys_of_get? ht
  rw [absorbed, OrderedMap.size_erase hmem, OrderedMap.size_eq_length_keys, hkeys,
    ← OrderedMap.size_eq_length_keys]

/-- The transitions after absorbing are those before, sent elsewhere. -/
theorem has_absorbed_iff (hne : keep ≠ lose) (hs : b.get? keep = some s)
    (ht : b.get? lose = some t) (k : Nat) (r : Transition) :
    (b.absorbed keep lose s t).Has k r ↔
      ∃ j r', b.Has j r' ∧ redirect keep lose j = k ∧ r'.retarget keep lose = r := by
  unfold Has redirect
  rw [get?_absorbed]
  constructor
  · rintro ⟨st, hst, hr⟩
    by_cases hl : lose = k
    · simp [hl] at hst
    · rw [if_neg hl] at hst
      by_cases hk : keep = k
      · rw [if_pos hk, Option.some.injEq] at hst
        subst hst
        simp only [State.retarget, State.append, List.mem_map, List.mem_append] at hr
        obtain ⟨r', hr' | hr', rfl⟩ := hr
        · exact ⟨keep, r', ⟨s, hs, hr'⟩, by rw [if_neg hne, hk], rfl⟩
        · exact ⟨lose, r', ⟨t, ht, hr'⟩, by rw [if_pos rfl, hk], rfl⟩
      · rw [if_neg hk, Option.map_eq_some_iff] at hst
        obtain ⟨st', hst', rfl⟩ := hst
        obtain ⟨r', hr', rfl⟩ := List.mem_map.1 hr
        have hkl : ¬ k = lose := fun e => hl e.symm
        exact ⟨k, r', ⟨st', hst', hr'⟩, by rw [if_neg hkl], rfl⟩
  · rintro ⟨j, r', ⟨st, hst, hr'⟩, hj, rfl⟩
    by_cases hjl : j = lose
    · subst hjl
      rw [if_pos rfl] at hj
      subst hj
      obtain rfl := Option.some.inj (ht.symm.trans hst)
      have hne' : ¬ j = keep := fun e => hne e.symm
      refine ⟨_, by rw [if_neg hne', if_pos rfl], ?_⟩
      exact List.mem_map.2 ⟨r', List.mem_append_right _ hr', rfl⟩
    · rw [if_neg hjl] at hj
      subst hj
      have hlj : ¬ lose = j := fun e => hjl e.symm
      rw [if_neg hlj]
      by_cases hk : keep = j
      · subst hk
        obtain rfl := Option.some.inj (hs.symm.trans hst)
        refine ⟨_, by rw [if_pos rfl], ?_⟩
        exact List.mem_map.2 ⟨r', List.mem_append_left _ hr', rfl⟩
      · refine ⟨st.retarget keep lose, by rw [if_neg hk, hst]; rfl, ?_⟩
        exact List.mem_map.2 ⟨r', hr', rfl⟩

/-- The edges after absorbing are those before, sent elsewhere. -/
theorem edge_absorbed_iff (hne : keep ≠ lose) (hs : b.get? keep = some s)
    (ht : b.get? lose = some t) (k : Nat) (name : String) (u : Nat) :
    (b.absorbed keep lose s t).Edge k name u ↔
      ∃ j v, b.Edge j name v ∧ redirect keep lose j = k ∧ redirect keep lose v = u := by
  unfold Edge
  constructor
  · rintro ⟨r, hr, rfl, rfl⟩
    obtain ⟨j, r', hr', hj, rfl⟩ := (has_absorbed_iff hne hs ht k r).1 hr
    exact ⟨j, r'.target, ⟨r', hr', by rw [retarget_symbol], rfl⟩, hj, (retarget_target ..).symm⟩
  · rintro ⟨j, v, ⟨r', hr', rfl, rfl⟩, hj, rfl⟩
    refine ⟨r'.retarget keep lose, (has_absorbed_iff hne hs ht k _).2 ⟨j, r', hr', hj, rfl⟩, ?_, ?_⟩
    · rw [retarget_symbol]
    · rw [retarget_target]

theorem rulesOf_absorbed (hs : b.get? keep = some s) (ht : b.get? lose = some t) {k : Nat}
    (hk : k ≠ lose) : (b.absorbed keep lose s t).rulesOf k =
      if k = keep then b.rulesOf keep ++ b.rulesOf lose else b.rulesOf k := by
  have hk' : ¬ lose = k := fun e => hk e.symm
  unfold rulesOf
  rw [get?_absorbed, if_neg hk', hs, ht]
  by_cases hkeep : keep = k
  · rw [if_pos hkeep, if_pos hkeep.symm]
    rfl
  · have hkeep' : ¬ k = keep := fun e => hkeep e.symm
    rw [if_neg hkeep, if_neg hkeep', Option.map_map]
    rfl

/-- The list of a state after absorbing. -/
theorem Quotient.rules_absorbed (h : Quotient a b f) (hne : keep ≠ lose)
    (hs : b.get? keep = some s) (ht : b.get? lose = some t) {j : Nat} (hj : j ∈ b.keys)
    (hjl : j ≠ lose) : ∃ others, Stands a (redirect keep lose ∘ f) j others ∧
      (b.absorbed keep lose s t).rulesOf j = a.rulesOf j ++ others.flatMap a.rulesOf := by
  have hkeep : keep ∈ b.keys := OrderedMap.mem_keys_of_get? hs
  have hlose : lose ∈ b.keys := OrderedMap.mem_keys_of_get? ht
  rw [rulesOf_absorbed hs ht hjl]
  by_cases hjk : j = keep
  · subst hjk
    obtain ⟨mine, hmine, hminerules⟩ := h.rules j hkeep
    obtain ⟨its, hits, hitsrules⟩ := h.rules lose hlose
    refine ⟨mine ++ lose :: its, hmine.absorb hits hne (h.fixed hkeep) (h.fixed hlose)
      ((h.mem_keys_iff lose).1 hlose).1, ?_⟩
    rw [if_pos rfl, hminerules, hitsrules, List.flatMap_append, List.flatMap_cons]
    simp only [List.append_assoc]
  · obtain ⟨others, hothers, hrules⟩ := h.rules j hj
    rw [if_neg hjk]
    exact ⟨others, hothers.absorb_of_ne hjk hjl, hrules⟩

/-- **Absorbing a state makes a quotient of a quotient**, if the two states are reached
over one name from one state. -/
theorem Quotient.absorb (h : Quotient a b f) (ha : a.Closed) (hne : keep ≠ lose)
    (hs : b.get? keep = some s) (ht : b.get? lose = some t) {k : Nat} {name : String}
    (hkeep : b.Edge k name keep) (hlose : b.Edge k name lose) :
    Quotient a (b.absorbed keep lose s t) (redirect keep lose ∘ f) := by
  have hkeepmem : keep ∈ b.keys := OrderedMap.mem_keys_of_get? hs
  have hmem : ∀ k, k ∈ (b.absorbed keep lose s t).keys ↔ k ∈ b.keys ∧ k ≠ lose := by
    intro k
    rw [keys_absorbed hs, List.mem_filter, decide_eq_true_eq]
  refine ⟨?_, ?_, ?_, ?_, ?_, ?_⟩
  · rw [keys_absorbed hs, h.keys, List.filter_filter]
    refine List.filter_congr fun j _ => ?_
    rw [← Bool.decide_and, decide_eq_decide, and_comm]
    exact (redirect_fixed_iff hne (h.fixed hkeepmem)).symm
  · intro j hj
    rw [hmem, Function.comp]
    by_cases hfj : f j = lose
    · rw [hfj, redirect_self]
      exact ⟨hkeepmem, hne⟩
    · rw [redirect_of_ne hfj]
      exact ⟨h.maps j hj, hfj⟩
  · intro j hj
    obtain ⟨hjb, hjl⟩ := (hmem j).1 hj
    exact h.rules_absorbed hne hs ht hjb hjl
  · intro j x u
    rw [edge_absorbed_iff hne hs ht]
    constructor
    · rintro ⟨j', v', he, hj', hv'⟩
      obtain ⟨i, v, he', rfl, rfl⟩ := (h.edges j' x v').1 he
      exact ⟨i, v, he', hj', hv'⟩
    · rintro ⟨i, v, he, hi, hv⟩
      exact ⟨f i, f v, (h.edges _ _ _).2 ⟨i, v, he, rfl, rfl⟩, hi, hv⟩
  · intro j r hr
    obtain ⟨j', r', hr', hj', rfl⟩ := (has_absorbed_iff hne hs ht j r).1 hr
    obtain ⟨i, r'', hr'', rfl, hsymbol, htarget⟩ := h.symbols j' r' hr'
    refine ⟨i, r'', hr'', hj', ?_, ?_⟩
    · rw [retarget_symbol, hsymbol]
    · rw [retarget_target, ← htarget, Function.comp]
  · intro j hj
    have hj' := h.fused j hj
    rw [Function.comp]
    by_cases hfj : f j = lose
    · rw [hfj] at hj'
      rw [hfj, redirect_self]
      exact hj'.trans (h.fused_of_edges ha hlose hkeep)
    · rw [redirect_of_ne hfj]
      exact hj'

end Absorb

/-! ## Leaving out transitions -/

theorem get?_setTransitions (b : Automaton) (index k : Nat) (ts : List Transition) :
    (b.setTransitions index ts).get? k =
      if index = k then (b.get? k).map fun s => { s with transitions := ts } else b.get? k :=
  OrderedMap.get?_modify ..

theorem keys_setTransitions (b : Automaton) (index : Nat) (ts : List Transition) :
    (b.setTransitions index ts).keys = b.keys :=
  OrderedMap.keys_modify ..

theorem rulesOf_setTransitions (b : Automaton) (index k : Nat) (ts : List Transition) :
    (b.setTransitions index ts).rulesOf k = b.rulesOf k := by
  unfold rulesOf
  rw [get?_setTransitions]
  split
  · rw [Option.map_map]
    rfl
  · rfl

theorem has_setTransitions_iff {index : Nat} {s : State} (hs : b.get? index = some s)
    (ts : List Transition) (k : Nat) (t : Transition) :
    (b.setTransitions index ts).Has k t ↔ (k = index ∧ t ∈ ts) ∨ (k ≠ index ∧ b.Has k t) := by
  unfold Has
  rw [get?_setTransitions]
  by_cases hk : index = k
  · subst hk
    simp [hs]
  · have hk' : ¬ k = index := fun e => hk e.symm
    simp [hk, hk']

/-- **Leaving out transitions without loss keeps a quotient**: every transition that was
there has one like it that stays. -/
theorem Quotient.setTransitions (h : Quotient a b f) {index : Nat} {s : State}
    (hs : b.get? index = some s) {ts : List Transition} (hsub : ∀ t ∈ ts, t ∈ s.transitions)
    (hsame : ∀ t ∈ s.transitions, ∃ r ∈ ts, r.symbol.name = t.symbol.name ∧ r.target = t.target) :
    Quotient a (b.setTransitions index ts) f := by
  have hhas : ∀ k t, (b.setTransitions index ts).Has k t → b.Has k t := by
    intro k t ht
    rcases (has_setTransitions_iff hs ts k t).1 ht with ⟨rfl, hmem⟩ | ⟨-, hb⟩
    · exact ⟨s, hs, hsub t hmem⟩
    · exact hb
  refine ⟨?_, ?_, ?_, ?_, ?_, h.fused⟩
  · rw [keys_setTransitions, h.keys]
  · intro k hk
    rw [keys_setTransitions]
    exact h.maps k hk
  · intro k hk
    rw [keys_setTransitions] at hk
    rw [rulesOf_setTransitions]
    exact h.rules k hk
  · intro k name u
    rw [← h.edges]
    constructor
    · rintro ⟨t, ht, hname, hu⟩
      exact ⟨t, hhas k t ht, hname, hu⟩
    · rintro ⟨t, ht, rfl, rfl⟩
      by_cases hk : k = index
      · subst hk
        obtain ⟨s', hs', hts⟩ := ht
        obtain rfl := Option.some.inj (hs.symm.trans hs')
        obtain ⟨r, hr, hname, htarget⟩ := hsame t hts
        exact ⟨r, (has_setTransitions_iff hs ts k r).2 (Or.inl ⟨rfl, hr⟩), hname, htarget⟩
      · exact ⟨t, (has_setTransitions_iff hs ts k t).2 (Or.inr ⟨hk, ht⟩), rfl, rfl⟩
  · intro k t ht
    exact h.symbols k t (hhas k t ht)

end LRTables.Automaton
