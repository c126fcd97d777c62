import LRTables.Automaton.Build
import LRTables.Proofs.Automaton.Quotient
import LRTables.Proofs.Rounds

/-!
# Merge passes go through

Over an automaton whose transitions lead to states a merge pass misses no state, and what
it leaves is a quotient.  The invariant is that of the way through one list: the list is
that of the state as long as the state is there, everything in it is an edge of the state
or of the one that has absorbed it, and every merge is paid for by one state.

* `MergeScan.Inv` — the invariant.
* `MergeScan.exists_step` — a step goes through and keeps it.
* `Automaton.exists_mergePass` — so does a pass.
* `Automaton.Settles` — the passes over an automaton, until one merges nothing.
* `Automaton.exists_mergeAll` — the passes come to an end, and there are few of them.
* `Automaton.mergePass_quotient` — a pass is exactly a quotient.
-/

namespace LRTables

variable {a : Automaton} {index total : Nat}

namespace Automaton

/-- Two quotients under one map have the same edges. -/
theorem Quotient.edge_iff {b c : Automaton} {f : Nat → Nat} (hb : Quotient a b f)
    (hc : Quotient a c f) (k : Nat) (name : String) (u : Nat) :
    b.Edge k name u ↔ c.Edge k name u :=
  (hb.edges k name u).trans (hc.edges k name u).symm

theorem size_setTransitions (b : Automaton) (index : Nat) (ts : List Transition) :
    (b.setTransitions index ts).size = b.size := by
  rw [OrderedMap.size_eq_length_keys, keys_setTransitions, ← OrderedMap.size_eq_length_keys]

theorem setTransitions_of_none {b : Automaton} {index : Nat} (h : b.get? index = none)
    (ts : List Transition) : b.setTransitions index ts = b :=
  OrderedMap.modify_of_none h

end Automaton

namespace MergeScan

variable {s : MergeScan} {t : Transition} {rest : List Transition}

/-- The invariant of the way through the transitions of the state `index`. -/
structure Inv (a : Automaton) (index total : Nat) (s : MergeScan) : Prop where
  /-- The automaton is a quotient, and what lies behind and ahead are edges of what the
  state has become. -/
  quotient : ∃ f, Automaton.Quotient a s.automaton f ∧
    ∀ t ∈ s.behind ++ s.ahead, s.automaton.Edge (f index) t.symbol.name t.target
  /-- The list is that of the state, if the state is there. -/
  live : ∀ st, s.automaton.get? index = some st → st.transitions = s.behind ++ s.ahead
  /-- What is remembered lies behind. -/
  remembered : ∀ t ∈ s.remembered, t ∈ s.behind
  /-- Every merge has taken one state away. -/
  account : s.merges.length + s.automaton.size = total

/-- Remembering a transition keeps the invariant. -/
theorem Inv.remember (h : s.Inv a index total) (hahead : s.ahead = t :: rest) :
    (s.remember t rest).Inv a index total := by
  have hlist : (s.behind ++ [t]) ++ rest = s.behind ++ s.ahead := by simp [hahead]
  refine ⟨?_, ?_, ?_, h.account⟩
  · obtain ⟨f, hf, hedges⟩ := h.quotient
    refine ⟨f, hf, fun r hr => hedges r ?_⟩
    rwa [← hlist]
  · intro st hst
    rw [h.live st hst, ← hlist]
    rfl
  · intro r hr
    rcases List.mem_append.1 hr with hr | hr
    · exact List.mem_append_left _ (h.remembered r hr)
    · exact List.mem_append_right _ hr

/-- Deleting a transition that has one like it behind keeps the invariant. -/
theorem Inv.delete (h : s.Inv a index total) (hahead : s.ahead = t :: rest)
    (hlike : ∃ r ∈ s.behind, r.symbol.name = t.symbol.name ∧ r.target = t.target) :
    (s.delete index rest).Inv a index total := by
  have hlist : (s.behind ++ rest.take 1) ++ rest.drop 1 = s.behind ++ rest := by
    rw [List.append_assoc, List.take_append_drop]
  have hsub : ∀ r ∈ s.behind ++ rest, r ∈ s.behind ++ s.ahead := by
    intro r hr
    rw [hahead]
    rcases List.mem_append.1 hr with hr | hr
    · exact List.mem_append_left _ hr
    · exact List.mem_append_right _ (List.mem_cons_of_mem _ hr)
  obtain ⟨f, hf, hedges⟩ := h.quotient
  have hf' : Automaton.Quotient a (s.automaton.setTransitions index (s.behind ++ rest)) f := by
    cases hget : s.automaton.get? index with
    | none =>
      rw [Automaton.setTransitions_of_none hget]
      exact hf
    | some st =>
      have hst := h.live st hget
      refine hf.setTransitions hget (fun r hr => ?_) (fun r hr => ?_)
      · rw [hst]
        exact hsub r hr
      · rw [hst, hahead] at hr
        rcases List.mem_append.1 hr with hr | hr
        · exact ⟨r, List.mem_append_left _ hr, rfl, rfl⟩
        · rcases List.mem_cons.1 hr with rfl | hr
          · obtain ⟨q, hq, hname, htarget⟩ := hlike
            exact ⟨q, List.mem_append_left _ hq, hname, htarget⟩
          · exact ⟨r, List.mem_append_right _ hr, rfl, rfl⟩
  refine ⟨⟨f, hf', fun r hr => ?_⟩, ?_, ?_, ?_⟩
  · refine (hf.edge_iff hf' _ _ _).1 (hedges r (hsub r ?_))
    rw [← hlist]
    exact hr
  · intro st hst
    simp only [MergeScan.delete, Automaton.get?_setTransitions, if_true] at hst ⊢
    obtain ⟨st', -, rfl⟩ := Option.map_eq_some_iff.1 hst
    exact hlist.symm
  · intro r hr
    exact List.mem_append_left _ (h.remembered r hr)
  · simp only [MergeScan.delete, Automaton.size_setTransitions]
    exact h.account

/-- What comes to the end of the list when the target of `r` absorbs the state `lose`. -/
def gained (index : Nat) (r : Transition) (lose : State) : List Transition :=
  if r.target = index then lose.transitions else []

/-- The scan after the target of `r` has absorbed that of `t`. -/
def afterAbsorb (s : MergeScan) (index : Nat) (r t : Transition) (keep lose : State) :
    MergeScan where
  automaton := s.automaton.absorbed r.target t.target keep lose
  merges := ⟨index, t.symbol.name, t.target, r.target⟩ :: s.merges
  behind := s.behind.map (Transition.retarget r.target t.target)
  remembered := s.remembered.map (Transition.retarget r.target t.target)
  ahead := (s.ahead ++ gained index r lose).map (Transition.retarget r.target t.target)

section Absorb

variable {r : Transition} {keep lose : State}

theorem absorb_of_get? (hkeep : s.automaton.get? r.target = some keep)
    (hlose : s.automaton.get? t.target = some lose) :
    s.absorb index r t = .ok (s.afterAbsorb index r t keep lose) := by
  simp only [MergeScan.absorb, Automaton.absorb_of_get? hkeep hlose, hlose, afterAbsorb, gained,
    Option.map_some, Option.getD_some]

/-- The list stays that of the state. -/
theorem Inv.live_absorb (h : s.Inv a index total) (hkeep : s.automaton.get? r.target = some keep)
    {st : State} (hst : (s.automaton.absorbed r.target t.target keep lose).get? index = some st) :
    st.transitions = s.behind.map (Transition.retarget r.target t.target) ++
      (s.ahead ++ gained index r lose).map (Transition.retarget r.target t.target) := by
  rw [Automaton.get?_absorbed] at hst
  split at hst
  · exact absurd hst (by simp)
  · by_cases hk : r.target = index
    · rw [if_pos hk, Option.some.injEq] at hst
      rw [hk] at hkeep
      subst hst
      simp [State.retarget, State.append, h.live keep hkeep, gained, hk]
    · rw [if_neg hk] at hst
      obtain ⟨st', hst', rfl⟩ := Option.map_eq_some_iff.1 hst
      simp [State.retarget, h.live st' hst', gained, hk]

/-- The list stays one of edges of what the state has become. -/
theorem edge_absorb {f : Nat → Nat} (hf : Automaton.Quotient a s.automaton f)
    (hedges : ∀ q ∈ s.behind ++ s.ahead, s.automaton.Edge (f index) q.symbol.name q.target)
    (hne : r.target ≠ t.target) (hkeep : s.automaton.get? r.target = some keep)
    (hlose : s.automaton.get? t.target = some lose) {q : Transition}
    (hq : q ∈ s.behind ++ (s.ahead ++ gained index r lose)) :
    (s.automaton.absorbed r.target t.target keep lose).Edge
      (Automaton.redirect r.target t.target (f index))
      (q.retarget r.target t.target).symbol.name (q.retarget r.target t.target).target := by
  have hold : q ∈ s.behind ++ s.ahead ∨ q ∈ gained index r lose := by
    rw [← List.append_assoc] at hq
    exact List.mem_append.1 hq
  rcases hold with hq | hq
  · rw [Automaton.retarget_symbol, Automaton.retarget_target]
    exact (Automaton.edge_absorbed_iff hne hkeep hlose _ _ _).2 ⟨_, _, hedges q hq, rfl, rfl⟩
  · unfold gained at hq
    split at hq
    · rename_i hindex
      have hfix : f index = r.target := by
        rw [← hindex]
        exact hf.fixed (OrderedMap.mem_keys_of_get? hkeep)
      rw [hfix, Automaton.redirect_of_ne hne]
      refine Automaton.Has.edge ((Automaton.has_absorbed_iff hne hkeep hlose _ _).2 ?_)
      exact ⟨t.target, q, ⟨lose, hlose, hq⟩, Automaton.redirect_self .., rfl⟩
    · exact absurd hq (by simp)

end Absorb

/-- Absorbing the target of the next transition goes through and keeps the invariant. -/
theorem Inv.exists_absorb (ha : a.Closed) (h : s.Inv a index total) {r : Transition}
    (ht : t ∈ s.ahead) (hr : r ∈ s.behind) (hname : r.symbol.name = t.symbol.name)
    (hne : r.target ≠ t.target) :
    ∃ keep lose, s.absorb index r t = .ok (s.afterAbsorb index r t keep lose) ∧
      (s.afterAbsorb index r t keep lose).Inv a index total := by
  obtain ⟨f, hf, hedges⟩ := h.quotient
  have hredge : s.automaton.Edge (f index) t.symbol.name r.target := by
    rw [← hname]
    exact hedges r (List.mem_append_left _ hr)
  have htedge : s.automaton.Edge (f index) t.symbol.name t.target :=
    hedges t (List.mem_append_right _ ht)
  obtain ⟨keep, hkeep⟩ := (OrderedMap.mem_keys_iff _ _).1 ((hf.closed ha).target_mem hredge)
  obtain ⟨lose, hlose⟩ := (OrderedMap.mem_keys_iff _ _).1 ((hf.closed ha).target_mem htedge)
  refine ⟨keep, lose, absorb_of_get? hkeep hlose, ⟨⟨_, hf.absorb ha hne hkeep hlose hredge htedge,
    fun q hq => ?_⟩, fun st hst => h.live_absorb hkeep hst, fun q hq => ?_, ?_⟩⟩
  · rw [afterAbsorb, ← List.map_append] at hq
    obtain ⟨q', hq', rfl⟩ := List.mem_map.1 hq
    exact edge_absorb hf hedges hne hkeep hlose hq'
  · obtain ⟨q', hq', rfl⟩ := List.mem_map.1 hq
    exact List.mem_map.2 ⟨q', h.remembered q' hq', rfl⟩
  · have hsize := Automaton.size_absorbed hkeep hlose
    have haccount := h.account
    simp only [afterAbsorb, List.length_cons]
    omega

/-- What is remembered over a name lies behind, and is over that name. -/
theorem Inv.of_find? (h : s.Inv a index total) {r : Transition}
    (hfind : s.remembered.find? (fun r => r.symbol.same t.symbol) = some r) :
    r ∈ s.behind ∧ r.symbol.name = t.symbol.name := by
  constructor
  · exact h.remembered r (List.mem_of_find?_eq_some hfind)
  · have := List.find?_some hfind
    simpa [Symbol.same] using this

/-- **A step goes through and keeps the invariant**, and forgets no merge. -/
theorem exists_step (ha : a.Closed) (h : s.Inv a index total) (hahead : s.ahead = t :: rest) :
    ∃ s', s.step index t rest = .ok s' ∧ s'.Inv a index total := by
  unfold step
  cases hfind : s.remembered.find? fun r => r.symbol.same t.symbol with
  | none => exact ⟨_, rfl, h.remember hahead⟩
  | some r =>
    obtain ⟨hr, hname⟩ := h.of_find? hfind
    by_cases htarget : r.target = t.target
    · simp only [htarget, if_true]
      exact ⟨_, rfl, h.delete hahead ⟨r, hr, hname, htarget⟩⟩
    · have ht : t ∈ s.ahead := by simp [hahead]
      obtain ⟨keep, lose, habsorb, hinv⟩ := h.exists_absorb ha ht hr hname htarget
      simp only [htarget, if_false, habsorb]
      refine ⟨_, rfl, hinv.delete (t := t.retarget r.target t.target) ?_ ?_⟩
      · simp [afterAbsorb, hahead]
      · refine ⟨r.retarget r.target t.target, List.mem_map.2 ⟨r, hr, rfl⟩, ?_, ?_⟩
        · rw [Automaton.retarget_symbol, Automaton.retarget_symbol, hname]
        · rw [Automaton.retarget_target, Automaton.retarget_target, Automaton.redirect_self,
            Automaton.redirect_of_ne htarget]

theorem exists_run (ha : a.Closed) (places : Nat) (h : s.Inv a index total) :
    ∃ s', run index places s = .ok s' ∧ s'.Inv a index total := by
  induction places generalizing s with
  | zero => exact ⟨s, rfl, h⟩
  | succ places ih =>
    unfold run
    cases hahead : s.ahead with
    | nil => exact ⟨s, rfl, h⟩
    | cons t rest =>
      obtain ⟨s', hstep, hinv⟩ := exists_step ha h hahead
      simp only [hstep]
      exact ih hinv

/-- The scan of a state begins with the invariant. -/
theorem inv_start {b : Automaton} {f : Nat → Nat} (hf : Automaton.Quotient a b f) {st : State}
    (hst : b.get? index = some st) (merges : List Merge) :
    Inv a index (merges.length + b.size) ⟨b, merges, [], [], st.transitions⟩ := by
  refine ⟨⟨f, hf, fun t ht => ?_⟩, fun st' hst' => ?_, by simp, rfl⟩
  · rw [hf.fixed (OrderedMap.mem_keys_of_get? hst)]
    exact Automaton.Has.edge ⟨st, hst, ht⟩
  · obtain rfl := Option.some.inj (hst.symm.trans hst')
    rfl

end MergeScan

namespace Automaton

variable {b : Automaton}

/-- Going through one state goes through, and every merge takes one state away. -/
theorem exists_mergeState (ha : a.Closed) (hb : ∃ f, Quotient a b f) (index : Nat)
    (merges : List Merge) :
    ∃ b' merges', mergeState index b merges = .ok (b', merges') ∧ (∃ f, Quotient a b' f) ∧
      merges'.length + b'.size = merges.length + b.size := by
  unfold mergeState
  cases hst : b.get? index with
  | none => exact ⟨b, merges, rfl, hb, rfl⟩
  | some st =>
    obtain ⟨f, hf⟩ := hb
    obtain ⟨s', hrun, hinv⟩ := MergeScan.exists_run ha st.transitions.length
      (MergeScan.inv_start hf hst merges)
    obtain ⟨f', hf', -⟩ := hinv.quotient
    simp only [hrun]
    exact ⟨_, _, rfl, ⟨f', hf'⟩, hinv.account⟩

theorem exists_mergeStates (ha : a.Closed) (indices : List Nat) (hb : ∃ f, Quotient a b f)
    (merges : List Merge) :
    ∃ b' merges', mergeStates indices b merges = .ok (b', merges') ∧ (∃ f, Quotient a b' f) ∧
      merges'.length + b'.size = merges.length + b.size := by
  induction indices generalizing b merges with
  | nil => exact ⟨b, merges, rfl, hb, rfl⟩
  | cons index rest ih =>
    obtain ⟨b₁, merges₁, hstate, hb₁, hlen₁⟩ := exists_mergeState ha hb index merges
    obtain ⟨b₂, merges₂, hrest, hb₂, hlen₂⟩ := ih hb₁ merges₁
    refine ⟨b₂, merges₂, ?_, hb₂, hlen₂.trans hlen₁⟩
    simp only [mergeStates, hstate, hrest]

/-- **A pass over a quotient goes through and leaves a quotient**, and every merge takes one
state away. -/
theorem exists_mergePass (ha : a.Closed) (hb : ∃ f, Quotient a b f) :
    ∃ b' merges, b.mergePass = .ok (b', merges) ∧ (∃ f, Quotient a b' f) ∧
      merges.length + b'.size = b.size := by
  obtain ⟨b', merges, hstates, hb', hlen⟩ := exists_mergeStates ha b.keys hb []
  refine ⟨b', merges.reverse, ?_, hb', ?_⟩
  · simp only [mergePass, hstates]
  · rw [List.length_reverse, hlen, List.length_nil, Nat.zero_add]

/-- **The merge passes over an automaton**, until one of them merges nothing. -/
abbrev Settles : Automaton → List (List Merge) → Automaton → Prop :=
  Rounds mergePass fun _ merges => merges ≠ []

/-- A bound that leaves room for the passes does not matter. -/
theorem mergePasses_of_settles {passes : List (List Merge)} {last : Automaton}
    (h : b.Settles passes last) {bound : Nat} (le : passes.length ≤ bound) :
    mergePasses bound b = .ok (passes, last) := by
  induction h generalizing bound with
  | @last b last merges here quiet =>
    obtain ⟨bound, rfl⟩ : ∃ n, bound = n + 1 := ⟨bound - 1, by simp at le; omega⟩
    obtain rfl : merges = [] := not_not.1 quiet
    simp only [mergePasses, here, List.isEmpty_nil, if_true]
  | @more b b' last merges passes here call _ ih =>
    obtain ⟨bound, rfl⟩ : ∃ n, bound = n + 1 := ⟨bound - 1, by simp at le; omega⟩
    have hsome : merges.isEmpty = false := by simpa using call
    rw [List.length_cons] at le
    simp only [mergePasses, here, hsome, Bool.false_eq_true, if_false,
      ih (Nat.le_of_succ_le_succ le)]

/-- The last pass merges nothing. -/
theorem getLast?_of_settles {passes : List (List Merge)} {last : Automaton}
    (h : b.Settles passes last) : passes.getLast? = some [] := by
  obtain ⟨before, merges, hlast, -, quiet⟩ := h.exists_last
  obtain rfl : merges = [] := not_not.1 quiet
  exact hlast

/-- **The passes over an automaton whose transitions lead to states come to an end**, and leave a
quotient.  All of them but the last take a state away. -/
theorem exists_mergeAll (ha : a.Closed) :
    ∃ passes last, a.mergeAll = .ok (passes, last) ∧ a.Settles passes last ∧
      (∃ f, Quotient a last f) ∧ passes.length + last.size ≤ a.size + 1 := by
  -- the weight is the number of states
  obtain ⟨passes, last, hsettles, hlast, hlen⟩ := exists_rounds mergePass
    (fun _ merges => merges ≠ []) (fun b => ∃ f, Quotient a b f) OrderedMap.size
    (fun b hb => by
      obtain ⟨b', merges, hpass, hb', hsize⟩ := exists_mergePass ha hb
      refine ⟨b', merges, hpass, hb', by omega, fun hsome => ?_⟩
      have hpos : 0 < merges.length := List.length_pos_of_ne_nil hsome
      omega)
    ⟨id, Quotient.refl a⟩
  exact ⟨passes, last, mergePasses_of_settles hsettles (by omega), hsettles, hlast, hlen⟩

/-- What is built is what the passes over the expansion leave. -/
theorem build_of_mergeAll {g : Grammar} (hexpand : expand g = .ok a) {passes : List (List Merge)}
    {last : Automaton} (hmerge : a.mergeAll = .ok (passes, last)) :
    build g = .ok ⟨a.size, passes, last⟩ := by
  simp only [build, hexpand, hmerge, bind, Except.bind]
  rfl

/-! ## A pass is a quotient -/

/-- What a pass does to an automaton whose transitions lead to states. -/
theorem exists_pass (ha : a.Closed) :
    ∃ b merges f, a.mergePass = .ok (b, merges) ∧ Quotient a b f ∧
      merges.length + b.size = a.size := by
  obtain ⟨b, merges, hpass, ⟨f, hf⟩, hlen⟩ := exists_mergePass ha ⟨id, Quotient.refl a⟩
  exact ⟨b, merges, f, hpass, hf, hlen⟩

/-- If every merge takes one state away, there is a merge exactly when a state is missing. -/
theorem Quotient.ne_nil_iff {f : Nat → Nat} (hq : Quotient a b f) {merges : List Merge}
    (hlen : merges.length + b.size = a.size) : merges ≠ [] ↔ ∃ k ∈ a.keys, k ∉ b.keys := by
  constructor
  · intro hne
    by_contra hnone
    -- every state stays, so there are as many as before
    have hall : ∀ k ∈ a.keys, f k = k := by
      intro k hk
      by_contra hfk
      exact hnone ⟨k, hk, fun hkb => hfk (hq.fixed hkb)⟩
    have hkeys : b.keys = a.keys := by
      rw [hq.keys]
      exact List.filter_eq_self.2 fun k hk => decide_eq_true (hall k hk)
    have hsize : b.size = a.size := by
      rw [OrderedMap.size_eq_length_keys, OrderedMap.size_eq_length_keys, hkeys]
    have hpos : 0 < merges.length := List.length_pos_of_ne_nil hne
    omega
  · rintro ⟨k, hk, hkb⟩ rfl
    have hsize : b.size = a.size := by simpa using hlen
    have hfk : f k = k := hq.fixed_of_size hsize k hk
    exact hkb ((hq.mem_keys_iff k).2 ⟨hk, hfk⟩)

theorem closed_iff_entries :
    a.Closed ↔ ∀ e ∈ a.entries, ∀ t ∈ e.2.transitions, t.target ∈ a.keys := by
  constructor
  · intro h e he t ht
    exact h e.1 t ⟨e.2, (a.get?_eq_some_iff e.1 e.2).2 he, ht⟩
  · rintro h k t ⟨s, hs, ht⟩
    exact h (k, s) ((a.get?_eq_some_iff k s).1 hs) t ht

instance (a : Automaton) : Decidable a.Closed := decidable_of_iff _ closed_iff_entries.symm

/-- **A merge pass is exactly a quotient.**  Over an automaton whose transitions lead to
states, each place of a list having a transition of its own, it misses no state.  Some map
takes the states to those that are kept, which stay in their order: a state that is kept has
its own items and behind them the lists of the others that go to it, each list once, and its
edges are the images of theirs.  So transitions lead to states again.  There are merges
exactly when a state is gone, and two states go to one only if they must stand for each
other. -/
theorem mergePass_quotient (ha : a.Closed) :
    ∃ b merges f, a.mergePass = .ok (b, merges) ∧ Quotient a b f ∧ b.Closed ∧
      (merges ≠ [] ↔ ∃ k ∈ a.keys, k ∉ b.keys) ∧
      ∀ s ∈ a.keys, ∀ t ∈ a.keys, f s = f t → Fused a s t := by
  obtain ⟨b, merges, f, hpass, hq, hlen⟩ := exists_pass ha
  refine ⟨b, merges, f, hpass, hq, hq.closed ha, hq.ne_nil_iff hlen, ?_⟩
  intro s hs t ht heq
  exact hq.fused_of_eq hs ht heq

/-- A state over `x` to another and to itself, which is absorbed while its list is gone through. -/
def selfReaching : Automaton :=
  ofStates
    [⟨[⟨"a", [.terminal "x"], 0, endMarker⟩],
      [⟨.terminal "x", 1⟩, ⟨.terminal "x", 0⟩, ⟨.terminal "w", 1⟩, ⟨.terminal "y", 1⟩,
        ⟨.terminal "y", 2⟩]⟩,
    ⟨[⟨"a", [.terminal "x"], 1, endMarker⟩], []⟩,
    ⟨[⟨"a", [.terminal "y"], 1, endMarker⟩], []⟩]

/-- The rest of the list is gone through after the state itself has been absorbed, and so all
three states become one. -/
theorem mergePass_quotient_selfReaching :
    ∃ b merges f, selfReaching.Closed ∧ selfReaching.mergePass = .ok (b, merges) ∧
      Quotient selfReaching b f ∧ b.keys = [1] ∧ f 0 = 1 ∧ f 2 = 1 ∧ Fused selfReaching 0 2 := by
  have hclosed : selfReaching.Closed := by decide +kernel
  obtain ⟨b, merges, f, hpass, hq, -, -, hfused⟩ := mergePass_quotient hclosed
  have hkeys : b.keys = [1] := by
    have hany : selfReaching.mergePass.toOption.any (fun r => decide (r.1.keys = [1])) = true := by
      decide +kernel
    rw [hpass] at hany
    exact of_decide_eq_true hany
  have hmem : ∀ k ∈ [0, 1, 2], k ∈ selfReaching.keys := by decide +kernel
  have hone : ∀ k ∈ [0, 1, 2], f k = 1 := by
    intro k hk
    have hfk := hq.maps k (hmem k hk)
    rw [hkeys] at hfk
    exact List.mem_singleton.1 hfk
  have hzero : f 0 = 1 := hone 0 (by simp)
  have htwo : f 2 = 1 := hone 2 (by simp)
  exact ⟨b, merges, f, hclosed, hpass, hq, hkeys, hzero, htwo,
    hfused 0 (hmem 0 (by simp)) 2 (hmem 2 (by simp)) (hzero.trans htwo.symm)⟩

end Automaton

end LRTables
