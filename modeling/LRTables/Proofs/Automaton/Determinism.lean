import LRTables.Proofs.Automaton.Items

/-!
# When the passes stop at a deterministic automaton

A pass that merges nothing need not have looked at every transition: deleting one moves
the next into its place, and that one is passed over.  What such a pass has done instead
is to delete something.  So passes over and over again come to one that changes nothing,
and the automaton is deterministic exactly when none of them finds anything to merge; a
deterministic automaton gives no pass anything to merge, and stays deterministic.

* `Automaton.Deterministic` — no two edges over one name lead to different states.
* `Automaton.mergePass_quiet` — a pass without merges deletes something, or has seen that
  the names in every list are different.
* `Automaton.deterministic_iff_quiet` — when an automaton is deterministic.
-/

namespace LRTables

/-- The number of transitions of an automaton. -/
def Automaton.transitionCount (a : Automaton) : Nat :=
  OrderedMap.weight (fun s => s.transitions.length) a

namespace MergeScan

variable {index : Nat} {s s' : MergeScan} {t : Transition} {rest : List Transition}

/-! ## Ways without merges -/

/-- Is the state there, and is its list what lies behind and ahead? -/
def Live (index : Nat) (s : MergeScan) : Prop :=
  ∃ st, s.automaton.get? index = some st ∧ st.transitions = s.behind ++ s.ahead

theorem merges_le_of_absorb {r : Transition} (h : s.absorb index r t = .ok s') :
    s'.merges.length = s.merges.length + 1 := by
  unfold MergeScan.absorb at h
  split at h
  · exact absurd h (by simp)
  · obtain rfl := Except.ok.inj h
    rfl

/-- A remembered transition goes from ahead to behind. -/
theorem Live.remember (h : s.Live index) (hahead : s.ahead = t :: rest) :
    (s.remember t rest).Live index := by
  obtain ⟨st, hst, hlist⟩ := h
  exact ⟨st, hst, by simp [MergeScan.remember, hlist, hahead]⟩

/-- A transition over a new name may be remembered. -/
theorem nodup_remember (hfind : s.remembered.find? (fun r => r.symbol.same t.symbol) = none)
    (hnames : (s.remembered.map fun r => r.symbol.name).Nodup) :
    ((s.remember t rest).remembered.map fun r => r.symbol.name).Nodup := by
  rw [remember, List.map_append, List.nodup_append]
  refine ⟨hnames, by simp, ?_⟩
  rintro x hx y hy rfl
  obtain ⟨r, hr, hrx⟩ := List.mem_map.1 hx
  rw [List.map_singleton, List.mem_singleton] at hy
  have hdiff := List.find?_eq_none.1 hfind r hr
  simp [Symbol.same, hrx, hy] at hdiff

/-- Deleting a transition takes one away. -/
theorem Live.delete (h : s.Live index) (hahead : s.ahead = t :: rest) :
    (s.delete index rest).Live index ∧
      (s.delete index rest).automaton.transitionCount + 1 = s.automaton.transitionCount := by
  obtain ⟨st, hst, hlist⟩ := h
  refine ⟨⟨{ st with transitions := s.behind ++ rest }, ?_, ?_⟩, ?_⟩
  · simp [MergeScan.delete, Automaton.get?_setTransitions, hst]
  · show s.behind ++ rest = (s.behind ++ rest.take 1) ++ rest.drop 1
    rw [List.append_assoc, List.take_append_drop]
  · have hweight := OrderedMap.weight_insert (w := fun st : State => st.transitions.length)
      { st with transitions := s.behind ++ rest } hst
    rw [hlist, hahead] at hweight
    simp only [MergeScan.delete, Automaton.setTransitions, Automaton.transitionCount,
      OrderedMap.modify_of_some hst]
    simp only [List.length_append, List.length_cons] at hweight
    omega

/-- A step either makes a merge, or remembers a transition over a new name, or deletes one. -/
theorem step_cases (h : s.step index t rest = .ok s') :
    s.merges.length < s'.merges.length ∨
      (s.remembered.find? (fun r => r.symbol.same t.symbol) = none ∧ s' = s.remember t rest) ∨
      s' = s.delete index rest := by
  unfold step at h
  split at h
  · rename_i hfind
    exact Or.inr (Or.inl ⟨hfind, (Except.ok.inj h).symm⟩)
  · rename_i r hfind
    split at h
    · exact Or.inr (Or.inr (Except.ok.inj h).symm)
    · split at h
      · exact absurd h (by simp)
      · rename_i s₁ habsorb
        obtain rfl := Except.ok.inj h
        have hlen := merges_le_of_absorb habsorb
        left
        simp only [MergeScan.delete]
        omega

theorem step_merges_le (h : s.step index t rest = .ok s') :
    s.merges.length ≤ s'.merges.length := by
  rcases step_cases h with hlt | ⟨-, rfl⟩ | rfl
  · exact Nat.le_of_lt hlt
  · exact Nat.le_refl _
  · exact Nat.le_refl _

theorem run_merges_le {places : Nat} (h : run index places s = .ok s') :
    s.merges.length ≤ s'.merges.length := by
  induction places generalizing s with
  | zero =>
    obtain rfl := Except.ok.inj h
    exact Nat.le_refl _
  | succ places ih =>
    unfold run at h
    split at h
    · obtain rfl := Except.ok.inj h
      exact Nat.le_refl _
    · split at h
      · exact absurd h (by simp)
      · rename_i s₁ hstep
        exact Nat.le_trans (step_merges_le hstep) (ih h)

/-- Without merges the number of transitions does not grow. -/
theorem run_count_le {places : Nat} (hlive : s.Live index) (h : run index places s = .ok s')
    (hquiet : s'.merges.length ≤ s.merges.length) :
    s'.automaton.transitionCount ≤ s.automaton.transitionCount := by
  induction places generalizing s with
  | zero =>
    obtain rfl := Except.ok.inj h
    exact Nat.le_refl _
  | succ places ih =>
    unfold run at h
    split at h
    · obtain rfl := Except.ok.inj h
      exact Nat.le_refl _
    · rename_i t rest hahead
      split at h
      · exact absurd h (by simp)
      · rename_i s₁ hstep
        have hle := run_merges_le h
        rcases step_cases hstep with hlt | ⟨-, rfl⟩ | rfl
        · omega
        · have hle' := ih (hlive.remember hahead) h hquiet
          exact hle'
        · obtain ⟨hlive', hcount⟩ := hlive.delete hahead
          have := ih hlive' h hquiet
          omega

/-- **Without merges a transition is deleted, or the names of all are different.** -/
theorem run_quiet {places : Nat} (hlive : s.Live index) (h : run index places s = .ok s')
    (hquiet : s'.merges.length ≤ s.merges.length) (hplaces : s.ahead.length ≤ places)
    (hremembered : s.remembered = s.behind)
    (hnames : (s.remembered.map fun r => r.symbol.name).Nodup) :
    (s'.automaton = s.automaton ∧ ((s.behind ++ s.ahead).map fun r => r.symbol.name).Nodup) ∨
      s'.automaton.transitionCount < s.automaton.transitionCount := by
  induction places generalizing s with
  | zero =>
    obtain rfl := Except.ok.inj h
    have hahead : s.ahead = [] := List.eq_nil_of_length_eq_zero (Nat.le_zero.1 hplaces)
    rw [hahead, List.append_nil, ← hremembered]
    exact Or.inl ⟨rfl, hnames⟩
  | succ places ih =>
    unfold run at h
    split at h
    · rename_i hahead
      obtain rfl := Except.ok.inj h
      rw [hahead, List.append_nil, ← hremembered]
      exact Or.inl ⟨rfl, hnames⟩
    · rename_i t rest hahead
      split at h
      · exact absurd h (by simp)
      · rename_i s₁ hstep
        have hle := run_merges_le h
        rcases step_cases hstep with hlt | ⟨hfind, rfl⟩ | rfl
        · omega
        · -- the name is new, and the list is gone through further
          have hlist : (s.remember t rest).behind ++ (s.remember t rest).ahead =
              s.behind ++ s.ahead := by simp [remember, hahead]
          rw [← hlist]
          refine ih (hlive.remember hahead) h hquiet ?_ ?_ (nodup_remember hfind hnames)
          · rw [hahead, List.length_cons] at hplaces
            exact Nat.le_of_succ_le_succ hplaces
          · simp [remember, hremembered]
        · obtain ⟨hlive', hcount⟩ := hlive.delete hahead
          have := run_count_le hlive' h hquiet
          right
          omega

end MergeScan

namespace Automaton

variable {a b : Automaton}

/-- No two edges over one name lead to different states. -/
def Deterministic (a : Automaton) : Prop :=
  ∀ k name u v, a.Edge k name u → a.Edge k name v → u = v

/-- Are the names of the transitions of the state different? -/
def Distinct (a : Automaton) (k : Nat) : Prop :=
  ∀ st, a.get? k = some st → (st.transitions.map fun t => t.symbol.name).Nodup

/-! ## Passes without merges -/

theorem mergeState_quiet {index : Nat} {merges merges' : List Merge}
    (h : mergeState index a merges = .ok (b, merges')) :
    merges.length ≤ merges'.length ∧ (merges'.length ≤ merges.length →
      (b = a ∧ a.Distinct index) ∨ b.transitionCount < a.transitionCount) := by
  unfold mergeState at h
  split at h
  · rename_i hnone
    obtain ⟨rfl, rfl⟩ := Prod.mk.inj (Except.ok.inj h)
    refine ⟨Nat.le_refl _, fun _ => Or.inl ⟨rfl, fun st hst => ?_⟩⟩
    rw [hnone] at hst
    exact absurd hst (by simp)
  · rename_i st hst
    split at h
    · exact absurd h (by simp)
    · rename_i s' hrun
      obtain ⟨rfl, rfl⟩ := Prod.mk.inj (Except.ok.inj h)
      refine ⟨MergeScan.run_merges_le hrun, fun hquiet => ?_⟩
      have hlive : MergeScan.Live index ⟨a, merges, [], [], st.transitions⟩ := ⟨st, hst, rfl⟩
      have hcases := MergeScan.run_quiet hlive hrun hquiet (Nat.le_refl _) rfl List.nodup_nil
      refine hcases.imp_left fun hsame => ⟨hsame.1, fun st' hst' => ?_⟩
      obtain rfl := Option.some.inj (hst.symm.trans hst')
      exact hsame.2

theorem mergeStates_quiet {indices : List Nat} {merges merges' : List Merge}
    (h : mergeStates indices a merges = .ok (b, merges')) :
    merges.length ≤ merges'.length ∧ (merges'.length ≤ merges.length →
      (b = a ∧ ∀ k ∈ indices, a.Distinct k) ∨ b.transitionCount < a.transitionCount) := by
  induction indices generalizing a merges with
  | nil =>
    obtain ⟨rfl, rfl⟩ := Prod.mk.inj (Except.ok.inj h)
    exact ⟨Nat.le_refl _, fun _ => Or.inl ⟨rfl, by simp⟩⟩
  | cons index rest ih =>
    simp only [mergeStates] at h
    split at h
    · exact absurd h (by simp)
    · rename_i a₁ merges₁ hstate
      obtain ⟨hle₁, hquiet₁⟩ := mergeState_quiet hstate
      obtain ⟨hle₂, hquiet₂⟩ := ih h
      refine ⟨Nat.le_trans hle₁ hle₂, fun hquiet => ?_⟩
      rcases hquiet₁ (Nat.le_trans hle₂ hquiet) with ⟨rfl, hdistinct⟩ | hlt₁
      · refine (hquiet₂ (Nat.le_trans hquiet hle₁)).imp_left fun hsame => ⟨hsame.1, ?_⟩
        intro k hk
        rcases List.mem_cons.1 hk with rfl | hk
        · exact hdistinct
        · exact hsame.2 k hk
      · rcases hquiet₂ (Nat.le_trans hquiet hle₁) with ⟨rfl, -⟩ | hlt₂
        · exact Or.inr hlt₁
        · exact Or.inr (Nat.lt_trans hlt₂ hlt₁)

/-- **A pass without merges deletes a transition, or leaves everything as it is** and has
seen that the names in every list are different. -/
theorem mergePass_quiet (h : a.mergePass = .ok (b, [])) :
    (b = a ∧ ∀ k, a.Distinct k) ∨ b.transitionCount < a.transitionCount := by
  unfold mergePass at h
  split at h
  · exact absurd h (by simp)
  · rename_i b' merges hstates
    obtain ⟨rfl, hmerges⟩ := Prod.mk.inj (Except.ok.inj h)
    obtain rfl : merges = [] := List.reverse_eq_nil_iff.1 hmerges
    refine ((mergeStates_quiet hstates).2 (Nat.le_refl _)).imp_left fun hsame => ⟨hsame.1, ?_⟩
    intro k st hst
    exact hsame.2 k (OrderedMap.mem_keys_of_get? hst) st hst

theorem deterministic_iff_entries : a.Deterministic ↔ ∀ e ∈ a.entries, ∀ t ∈ e.2.transitions,
    ∀ r ∈ e.2.transitions, t.symbol.name = r.symbol.name → t.target = r.target := by
  constructor
  · intro h e he t ht r hr hname
    have hst := (a.get?_eq_some_iff e.1 e.2).2 he
    exact h e.1 t.symbol.name _ _ ⟨t, ⟨e.2, hst, ht⟩, rfl, rfl⟩ ⟨r, ⟨e.2, hst, hr⟩, hname.symm, rfl⟩
  · rintro h k name u v ⟨t, ⟨st, hst, ht⟩, hname, rfl⟩ ⟨r, ⟨st', hst', hr⟩, hname', rfl⟩
    obtain rfl := Option.some.inj (hst.symm.trans hst')
    exact h (k, st) ((a.get?_eq_some_iff k st).1 hst) t ht r hr (hname.trans hname'.symm)

instance (a : Automaton) : Decidable a.Deterministic :=
  decidable_of_iff _ deterministic_iff_entries.symm

theorem deterministic_of_distinct (h : ∀ k, a.Distinct k) : a.Deterministic := by
  rintro k name u v ⟨t, ⟨st, hst, ht⟩, hname, rfl⟩ ⟨r, ⟨st', hst', hr⟩, hname', rfl⟩
  obtain rfl := Option.some.inj (hst.symm.trans hst')
  have htr : t = r :=
    List.inj_on_of_nodup_map (h k st hst) ht hr (hname.trans hname'.symm)
  rw [htr]

/-! ## Deterministic automata -/

/-- In a deterministic automaton every state stands for itself alone. -/
theorem Deterministic.eq_of_fused (h : a.Deterministic) {k j : Nat} (hf : Fused a k j) : k = j := by
  induction hf with
  | refl k => rfl
  | symm _ ih => exact ih.symm
  | trans _ _ ih ih' => exact ih.trans ih'
  | @step k j u v name _ hu hv ih =>
    subst ih
    exact h k name u v hu hv

/-- A quotient that leaves every state where it is has the same edges. -/
theorem Quotient.edge_iff_of_fixed {f : Nat → Nat} (hq : Quotient a b f) (ha : a.Closed)
    (hf : ∀ k ∈ a.keys, f k = k) (k : Nat) (name : String) (u : Nat) :
    b.Edge k name u ↔ a.Edge k name u := by
  rw [hq.edges]
  constructor
  · rintro ⟨j, v, he, hj, hv⟩
    rw [hf j he.source_mem] at hj
    rw [hf v (ha.target_mem he)] at hv
    rwa [← hj, ← hv]
  · intro he
    exact ⟨k, u, he, hf k he.source_mem, hf u (ha.target_mem he)⟩

/-- A quotient of a deterministic automaton is one. -/
theorem Deterministic.of_quotient {f : Nat → Nat} (h : a.Deterministic) (ha : a.Closed)
    (hq : Quotient a b f) : b.Deterministic := by
  have hfixed : ∀ k ∈ a.keys, f k = k := fun k hk => (h.eq_of_fused (hq.fused k hk)).symm
  rintro k name u v hu hv
  rw [hq.edge_iff_of_fixed ha hfixed] at hu hv
  exact h k name u v hu hv

/-- In a deterministic quotient all that must stand for each other does. -/
theorem Quotient.eq_of_fused {f : Nat → Nat} (hq : Quotient a b f) (hb : b.Deterministic)
    {k j : Nat} (h : Fused a k j) : f k = f j := by
  induction h with
  | refl k => rfl
  | symm _ ih => exact ih.symm
  | trans _ _ ih ih' => exact ih.trans ih'
  | @step k j u v name _ hu hv ih =>
    have hfu : b.Edge (f k) name (f u) := (hq.edges _ _ _).2 ⟨k, u, hu, rfl, rfl⟩
    have hfv : b.Edge (f j) name (f v) := (hq.edges _ _ _).2 ⟨j, v, hv, rfl, rfl⟩
    rw [← ih] at hfv
    exact hb _ _ _ _ hfu hfv

/-- A pass without merges leaves the edges as they are. -/
theorem edge_iff_of_quiet (ha : a.Closed) (h : a.mergePass = .ok (b, [])) :
    b.Closed ∧ ∀ k name u, b.Edge k name u ↔ a.Edge k name u := by
  obtain ⟨b', merges, f, hpass, hf, hlen⟩ := exists_pass ha
  rw [h] at hpass
  obtain ⟨rfl, rfl⟩ := Prod.mk.inj (Except.ok.inj hpass)
  have hsize : b.size = a.size := by simpa using hlen
  exact ⟨hf.closed ha, hf.edge_iff_of_fixed ha (hf.fixed_of_size hsize)⟩

theorem deterministic_congr (h : ∀ k name u, b.Edge k name u ↔ a.Edge k name u) :
    b.Deterministic ↔ a.Deterministic := by
  simp only [Deterministic, h]

/-- A pass over a deterministic automaton merges nothing. -/
theorem Deterministic.mergePass (h : a.Deterministic) (ha : a.Closed) :
    ∃ b, a.mergePass = .ok (b, []) := by
  obtain ⟨b, merges, f, hpass, hf, hlen⟩ := exists_pass ha
  have hkeys : b.keys = a.keys := by
    rw [hf.keys]
    refine List.filter_eq_self.2 fun k hk => decide_eq_true ?_
    exact (h.eq_of_fused (hf.fused k hk)).symm
  have hsize : b.size = a.size := by
    rw [OrderedMap.size_eq_length_keys, hkeys, ← OrderedMap.size_eq_length_keys]
  obtain rfl : merges = [] := List.eq_nil_of_length_eq_zero (by omega)
  exact ⟨b, hpass⟩

/-! ## More passes -/

/-- The automaton after so many more passes. -/
def afterPasses : Nat → Automaton → Except Dangling Automaton
  | 0, a => .ok a
  | n + 1, a =>
    match a.mergePass with
    | .error e => .error e
    | .ok (a', _) => afterPasses n a'

/-- Do passes, however many come before, merge nothing? -/
def Quiet (a : Automaton) : Prop := ∀ n, ∃ b c, afterPasses n a = .ok b ∧ b.mergePass = .ok (c, [])

theorem Quiet.next (h : a.Quiet) : ∃ b, a.mergePass = .ok (b, []) ∧ b.Quiet := by
  obtain ⟨a', b, ha', hpass⟩ := h 0
  obtain rfl := Except.ok.inj ha'
  refine ⟨b, hpass, fun n => ?_⟩
  have := h (n + 1)
  simpa only [afterPasses, hpass] using this

/-- **An automaton is deterministic exactly when no further pass merges anything.** -/
theorem deterministic_iff_quiet (ha : a.Closed) : a.Deterministic ↔ a.Quiet := by
  constructor
  · intro h n
    induction n generalizing a with
    | zero =>
      obtain ⟨b, hpass⟩ := h.mergePass ha
      exact ⟨a, b, rfl, hpass⟩
    | succ n ih =>
      obtain ⟨b, hpass⟩ := h.mergePass ha
      obtain ⟨hb, hedges⟩ := edge_iff_of_quiet ha hpass
      simpa only [afterPasses, hpass] using ih hb ((deterministic_congr hedges).2 h)
  · -- on the number of transitions, which a pass that is not the last makes smaller
    induction hn : a.transitionCount using Nat.strongRecOn generalizing a with
    | ind n ih =>
      intro h
      obtain ⟨b, hpass, hb⟩ := h.next
      rcases mergePass_quiet hpass with ⟨-, hdistinct⟩ | hlt
      · exact deterministic_of_distinct hdistinct
      · obtain ⟨hclosed, hedges⟩ := edge_iff_of_quiet ha hpass
        exact (deterministic_congr hedges).1 (ih _ (hn ▸ hlt) hclosed rfl hb)

/-! ## The automaton of a grammar -/

/-- **The automaton of a grammar is deterministic exactly when no further pass merges
anything**, although the last pass that was made merged nothing. -/
theorem build_deterministic_iff_quiet {text : String} {g : Grammar}
    (h : Grammar.parse text = .ok g) :
    ∃ b, build g = .ok b ∧ b.passes.getLast? = some [] ∧
      (b.automaton.Deterministic ↔ b.automaton.Quiet) := by
  obtain ⟨first, b, -, hbuild, hlast, hb⟩ := exists_build (Grammar.wellFormed_of_parse h)
  exact ⟨b, hbuild, hlast, deterministic_iff_quiet hb.closed⟩

/-- In `s ---> c c` three pairs of states are merged in the first pass, and none in the second
one, after which there is nothing left to merge. -/
theorem build_deterministic_iff_quiet_of_three_merges :
    ∃ g b, Grammar.parse "s ---> c c\nc ---> C c | D" = .ok g ∧ build g = .ok b ∧
      b.passes.map List.length = [3, 0] ∧ b.automaton.Deterministic ∧ b.automaton.Quiet := by
  obtain ⟨g, hparse, hg⟩ := exists_ok_of_any (e := Grammar.parse "s ---> c c\nc ---> C c | D")
    (P := fun g : Grammar => (build g).toOption.any fun b : Build =>
      decide (b.passes.map List.length = [3, 0]) && decide b.automaton.Deterministic)
    (by decide +kernel)
  obtain ⟨b, hbuild, -, hiff⟩ := build_deterministic_iff_quiet hparse
  rw [hbuild] at hg
  simp only [Except.toOption, Option.any_some, Bool.and_eq_true, decide_eq_true_eq] at hg
  exact ⟨g, b, hparse, hbuild, hg.1, hg.2, hiff.1 hg.2⟩

/-- **The automaton of a grammar need not be deterministic.**  Of three transitions over `A`
the third is passed over when the second, which leads where the first does, is deleted; that
pass merged nothing, and is the last. -/
theorem exists_build_not_deterministic :
    ∃ g b, Grammar.parse "s ---> A | A | A B" = .ok g ∧ build g = .ok b ∧
      ¬ b.automaton.Deterministic := by
  obtain ⟨g, hparse, hg⟩ := exists_ok_of_any (e := Grammar.parse "s ---> A | A | A B")
    (P := fun g : Grammar => (build g).toOption.any fun b : Build => ¬ b.automaton.Deterministic)
    (by decide +kernel)
  obtain ⟨b, hbuild, hb⟩ := exists_ok_of_any hg
  exact ⟨g, b, hparse, hbuild, by simpa using hb⟩

end Automaton

end LRTables
