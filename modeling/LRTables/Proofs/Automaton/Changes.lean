import LRTables.Proofs.Automaton.Determinism

/-!
# Passes, change by change

A pass makes one small change after the other: a state absorbs another that is reached over
the same name from the same state, or a transition is left out that has one like it further
in front.  What every such change keeps, any number of passes keep.  In this way the order of
transitions can be followed, of which a quotient says nothing: the first transition of a
state is never left out, and leads on to what its target has become.

* `Automaton.Change` — one change of a pass.
* `MergeScan.changes_of_step` — a step of the way through one list is a chain of changes.
* `Automaton.changes_of_mergePass` — so is a pass.
* `Automaton.Changes.exists_quotient` — changes make a quotient and keep first transitions.
* `Automaton.exists_afterPasses` — so do any number of passes.
-/

namespace LRTables

namespace Automaton

/-- **One change of a pass.** -/
inductive Change (b : Automaton) : Automaton → Prop where
  /-- A state absorbs another that is reached over the same name from the same state. -/
  | absorb {k keep lose : Nat} {name : String} {s t : State} (hne : keep ≠ lose)
      (hs : b.get? keep = some s) (ht : b.get? lose = some t) (hkeep : b.Edge k name keep)
      (hlose : b.Edge k name lose) : Change b (b.absorbed keep lose s t)
  /-- A transition is left out that has one like it further in front. -/
  | leaveOut {index : Nat} {s : State} {before rest : List Transition} {r t : Transition}
      (hs : b.get? index = some s) (hlist : s.transitions = before ++ t :: rest)
      (hr : r ∈ before) (hname : r.symbol.name = t.symbol.name) (htarget : r.target = t.target) :
      Change b (b.setTransitions index (before ++ rest))

/-- One change after the other. -/
abbrev Changes : Automaton → Automaton → Prop := Relation.ReflTransGen Change

end Automaton

/-! ## The way through one list -/

namespace MergeScan

variable {a : Automaton} {index total : Nat} {s s' : MergeScan} {r t : Transition}
  {rest : List Transition}

/-- An absorption that goes through has found both states. -/
theorem exists_get?_of_absorb (h : s.absorb index r t = .ok s') :
    ∃ keep lose, s.automaton.get? r.target = some keep ∧ s.automaton.get? t.target = some lose ∧
      s' = s.afterAbsorb index r t keep lose := by
  cases hkeep : s.automaton.get? r.target with
  | none => simp [MergeScan.absorb, Automaton.absorb, hkeep] at h
  | some keep =>
    cases hlose : s.automaton.get? t.target with
    | none => simp [MergeScan.absorb, Automaton.absorb, hkeep, hlose] at h
    | some lose =>
      rw [absorb_of_get? hkeep hlose] at h
      exact ⟨keep, lose, rfl, rfl, (Except.ok.inj h).symm⟩

/-- Absorbing the target of the next transition is a change. -/
theorem Inv.change_absorb (h : s.Inv a index total) (ht : t ∈ s.ahead) (hr : r ∈ s.behind)
    (hname : r.symbol.name = t.symbol.name) (hne : r.target ≠ t.target)
    (habsorb : s.absorb index r t = .ok s') : Automaton.Change s.automaton s'.automaton := by
  obtain ⟨keep, lose, hkeep, hlose, rfl⟩ := exists_get?_of_absorb habsorb
  obtain ⟨f, -, hedges⟩ := h.quotient
  have hredge : s.automaton.Edge (f index) t.symbol.name r.target := by
    rw [← hname]
    exact hedges r (List.mem_append_left _ hr)
  have htedge : s.automaton.Edge (f index) t.symbol.name t.target :=
    hedges t (List.mem_append_right _ ht)
  exact Automaton.Change.absorb hne hkeep hlose hredge htedge

/-- Deleting a transition that has one like it behind is a change, or none if the state is gone. -/
theorem Inv.changes_delete (h : s.Inv a index total) (hahead : s.ahead = t :: rest)
    (hr : r ∈ s.behind) (hname : r.symbol.name = t.symbol.name) (htarget : r.target = t.target) :
    Automaton.Changes s.automaton (s.delete index rest).automaton := by
  cases hget : s.automaton.get? index with
  | none =>
    have hsame : (s.delete index rest).automaton = s.automaton :=
      Automaton.setTransitions_of_none hget _
    rw [hsame]
  | some st =>
    have hlist : st.transitions = s.behind ++ t :: rest := by
      rw [h.live st hget, hahead]
    exact Relation.ReflTransGen.single
      (Automaton.Change.leaveOut hget hlist hr hname htarget)

/-- **A step is a chain of changes.** -/
theorem changes_of_step (ha : a.Closed) (h : s.Inv a index total) (hahead : s.ahead = t :: rest)
    (hstep : s.step index t rest = .ok s') : Automaton.Changes s.automaton s'.automaton := by
  unfold step at hstep
  split at hstep
  · obtain rfl := Except.ok.inj hstep
    exact Relation.ReflTransGen.refl
  · rename_i r hfind
    obtain ⟨hr, hname⟩ := h.of_find? hfind
    split at hstep
    · rename_i htarget
      obtain rfl := Except.ok.inj hstep
      exact h.changes_delete hahead hr hname htarget
    · rename_i hne
      split at hstep
      · exact absurd hstep (by simp)
      · rename_i s₁ habsorb
        obtain rfl := Except.ok.inj hstep
        have ht : t ∈ s.ahead := by simp [hahead]
        have hchange := h.change_absorb ht hr hname hne habsorb
        obtain ⟨keep, lose, habsorb', hinv⟩ := h.exists_absorb ha ht hr hname hne
        obtain rfl : s₁ = s.afterAbsorb index r t keep lose :=
          Except.ok.inj (habsorb.symm.trans habsorb')
        apply Relation.ReflTransGen.head hchange
        -- both transitions lead to the state that is kept now
        refine hinv.changes_delete (t := t.retarget r.target t.target)
          (r := r.retarget r.target t.target) ?_ ?_ ?_ ?_
        · simp [afterAbsorb, hahead]
        · exact List.mem_map.2 ⟨r, hr, rfl⟩
        · rw [Automaton.retarget_symbol, Automaton.retarget_symbol, hname]
        · rw [Automaton.retarget_target, Automaton.retarget_target, Automaton.redirect_self,
            Automaton.redirect_of_ne hne]

theorem changes_of_run (ha : a.Closed) {places : Nat} (h : s.Inv a index total)
    (hrun : run index places s = .ok s') : Automaton.Changes s.automaton s'.automaton := by
  induction places generalizing s with
  | zero =>
    obtain rfl := Except.ok.inj hrun
    exact Relation.ReflTransGen.refl
  | succ places ih =>
    unfold run at hrun
    split at hrun
    · obtain rfl := Except.ok.inj hrun
      exact Relation.ReflTransGen.refl
    · rename_i t rest hahead
      obtain ⟨s₁, hstep, hinv⟩ := exists_step ha h hahead
      simp only [hstep] at hrun
      exact (changes_of_step ha h hahead hstep).trans (ih hinv hrun)

end MergeScan

namespace Automaton

variable {a b c : Automaton} {f : Nat → Nat}

/-! ## Passes -/

theorem changes_of_mergeState (ha : a.Closed) (hb : ∃ f, Quotient a b f) {index : Nat}
    {merges merges' : List Merge} (h : mergeState index b merges = .ok (c, merges')) :
    Changes b c := by
  unfold mergeState at h
  split at h
  · obtain ⟨rfl, -⟩ := Prod.mk.inj (Except.ok.inj h)
    exact Relation.ReflTransGen.refl
  · rename_i st hst
    split at h
    · exact absurd h (by simp)
    · rename_i s' hrun
      obtain ⟨rfl, -⟩ := Prod.mk.inj (Except.ok.inj h)
      obtain ⟨f, hf⟩ := hb
      exact MergeScan.changes_of_run ha (MergeScan.inv_start hf hst merges) hrun

theorem changes_of_mergeStates (ha : a.Closed) (hb : ∃ f, Quotient a b f) {indices : List Nat}
    {merges merges' : List Merge} (h : mergeStates indices b merges = .ok (c, merges')) :
    Changes b c := by
  induction indices generalizing b merges with
  | nil =>
    obtain ⟨rfl, -⟩ := Prod.mk.inj (Except.ok.inj h)
    exact Relation.ReflTransGen.refl
  | cons index rest ih =>
    obtain ⟨b₁, merges₁, hstate, hb₁, -⟩ := exists_mergeState ha hb index merges
    simp only [mergeStates, hstate] at h
    exact (changes_of_mergeState ha hb hstate).trans (ih hb₁ h)

/-- **A pass is a chain of changes.** -/
theorem changes_of_mergePass (ha : a.Closed) {merges : List Merge}
    (h : a.mergePass = .ok (b, merges)) : Changes a b := by
  unfold mergePass at h
  split at h
  · exact absurd h (by simp)
  · rename_i c merges' hstates
    obtain ⟨rfl, -⟩ := Prod.mk.inj (Except.ok.inj h)
    exact changes_of_mergeStates ha ⟨id, Quotient.refl a⟩ hstates

/-! ## First transitions -/

/-- The first transition of a state. -/
def leading? (a : Automaton) (k : Nat) : Option Transition :=
  (a.get? k).bind fun s => s.transitions.head?

/-- The first transitions of one automaton, their targets sent elsewhere, are those of the other. -/
def KeepsLeading (a b : Automaton) (f : Nat → Nat) : Prop :=
  ∀ k ∈ b.keys, ∀ t, a.leading? k = some t → b.leading? k = some ⟨t.symbol, f t.target⟩

theorem keepsLeading_refl (a : Automaton) : KeepsLeading a a id := fun _ _ _ ht => ht

/-- Absorbing a state keeps first transitions: what is gained comes behind them. -/
theorem KeepsLeading.absorb (h : KeepsLeading a b f) {keep lose : Nat} {s t : State}
    (hs : b.get? keep = some s) :
    KeepsLeading a (b.absorbed keep lose s t) (redirect keep lose ∘ f) := by
  intro k hk r hr
  rw [keys_absorbed hs, List.mem_filter, decide_eq_true_eq] at hk
  obtain ⟨hkb, hkl⟩ := hk
  obtain ⟨st, hst, hhead⟩ := Option.bind_eq_some_iff.1 (h k hkb r hr)
  have hlose : ¬ lose = k := fun e => hkl e.symm
  have hretarget : (⟨r.symbol, f r.target⟩ : Transition).retarget keep lose =
      ⟨r.symbol, redirect keep lose (f r.target)⟩ := by
    unfold Transition.retarget redirect
    split <;> rfl
  rw [leading?, get?_absorbed, if_neg hlose]
  by_cases hkeep : keep = k
  · subst hkeep
    obtain rfl := Option.some.inj (hs.symm.trans hst)
    simp [State.retarget, State.append, List.head?_append, hhead, hretarget]
  · simp [hkeep, hst, State.retarget, hhead, hretarget]

/-- So does leaving out a transition that has another one in front of it. -/
theorem KeepsLeading.leaveOut (h : KeepsLeading a b f) {index : Nat} {s : State}
    {before rest : List Transition} {t : Transition} (hs : b.get? index = some s)
    (hlist : s.transitions = before ++ t :: rest) (hne : before ≠ []) :
    KeepsLeading a (b.setTransitions index (before ++ rest)) f := by
  intro k hk r hr
  rw [keys_setTransitions] at hk
  have hlead := h k hk r hr
  by_cases hkindex : index = k
  · subst hkindex
    obtain ⟨q, before, rfl⟩ := List.exists_cons_of_ne_nil hne
    rw [leading?, hs, Option.bind_some, hlist] at hlead
    simpa [leading?, get?_setTransitions, hs] using hlead
  · simpa [leading?, get?_setTransitions, hkindex] using hlead

/-- A change makes a quotient of a quotient and keeps first transitions. -/
theorem Change.exists_quotient (ha : a.Closed) (hq : Quotient a b f) (hlead : KeepsLeading a b f)
    (h : Change b c) : ∃ f', Quotient a c f' ∧ KeepsLeading a c f' := by
  cases h with
  | absorb hne hs ht hkeep hlose =>
    exact ⟨_, hq.absorb ha hne hs ht hkeep hlose, hlead.absorb hs⟩
  | @leaveOut index s before rest r t hs hlist hr hname htarget =>
    refine ⟨f, hq.setTransitions hs ?_ ?_, hlead.leaveOut hs hlist (List.ne_nil_of_mem hr)⟩
    · intro q hq
      rw [hlist]
      rcases List.mem_append.1 hq with hq | hq
      · exact List.mem_append_left _ hq
      · exact List.mem_append_right _ (List.mem_cons_of_mem _ hq)
    · intro q hq
      rw [hlist] at hq
      rcases List.mem_append.1 hq with hq | hq
      · exact ⟨q, List.mem_append_left _ hq, rfl, rfl⟩
      · rcases List.mem_cons.1 hq with rfl | hq
        · exact ⟨r, List.mem_append_left _ hr, hname, htarget⟩
        · exact ⟨q, List.mem_append_right _ hq, rfl, rfl⟩

/-- **Changes make a quotient and keep first transitions.** -/
theorem Changes.exists_quotient (ha : a.Closed) (h : Changes a b) :
    ∃ f, Quotient a b f ∧ KeepsLeading a b f := by
  induction h with
  | refl => exact ⟨id, Quotient.refl a, keepsLeading_refl a⟩
  | tail _ hchange ih =>
    obtain ⟨f, hq, hlead⟩ := ih
    exact hchange.exists_quotient ha hq hlead

/-! ## Any number of passes -/

theorem changes_of_afterPasses (ha : a.Closed) {n : Nat} (h : afterPasses n a = .ok b) :
    Changes a b := by
  induction n generalizing a with
  | zero =>
    obtain rfl := Except.ok.inj h
    exact Relation.ReflTransGen.refl
  | succ n ih =>
    obtain ⟨c, merges, f, hpass, hq, -⟩ := exists_pass ha
    simp only [afterPasses, hpass] at h
    exact (changes_of_mergePass ha hpass).trans (ih (hq.closed ha) h)

/-- **Any number of passes goes through**, and makes a quotient with the first transitions of
the states that are kept. -/
theorem exists_afterPasses (ha : a.Closed) (n : Nat) :
    ∃ b f, afterPasses n a = .ok b ∧ Quotient a b f ∧ KeepsLeading a b f := by
  have hpasses : ∃ b, afterPasses n a = .ok b := by
    induction n generalizing a with
    | zero => exact ⟨a, rfl⟩
    | succ n ih =>
      obtain ⟨c, merges, f, hpass, hq, -⟩ := exists_pass ha
      obtain ⟨b, hb⟩ := ih (hq.closed ha)
      exact ⟨b, by simp only [afterPasses, hpass, hb]⟩
  obtain ⟨b, hb⟩ := hpasses
  obtain ⟨f, hq, hlead⟩ := (changes_of_afterPasses ha hb).exists_quotient ha
  exact ⟨b, f, hb, hq, hlead⟩

/-- The passes that are made until one merges nothing are so many passes. -/
theorem afterPasses_of_mergePasses {bound : Nat} {passes : List (List Merge)}
    (h : mergePasses bound a = .ok (passes, b)) : afterPasses passes.length a = .ok b := by
  induction bound generalizing a passes with
  | zero =>
    obtain ⟨rfl, rfl⟩ := Prod.mk.inj (Except.ok.inj h)
    rfl
  | succ bound ih =>
    unfold mergePasses at h
    split at h
    · exact absurd h (by simp)
    · rename_i c merges hpass
      split at h
      · obtain ⟨rfl, rfl⟩ := Prod.mk.inj (Except.ok.inj h)
        simp only [List.length_singleton, afterPasses, hpass]
      · split at h
        · exact absurd h (by simp)
        · rename_i passes' last hrest
          obtain ⟨rfl, rfl⟩ := Prod.mk.inj (Except.ok.inj h)
          simp only [List.length_cons, afterPasses, hpass]
          exact ih hrest

end Automaton

end LRTables
