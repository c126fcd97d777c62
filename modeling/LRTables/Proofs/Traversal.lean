import LRTables.Worklist
import LRTables.Proofs.Outcome
import Mathlib.Data.List.Perm.Basic
import Mathlib.Data.List.Infix

/-!
# Searches that come to their end

A traversal is a search that took every element it found.  That a search is one follows
from an account of the room that is left: every step that finds elements uses up as much
of it.  What is known of a traversal is then shown by induction along it.

* `Worklist.Traverses` — the search that leaves nothing in the queue, and what it took.
* `Worklist.traverses_or_error` — a search with room takes everything or is stopped.
* `Worklist.exists_traverses` — an account of the room makes a search a traversal.
* `Worklist.Traverses.forall_mem` — what one step passes on holds of everything taken.
* `Worklist.Traverses.congr` — steps that agree on what is taken take the same.
* `Worklist.Traverses.covered` — everything that the taken elements ask for is there.
* `Worklist.exists_found_of_run` — what a search lists was waiting or was found.
* `Worklist.exists_nodup_of_run` — no two things are found that are remembered alike.
* `Worklist.exists_parent_of_run` — what was not waiting is found by something listed before it.
-/

namespace LRTables.Worklist

variable {σ α ε : Type} {step : σ → α → Except ε (σ × List α)}

/-- The search from a queue takes the elements of a list, in order, and leaves nothing. -/
inductive Traverses (step : σ → α → Except ε (σ × List α)) : σ → List α → List α → Prop where
  /-- Nothing is left. -/
  | done (s : σ) : Traverses step s [] []
  /-- An element is taken, and the search goes on. -/
  | take {s s' : σ} {a : α} {queue found out : List α} (here : step s a = .ok (s', found))
      (rest : Traverses step s' (queue ++ found) out) : Traverses step s (a :: queue) (a :: out)

namespace Traverses

variable {s : σ} {queue out : List α}

/-- A traversal ends after as many steps as it takes elements. -/
theorem ends (h : Traverses step s queue out) : Ends step out.length s queue := by
  induction h with
  | done s => exact Ends.done s
  | take here _ ih => exact Ends.take here ih

theorem run_length (h : Traverses step s queue out) : run step out.length s queue = .ok out := by
  induction h with
  | done s => simp [run]
  | take here _ ih => simp [run, here, ih, Functor.map, Except.map]

/-- With a bound that is large enough the search gives what the traversal takes. -/
theorem run (h : Traverses step s queue out) {bound : Nat} (le : out.length ≤ bound) :
    Worklist.run step bound s queue = .ok out := by
  rw [run_mono h.ends le, h.run_length]

/-- Every element that is taken had its step. -/
theorem exists_step (h : Traverses step s queue out) {a : α} (ha : a ∈ out) :
    ∃ s₁ s₂ found, step s₁ a = .ok (s₂, found) := by
  induction h with
  | done s => exact absurd ha (by simp)
  | take here _ ih =>
    rcases List.mem_cons.1 ha with rfl | ha
    · exact ⟨_, _, _, here⟩
    · exact ih ha

/-- What a traversal takes is fixed by what it begins with. -/
theorem out_unique {out' : List α} (h : Traverses step s queue out)
    (h' : Traverses step s queue out') : out = out' := by
  have hout := h.run (Nat.le_max_left out.length out'.length)
  have hout' := h'.run (Nat.le_max_right out.length out'.length)
  rw [hout] at hout'
  exact Except.ok.inj hout'

/-- The queue is taken first. -/
theorem queue_prefix (h : Traverses step s queue out) : queue <+: out := by
  induction h with
  | done s => exact List.prefix_refl _
  | @take s s' a queue found out here _ ih =>
    exact List.cons_prefix_cons.2 ⟨rfl, (List.prefix_append queue found).trans ih⟩

/-- What the queue has and every step passes on, everything that is taken has. -/
theorem forall_mem {P : α → Prop} (h : Traverses step s queue out)
    (hstep : ∀ s a s' found, P a → step s a = .ok (s', found) → ∀ b ∈ found, P b)
    (hqueue : ∀ a ∈ queue, P a) : ∀ a ∈ out, P a := by
  induction h with
  | done s => simp
  | @take s s' a queue found out here _ ih =>
    have ha : P a := hqueue a (by simp)
    intro b hb
    rcases List.mem_cons.1 hb with rfl | hb
    · exact ha
    · refine ih (fun c hc => ?_) b hb
      rcases List.mem_append.1 hc with hc | hc
      · exact hqueue c (List.mem_cons_of_mem _ hc)
      · exact hstep s a s' found ha here c hc

/-- **Steps that agree on what is taken** take the same, when that is what they agree on in the
beginning and find only such. -/
theorem congr {step' : σ → α → Except ε (σ × List α)} {P : α → Prop}
    (h : Traverses step s queue out) (hagree : ∀ s a, P a → step s a = step' s a)
    (hstep : ∀ s a s' found, P a → step' s a = .ok (s', found) → ∀ b ∈ found, P b)
    (hqueue : ∀ a ∈ queue, P a) : Traverses step' s queue out := by
  induction h with
  | done s => exact Traverses.done s
  | @take s s' a queue found out here _ ih =>
    have ha : P a := hqueue a (by simp)
    have here' : step' s a = .ok (s', found) := (hagree s a ha).symm.trans here
    refine Traverses.take here' (ih fun b hb => ?_)
    rcases List.mem_append.1 hb with hb | hb
    · exact hqueue b (List.mem_cons_of_mem _ hb)
    · exact hstep s a s' found ha here' b hb

/-- **Everything that is asked for is there.**  If what an element asks for is had by the
state or given by what the element brings in, and what the next state has was had before
or is given likewise, then what the taken elements ask for is had in the beginning or
given by one of them.  Both may rest on an invariant of the search. -/
theorem covered {β : Type} (inv : σ → List α → Prop) (asks gives : α → β → Prop)
    (has : σ → β → Prop)
    (hinv : ∀ s a queue s' found, inv s (a :: queue) → step s a = .ok (s', found) →
      inv s' (queue ++ found))
    (hstep : ∀ s a queue s' found, inv s (a :: queue) → step s a = .ok (s', found) →
      ∀ b, asks a b ∨ has s' b → has s b ∨ ∃ c ∈ found, gives c b)
    (h : Traverses step s queue out) (hs : inv s queue) :
    ∀ a ∈ out, ∀ b, asks a b → has s b ∨ ∃ c ∈ out, gives c b := by
  induction h with
  | done s => simp
  | @take s s' a queue found out here rest ih =>
    have later : ∀ b, (∃ c ∈ found, gives c b) → ∃ c ∈ a :: out, gives c b := by
      rintro b ⟨c, hc, hg⟩
      have hout : c ∈ out := rest.queue_prefix.subset (List.mem_append_right _ hc)
      exact ⟨c, List.mem_cons_of_mem _ hout, hg⟩
    intro x hx b hb
    rcases List.mem_cons.1 hx with rfl | hx
    · exact (hstep s x queue s' found hs here b (Or.inl hb)).imp_right (later b)
    · rcases ih (hinv s a queue s' found hs here) x hx b hb with hs' | ⟨c, hc, hg⟩
      · exact (hstep s a queue s' found hs here b (Or.inr hs')).imp_right (later b)
      · exact Or.inr ⟨c, List.mem_cons_of_mem _ hc, hg⟩

end Traverses

/-- **A search with room takes everything or is stopped.**  A step that goes through keeps the
invariant and finds no more elements than it uses up room; so the bound is not what ends it. -/
theorem traverses_or_error (inv : σ → List α → Prop) (room : σ → Nat)
    (hstep : ∀ s a queue s' found, inv s (a :: queue) → step s a = .ok (s', found) →
      inv s' (queue ++ found) ∧ found.length + room s' ≤ room s)
    {bound : Nat} {s : σ} {queue : List α} (h : inv s queue)
    (hroom : queue.length + room s ≤ bound) :
    (∃ out, Traverses step s queue out ∧ out.length ≤ queue.length + room s) ∨
      ∃ s₁ a rest e, inv s₁ (a :: rest) ∧ step s₁ a = .error e ∧
        run step bound s queue = .error e := by
  induction bound generalizing s queue with
  | zero =>
    obtain rfl : queue = [] := List.length_eq_zero_iff.1 (by omega)
    exact Or.inl ⟨[], Traverses.done s, by simp⟩
  | succ bound ih =>
    cases queue with
    | nil => exact Or.inl ⟨[], Traverses.done s, by simp⟩
    | cons a queue =>
      cases here : step s a with
      | error e =>
        refine Or.inr ⟨s, a, queue, e, h, here, ?_⟩
        simp only [run, here]
      | ok next =>
        obtain ⟨s', found⟩ := next
        obtain ⟨hinv, hless⟩ := hstep s a queue s' found h here
        rw [List.length_cons] at hroom
        have hlen : (queue ++ found).length + room s' ≤ queue.length + room s := by
          rw [List.length_append]
          omega
        rcases ih hinv (by omega) with ⟨out, hout, hle⟩ | ⟨s₁, b, rest, e, hs₁, hb, hrun⟩
        · refine Or.inl ⟨a :: out, Traverses.take here hout, ?_⟩
          rw [List.length_cons, List.length_cons]
          omega
        · refine Or.inr ⟨s₁, b, rest, e, hs₁, hb, ?_⟩
          simp only [run, here, hrun]
          rfl

/-- **An account of the room makes a search a traversal**, if every step goes through. -/
theorem exists_traverses (inv : σ → List α → Prop) (room : σ → Nat)
    (hstep : ∀ s a queue, inv s (a :: queue) → ∃ s' found, step s a = .ok (s', found) ∧
      inv s' (queue ++ found) ∧ found.length + room s' ≤ room s)
    {s : σ} {queue : List α} (h : inv s queue) :
    ∃ out, Traverses step s queue out ∧ out.length ≤ queue.length + room s := by
  have hkeeps : ∀ s a queue s' found, inv s (a :: queue) → step s a = .ok (s', found) →
      inv s' (queue ++ found) ∧ found.length + room s' ≤ room s := by
    intro s a queue s' found hs here
    obtain ⟨s₁, found₁, here₁, hinv, hless⟩ := hstep s a queue hs
    obtain ⟨rfl, rfl⟩ := Prod.mk.inj (Except.ok.inj (here.symm.trans here₁))
    exact ⟨hinv, hless⟩
  rcases traverses_or_error inv room hkeeps h (Nat.le_refl _) with hout | ⟨s₁, a, rest, e, hs₁, he, -⟩
  · exact hout
  · obtain ⟨s', found, here, -⟩ := hstep s₁ a rest hs₁
    exact absurd (he.symm.trans here) (by simp)

/-! ## What a search lists -/

/-- A search that goes through lists the element that it takes first. -/
theorem exists_of_run_cons {bound : Nat} {s : σ} {a : α} {queue out : List α}
    (h : run step (bound + 1) s (a :: queue) = .ok out) :
    ∃ s' found rest, step s a = .ok (s', found) ∧
      run step bound s' (queue ++ found) = .ok rest ∧ out = a :: rest := by
  unfold run at h
  split at h
  · exact absurd h (by simp)
  · rename_i s' found here
    obtain ⟨rest, hrest, rfl⟩ := map_eq_ok_iff.1 h
    exact ⟨s', found, rest, here, hrest, rfl⟩

/-- **What a search lists was waiting, or is found in its steps**, and what holds of nothing
found and is passed on from the rest of a search to the whole holds of what is found.  With
too small a bound the list ends early. -/
theorem exists_found_of_run {motive : σ → List α → List α → Prop}
    (hend : ∀ s queue, motive s queue [])
    (hstep : ∀ s a queue s' new found, step s a = .ok (s', new) →
      motive s' (queue ++ new) found → motive s (a :: queue) (new ++ found))
    {bound : Nat} {s : σ} {queue out : List α} (h : run step bound s queue = .ok out) :
    ∃ found, out <+: queue ++ found ∧ motive s queue found := by
  induction bound generalizing s queue out with
  | zero =>
    have hout : out = [] := by
      cases queue <;> exact (Except.ok.inj h).symm
    exact ⟨[], by simp [hout], hend s queue⟩
  | succ bound ih =>
    cases queue with
    | nil =>
      obtain rfl := Except.ok.inj h
      exact ⟨[], by simp, hend s []⟩
    | cons a queue =>
      obtain ⟨s', new, rest, here, hrest, rfl⟩ := exists_of_run_cons h
      obtain ⟨found, hout, hfound⟩ := ih hrest
      refine ⟨new ++ found, ?_, hstep s a queue s' new found here hfound⟩
      rw [List.cons_append, ← List.append_assoc]
      exact List.cons_prefix_cons.2 ⟨rfl, hout⟩

/-- What the queue has and every step passes on, everything has that is found, together with
what the step that finds it gives. -/
theorem exists_forall_of_run {P Q : α → Prop}
    (hstep : ∀ s a s' found, P a → step s a = .ok (s', found) → ∀ b ∈ found, P b ∧ Q b)
    {bound : Nat} {s : σ} {queue out : List α} (h : run step bound s queue = .ok out)
    (hqueue : ∀ a ∈ queue, P a) :
    ∃ found, out <+: queue ++ found ∧ ∀ b ∈ found, P b ∧ Q b := by
  have hfrom := exists_found_of_run
    (motive := fun _ queue found => (∀ a ∈ queue, P a) → ∀ b ∈ found, P b ∧ Q b)
    (fun _ _ _ => by simp)
    (fun s a queue s' new found here ih hqueue => by
      have hnew := hstep s a s' new (hqueue a (by simp)) here
      have hrest : ∀ b ∈ queue ++ new, P b := by
        intro b hb
        rcases List.mem_append.1 hb with hb | hb
        · exact hqueue b (List.mem_cons_of_mem _ hb)
        · exact (hnew b hb).1
      intro b hb
      rcases List.mem_append.1 hb with hb | hb
      · exact hnew b hb
      · exact ih hrest b hb) h
  obtain ⟨found, hout, hfound⟩ := hfrom
  exact ⟨found, hout, hfound hqueue⟩

/-- **No two things are found that are remembered alike**, if the steps remember of everything
that they find something that was not remembered before. -/
theorem exists_nodup_of_run {β : Type} (key : α → β) (known : σ → List β)
    (hstep : ∀ s a s' found, step s a = .ok (s', found) →
      (known s').Perm (found.map key ++ known s) ∧ ((known s).Nodup → (known s').Nodup))
    {bound : Nat} {s : σ} {queue out : List α} (h : run step bound s queue = .ok out)
    (hknown : (known s).Nodup) :
    ∃ found, out <+: queue ++ found ∧ (found.map key ++ known s).Nodup := by
  have hfrom := exists_found_of_run
    (motive := fun s _ found => (known s).Nodup → (found.map key ++ known s).Nodup)
    (fun _ _ h => h)
    (fun s a queue s' new found here ih hknown => by
      obtain ⟨hperm, hnodup⟩ := hstep s a s' new here
      -- what is remembered in between is what was and the new
      have hmove : (found.map key ++ known s').Perm ((new ++ found).map key ++ known s) := by
        rw [List.map_append, List.append_assoc]
        refine (hperm.append_left (found.map key)).trans ?_
        rw [← List.append_assoc, ← List.append_assoc]
        exact List.perm_append_comm.append_right (known s)
      exact hmove.nodup_iff.1 (ih (hnodup hknown))) h
  obtain ⟨found, hout, hfound⟩ := hfrom
  exact ⟨found, hout, hfound hknown⟩

/-- **What was not waiting is found by something that is listed before it.** -/
theorem exists_parent_of_run {bound : Nat} {s : σ} {queue out : List α}
    (h : run step bound s queue = .ok out) {j : Nat} {b : α} (hj : out[j]? = some b) :
    queue[j]? = some b ∨ ∃ i a s₁ s₂ found, i < j ∧ out[i]? = some a ∧
      step s₁ a = .ok (s₂, found) ∧ b ∈ found := by
  induction bound generalizing s queue out j with
  | zero =>
    have hout : out = [] := by
      cases queue <;> exact (Except.ok.inj h).symm
    simp [hout] at hj
  | succ bound ih =>
    cases queue with
    | nil =>
      obtain rfl := Except.ok.inj h
      simp at hj
    | cons a queue =>
      obtain ⟨s', new, rest, here, hrest, rfl⟩ := exists_of_run_cons h
      cases j with
      | zero => exact Or.inl hj
      | succ j =>
        rw [List.getElem?_cons_succ] at hj ⊢
        rcases ih hrest hj with hqueue | ⟨i, a', s₁, s₂, found, hi, ha', hstep, hb⟩
        · rcases Nat.lt_or_ge j queue.length with hlt | hge
          · rw [List.getElem?_append_left hlt] at hqueue
            exact Or.inl hqueue
          · -- it is one of those that the first element finds
            rw [List.getElem?_append_right hge] at hqueue
            exact Or.inr ⟨0, a, s, s', new, Nat.succ_pos j, rfl, here, List.mem_of_getElem? hqueue⟩
        · exact Or.inr ⟨i + 1, a', s₁, s₂, found, Nat.succ_lt_succ hi, ha', hstep, hb⟩

end LRTables.Worklist
