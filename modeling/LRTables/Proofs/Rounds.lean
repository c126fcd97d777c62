import Mathlib.Tactic.Common

/-!
# Loops that go on until a round is quiet

FIRST sets are found in passes, and states are merged in passes, until one of them finds nothing
to do.  Such a loop is a chain of rounds, each of which but the last calls for another.  That it
comes to its end follows from a weight: a round that calls for another leaves less of it.

* `Rounds` — the rounds of a loop, and what each of them has to show.
* `exists_rounds` — a weight brings a loop to its end and bounds the number of its rounds.
* `Rounds.exists_last` — the last round calls for no other.
* `Rounds.unique` — what a loop comes to is fixed.
-/

namespace LRTables

variable {α β ε : Type}

/-- **The rounds of a loop**, from what it begins with to what it comes to: what each of them
shows, which says together with what the round began with whether there is another. -/
inductive Rounds (step : α → Except ε (α × β)) (again : α → β → Prop) :
    α → List β → α → Prop where
  /-- A round that calls for no other is the last one. -/
  | last {a z : α} {b : β} (here : step a = .ok (z, b)) (quiet : ¬ again a b) :
      Rounds step again a [b] z
  /-- A round that calls for another is followed by the rest of them. -/
  | more {a a' z : α} {b : β} {shown : List β} (here : step a = .ok (a', b)) (call : again a b)
      (rest : Rounds step again a' shown z) : Rounds step again a (b :: shown) z

/-- **A weight brings a loop to its end.**  Every round goes through, keeps the invariant and adds
no weight, and one that calls for another takes some away. -/
theorem exists_rounds (step : α → Except ε (α × β)) (again : α → β → Prop) (inv : α → Prop)
    (weight : α → Nat)
    (hstep : ∀ a, inv a → ∃ a' b, step a = .ok (a', b) ∧ inv a' ∧ weight a' ≤ weight a ∧
      (again a b → weight a' < weight a))
    {a : α} (h : inv a) :
    ∃ shown z, Rounds step again a shown z ∧ inv z ∧ shown.length + weight z ≤ weight a + 1 := by
  induction hn : weight a using Nat.strongRecOn generalizing a with
  | ind n ih =>
    obtain ⟨a', b, here, hinv, hle, hlt⟩ := hstep a h
    by_cases hagain : again a b
    · have hless : weight a' < n := by
        rw [← hn]
        exact hlt hagain
      obtain ⟨shown, z, hrounds, hz, hlen⟩ := ih (weight a') hless hinv rfl
      refine ⟨b :: shown, z, Rounds.more here hagain hrounds, hz, ?_⟩
      rw [List.length_cons]
      omega
    · refine ⟨[b], a', Rounds.last here hagain, hinv, ?_⟩
      rw [List.length_singleton]
      omega

/-- **The last round** leads to the end and calls for no other. -/
theorem Rounds.exists_last {step : α → Except ε (α × β)} {again : α → β → Prop} {a z : α}
    {shown : List β} (h : Rounds step again a shown z) :
    ∃ y b, shown.getLast? = some b ∧ step y = .ok (z, b) ∧ ¬ again y b := by
  induction h with
  | @last a z b here quiet => exact ⟨a, b, rfl, here, quiet⟩
  | @more a a' z b shown here call rest ih =>
    obtain ⟨y, c, hlast, hy, hquiet⟩ := ih
    refine ⟨y, c, ?_, hy, hquiet⟩
    rw [List.getLast?_cons, hlast]
    rfl

/-- **What a loop comes to** is fixed by what it begins with. -/
theorem Rounds.unique {step : α → Except ε (α × β)} {again : α → β → Prop} {a z z' : α}
    {shown shown' : List β} (h : Rounds step again a shown z)
    (h' : Rounds step again a shown' z') : z = z' := by
  induction h generalizing shown' with
  | last here quiet =>
    cases h' with
    | last here' _ => exact (Prod.mk.inj (Except.ok.inj (here.symm.trans here'))).1
    | more here' call' _ =>
      obtain ⟨-, rfl⟩ := Prod.mk.inj (Except.ok.inj (here.symm.trans here'))
      exact absurd call' quiet
  | more here call _ ih =>
    cases h' with
    | last here' quiet' =>
      obtain ⟨-, rfl⟩ := Prod.mk.inj (Except.ok.inj (here.symm.trans here'))
      exact absurd call quiet'
    | more here' _ rest' =>
      obtain ⟨rfl, -⟩ := Prod.mk.inj (Except.ok.inj (here.symm.trans here'))
      exact ih rest'

end LRTables
