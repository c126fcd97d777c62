import LRTables.FirstSets
import LRTables.Proofs.Entries
import LRTables.Proofs.Outcome
import Mathlib.Data.List.Forall2

/-!
# FIRST sets grow

Whatever a pass does to the sets, it only adds names at their ends.  So sets that two
steps lead from each other to are the same, and a pass that changes anything makes the
sets heavier; `FirstSets.count` is the weight that bounds the passes.

* `FirstSets.Grows` — the same keys in the same order, every list longer at its end.
* `FirstSets.grows_visit`, `FirstSets.grows_pass` — productions and passes make sets grow.
* `FirstSets.Grows.eq_or_count_lt` — sets that grow are the same or heavier.
-/

namespace LRTables.FirstSets

/-- The keys are the same, in the same order, and every list is a prefix of its successor. -/
def Grows (first next : FirstSets) : Prop :=
  List.Forall₂ (fun e e' => e.1 = e'.1 ∧ e.2 <+: e'.2) first.entries next.entries

/-- The number of names in all sets. -/
def count (first : FirstSets) : Nat := first.weight List.length

namespace Grows

variable {a b c : FirstSets}

theorem refl (a : FirstSets) : Grows a a := by
  unfold Grows
  induction a.entries with
  | nil => exact List.Forall₂.nil
  | cons e rest ih => exact List.Forall₂.cons ⟨rfl, List.prefix_refl _⟩ ih

theorem trans (hab : Grows a b) (hbc : Grows b c) : Grows a c := by
  unfold Grows at *
  generalize a.entries = as at *
  generalize b.entries = bs at *
  generalize c.entries = cs at *
  induction hab generalizing cs with
  | nil => exact hbc
  | cons h _ ih =>
    cases hbc with
    | cons h' hrest => exact List.Forall₂.cons ⟨h.1.trans h'.1, h.2.trans h'.2⟩ (ih _ hrest)

/-- The keys stay. -/
theorem keys (h : Grows a b) : b.keys = a.keys := by
  unfold Grows at h
  unfold OrderedMap.keys
  generalize a.entries = as at *
  generalize b.entries = bs at *
  induction h with
  | nil => rfl
  | cons h _ ih => rw [List.map_cons, List.map_cons, ih, h.1]

/-- Sets that grow are the same or have more names. -/
theorem eq_or_count_lt (h : Grows a b) : a = b ∨ a.count < b.count := by
  have key : a.entries = b.entries ∨ a.count < b.count := by
    unfold Grows at h
    unfold count OrderedMap.weight
    generalize a.entries = as at *
    generalize b.entries = bs at *
    induction h with
    | nil => exact Or.inl rfl
    | @cons e e' es es' h _ ih =>
      obtain ⟨n, names⟩ := e
      obtain ⟨n', names'⟩ := e'
      obtain ⟨rfl, hpre⟩ := h
      have hlen : names.length ≤ names'.length := hpre.length_le
      simp only [OrderedMap.weightEntries]
      by_cases hl : names.length = names'.length
      · obtain rfl : names = names' := List.IsPrefix.eq_of_length hpre hl
        rcases ih with rfl | ih
        · exact Or.inl rfl
        · exact Or.inr (by omega)
      · rcases ih with rfl | ih
        · exact Or.inr (by omega)
        · exact Or.inr (by omega)
  exact key.imp_left OrderedMap.eq_of_entries_eq

/-- Sets that grow into each other are the same. -/
theorem antisymm (hab : Grows a b) (hba : Grows b a) : a = b := by
  rcases hab.eq_or_count_lt with h | h
  · exact h
  · rcases hba.eq_or_count_lt with h' | h'
    · exact h'.symm
    · omega

end Grows

/-! ## What makes sets grow -/

theorem grows_add (first : FirstSets) (lhs : String) (new : List String) :
    Grows first (first.add lhs new) := by
  unfold add
  cases h : first.get? lhs with
  | none =>
    rw [OrderedMap.modify_of_none h]
    exact Grows.refl first
  | some names =>
    rw [OrderedMap.modify_of_some h]
    -- the only entry that changes is the first one with this key
    have key : ∀ entries : List (String × List String), OrderedMap.lookup lhs entries = some names →
        List.Forall₂ (fun e e' => e.1 = e'.1 ∧ e.2 <+: e'.2) entries
          (OrderedMap.put lhs (appendDistinct names new) entries) := by
      intro entries
      induction entries with
      | nil => intro hl; exact absurd hl (by simp [OrderedMap.lookup])
      | cons e rest ih =>
        obtain ⟨j, old⟩ := e
        intro hl
        by_cases hj : j = lhs
        · simp only [OrderedMap.lookup, hj, if_true, Option.some.injEq] at hl
          subst hl
          simp only [OrderedMap.put, hj, if_true]
          refine List.Forall₂.cons ⟨rfl, prefix_appendDistinct old new⟩ ?_
          exact List.forall₂_same.2 fun x _ => ⟨rfl, List.prefix_refl _⟩
        · simp only [OrderedMap.lookup, hj, if_false] at hl
          simp only [OrderedMap.put, hj, if_false]
          exact List.Forall₂.cons ⟨rfl, List.prefix_refl _⟩ (ih hl)
    exact key first.entries h

@[simp] theorem keys_add (first : FirstSets) (lhs : String) (new : List String) :
    (first.add lhs new).keys = first.keys :=
  OrderedMap.keys_modify first lhs _

theorem get?_add (first : FirstSets) (lhs n : String) (new : List String) :
    (first.add lhs new).get? n =
      if lhs = n then (first.get? n).map fun names => appendDistinct names new else first.get? n :=
  OrderedMap.get?_modify first lhs n _

/-- Reading a right side makes the sets grow. -/
theorem grows_scan {lhs : String} {xs : List Symbol} {first next : FirstSets}
    (h : scan lhs first xs = .ok next) : Grows first next := by
  induction xs generalizing first with
  | nil =>
    obtain rfl := Except.ok.inj h
    exact Grows.refl first
  | cons x rest ih =>
    cases x with
    | terminal a =>
      obtain rfl := Except.ok.inj h
      exact grows_add first lhs [a]
    | nonterminal b =>
      simp only [scan] at h
      split at h
      · exact absurd h (by simp)
      · split at h
        · exact (grows_add first lhs _).trans (ih h)
        · obtain rfl := Except.ok.inj h
          exact grows_add first lhs _

/-- A production makes the sets grow. -/
theorem grows_visit {p : Production} {first next : FirstSets} (h : visit first p = .ok next) :
    Grows first next := by
  unfold visit at h
  split at h
  · obtain rfl := Except.ok.inj h
    exact grows_add first p.lhs [epsilon]
  · exact grows_scan h

theorem pass_cons {p : Production} {g : Grammar} {first next : FirstSets}
    (h : pass (p :: g) first = .ok next) :
    ∃ mid, visit first p = .ok mid ∧ pass g mid = .ok next := by
  rw [pass, List.foldlM_cons] at h
  exact bind_eq_ok_iff.1 h

/-- A pass makes the sets grow. -/
theorem grows_pass {g : Grammar} {first next : FirstSets} (h : pass g first = .ok next) :
    Grows first next := by
  induction g generalizing first with
  | nil =>
    obtain rfl := Except.ok.inj h
    exact Grows.refl first
  | cons p g ih =>
    obtain ⟨mid, hv, hp⟩ := pass_cons h
    exact (grows_visit hv).trans (ih hp)

/-- In a pass that adds nothing, no production adds anything. -/
theorem visit_of_pass_eq {g : Grammar} {first : FirstSets} (h : pass g first = .ok first) :
    ∀ p ∈ g, visit first p = .ok first := by
  induction g with
  | nil => simp
  | cons p g ih =>
    obtain ⟨mid, hv, hp⟩ := pass_cons h
    obtain rfl : first = mid := (grows_visit hv).antisymm (grows_pass hp)
    intro q hq
    rcases List.mem_cons.1 hq with rfl | hq
    · exact hv
    · exact ih hp q hq

end LRTables.FirstSets
