import LRTables.Distinct
import LRTables.Proofs.Grammar.WellFormed
import Mathlib.Data.List.Perm.Subperm

/-!
# Productions that can be reached

A non-terminal is reached from the start symbol through right sides.  The productions of
non-terminals that are not can be left out, and what is left is a well-formed grammar with the same
start.  Which non-terminals are reached is found in rounds, each of which adds those that the
productions of the others hold.

* `Grammar.Reachable` — the non-terminals that are reached from the start symbol.
* `Grammar.mem_reached_iff` — they are found in finitely many rounds.
* `Grammar.keeping` — the productions of some non-terminals, and `Grammar.IsClosed`, when the
  right sides of these lead to no others.
* `Grammar.reachablePart` — the productions of the non-terminals that are reached.
-/

namespace LRTables.Grammar

variable {g : Grammar}

/-- Is the non-terminal reached from the start symbol through right sides? -/
inductive Reachable (g : Grammar) : String → Prop where
  /-- The start symbol is. -/
  | start : Reachable g g.start
  /-- So is every non-terminal of a right side of one that is. -/
  | step {p : Production} {n : String} (hp : p ∈ g) (hlhs : Reachable g p.lhs)
      (hn : .nonterminal n ∈ p.rhs) : Reachable g n

/-! ## Finding what is reached -/

/-- The non-terminals that the productions of some names hold. -/
def held (g : Grammar) (names : List String) : List String :=
  (g.filter fun p => p.lhs ∈ names).flatMap fun p => nonterminalNames p.rhs

theorem mem_held_iff {names : List String} {n : String} :
    n ∈ g.held names ↔ ∃ p ∈ g, p.lhs ∈ names ∧ .nonterminal n ∈ p.rhs := by
  simp [held, mem_nonterminalNames_iff, and_assoc]

/-- The names that are reached in so many rounds. -/
def reachedWithin (g : Grammar) : Nat → List String
  | 0 => [g.start]
  | k + 1 => appendDistinct (reachedWithin g k) (g.held (reachedWithin g k))

theorem reachable_of_mem_reachedWithin {k : Nat} {n : String} (h : n ∈ g.reachedWithin k) :
    g.Reachable n := by
  induction k generalizing n with
  | zero =>
    rw [List.mem_singleton.1 h]
    exact Reachable.start
  | succ k ih =>
    rcases mem_appendDistinct.1 h with h | h
    · exact ih h
    · obtain ⟨p, hp, hlhs, hn⟩ := mem_held_iff.1 h
      exact Reachable.step hp (ih hlhs) hn

theorem held_mono {names names' : List String} (h : names ⊆ names') :
    g.held names ⊆ g.held names' := by
  intro n hn
  obtain ⟨p, hp, hlhs, hn⟩ := mem_held_iff.1 hn
  exact mem_held_iff.2 ⟨p, hp, h hlhs, hn⟩

/-- As long as not everything is reached, every round adds a name. -/
theorem held_subset_or_lt (g : Grammar) (k : Nat) :
    g.held (g.reachedWithin k) ⊆ g.reachedWithin k ∨ k < (g.reachedWithin k).length := by
  induction k with
  | zero => exact Or.inr (Nat.succ_pos 0)
  | succ k ih =>
    have hpre : g.reachedWithin k <+: g.reachedWithin (k + 1) := prefix_appendDistinct _ _
    by_cases hclosed : g.held (g.reachedWithin k) ⊆ g.reachedWithin k
    · have hsub : g.reachedWithin (k + 1) ⊆ g.reachedWithin k :=
        fun n hn => (mem_appendDistinct.1 hn).elim id fun hn => hclosed hn
      exact Or.inl (List.Subset.trans (List.Subset.trans (held_mono hsub) hclosed) hpre.subset)
    · -- there is a name to add, which makes the list longer
      have hlt : k < (g.reachedWithin k).length := ih.resolve_left hclosed
      have hne : (g.reachedWithin k).length ≠ (g.reachedWithin (k + 1)).length := by
        intro hlen
        refine hclosed fun n hn => ?_
        rw [hpre.eq_of_length hlen]
        exact mem_appendDistinct.2 (Or.inr hn)
      have hle := hpre.length_le
      exact Or.inr (by omega)

/-- The names that can be reached. -/
def candidates (g : Grammar) : List String := g.start :: g.flatMap fun p => nonterminalNames p.rhs

theorem length_reachedWithin_le (g : Grammar) (k : Nat) :
    (g.reachedWithin k).length ≤ g.candidates.length := by
  refine List.Subperm.length_le (List.subperm_of_subset ?_ ?_)
  · induction k with
    | zero => simp [reachedWithin]
    | succ k ih => exact nodup_appendDistinct _ ih
  · intro n hn
    cases reachable_of_mem_reachedWithin hn with
    | start => exact List.mem_cons_self ..
    | step hp _ hn =>
      exact List.mem_cons_of_mem _
        (List.mem_flatMap.2 ⟨_, hp, mem_nonterminalNames_iff.2 hn⟩)

/-- The names that are reached, in the order in which they are found. -/
def reached (g : Grammar) : List String := g.reachedWithin g.candidates.length

/-- **Everything that is reached is found.** -/
theorem mem_reached_iff (g : Grammar) (n : String) : n ∈ g.reached ↔ g.Reachable n := by
  refine ⟨reachable_of_mem_reachedWithin, fun h => ?_⟩
  have hclosed : g.held g.reached ⊆ g.reached :=
    (held_subset_or_lt g _).resolve_right (Nat.not_lt.2 (length_reachedWithin_le g _))
  induction h with
  | start =>
    -- the start symbol is there from the beginning on
    have hstart : ∀ k, g.start ∈ g.reachedWithin k := by
      intro k
      induction k with
      | zero => exact List.mem_singleton_self _
      | succ k ih => exact mem_appendDistinct.2 (Or.inl ih)
    exact hstart _
  | step hp _ hn ih => exact hclosed (mem_held_iff.2 ⟨_, hp, ih, hn⟩)

instance (g : Grammar) : DecidablePred g.Reachable :=
  fun n => decidable_of_iff _ (g.mem_reached_iff n)

/-! ## Leaving out productions -/

/-- The productions of the non-terminals that are kept, in their order. -/
def keeping (g : Grammar) (keep : String → Bool) : Grammar := g.filter fun p => keep p.lhs

/-- Is the start symbol kept, and every non-terminal of a right side of one that is? -/
structure IsClosed (g : Grammar) (keep : String → Bool) : Prop where
  /-- The start symbol is kept. -/
  start : keep g.start = true
  /-- What is kept leads to nothing else. -/
  step : ∀ p ∈ g, keep p.lhs = true → ∀ n, .nonterminal n ∈ p.rhs → keep n = true

/-- The productions of the non-terminals that are reached. -/
def reachablePart (g : Grammar) : Grammar := g.keeping fun n => decide (g.Reachable n)

theorem isClosed_reachable (g : Grammar) : g.IsClosed fun n => decide (g.Reachable n) :=
  ⟨decide_eq_true Reachable.start, fun _ hp hlhs _ hn =>
    decide_eq_true (Reachable.step hp (of_decide_eq_true hlhs) hn)⟩

variable {keep : String → Bool}

theorem mem_keeping_iff {p : Production} : p ∈ g.keeping keep ↔ p ∈ g ∧ keep p.lhs = true :=
  List.mem_filter

/-- The productions of a non-terminal that is kept are all kept. -/
theorem filter_keeping {n : String} (hn : keep n = true) :
    ((g.keeping keep).filter fun p => p.lhs == n) = g.filter fun p => p.lhs == n := by
  rw [keeping, List.filter_filter]
  refine List.filter_congr fun p _ => ?_
  by_cases hp : p.lhs = n
  · simp [hp, hn]
  · simp [hp]

namespace IsClosed

variable (hg : g.WellFormed) (hkeep : g.IsClosed keep)

include hg hkeep

/-- The start symbol stays what it is. -/
theorem start_keeping : (g.keeping keep).start = g.start := by
  obtain ⟨p, rest, rfl⟩ := List.exists_cons_of_ne_nil hg.ne_nil
  have hp : keep p.lhs = true := hkeep.start
  simp only [keeping, List.filter_cons, hp, if_true]
  rfl

theorem startProduction_keeping : (g.keeping keep).startProduction = g.startProduction := by
  rw [startProduction, hkeep.start_keeping hg, startProduction]

theorem augmented_keeping :
    (g.keeping keep).augmented = g.startProduction :: g.keeping keep := by
  rw [augmented, hkeep.startProduction_keeping hg]

theorem seed_keeping : (g.keeping keep).seed = g.seed := by
  rw [seed, hkeep.startProduction_keeping hg, seed]

/-- **What is left is well-formed.** -/
theorem wellFormed : (g.keeping keep).WellFormed := by
  obtain ⟨q, hq, hstart⟩ := hg.exists_start
  have hkept : q ∈ g.keeping keep := mem_keeping_iff.2 ⟨hq, by rw [hstart]; exact hkeep.start⟩
  have hsub : ∀ p ∈ g.keeping keep, p ∈ g := fun p hp => (mem_keeping_iff.1 hp).1
  refine ⟨List.ne_nil_of_mem hkept, fun p hp => hg.lhs p (hsub p hp),
    fun p hp => hg.rhs_ne_nil p (hsub p hp), fun p hp => hg.wellNamed p (hsub p hp),
    fun p hp => hg.epsilon_alone p (hsub p hp), fun p hp n hn => ?_⟩
  obtain ⟨r, hr, rfl⟩ := hg.defined p (hsub p hp) n hn
  exact ⟨r, mem_keeping_iff.2 ⟨hr, hkeep.step p (hsub p hp) (mem_keeping_iff.1 hp).2 _ hn⟩, rfl⟩

/-- The non-terminals on right sides of what is left are kept, also on that of the start
production. -/
theorem keep_of_mem {p : Production} (hp : p ∈ (g.keeping keep).augmented) {n : String}
    (hn : .nonterminal n ∈ p.rhs) : keep n = true := by
  obtain ⟨q, hq, rfl⟩ := (hkeep.wellFormed hg).defined_augmented hp hn
  exact (mem_keeping_iff.1 hq).2

end IsClosed

end LRTables.Grammar
