import LRTables.Proofs.FirstSets.Stable
import LRTables.Proofs.Grammar.Reachable
import LRTables.Proofs.Restriction

/-!
# FIRST sets of a part of a grammar

The FIRST sets of non-terminals that lead to no others are found without the productions of these.
What a production adds is kept if its left side is, and is read off sets that are kept then; so a
pass over what is left does to the sets that are kept what a pass over all productions does.  A pass
that adds to other sets only is one that the part does without, so the numbers of the passes may
differ, but not what they come to.

* `FirstSets.restrict_visit`, `FirstSets.restrict_pass` — productions and passes.
* `FirstSets.exists_settles_keeping` — the passes over a part.
* `FirstSets.compute_keeping` — the sets of a part.
-/

namespace LRTables.FirstSets

variable {g : Grammar} {keep : String → Bool} {first next : FirstSets}

theorem restrict_add_of_keep {lhs : String} (h : keep lhs = true) (first : FirstSets)
    (new : List String) :
    (first.add lhs new).restrict keep = add (first.restrict keep) lhs new := by
  rw [add, OrderedMap.restrict_modify, if_pos h, add]

theorem restrict_add_of_not_keep {lhs : String} (h : keep lhs ≠ true) (first : FirstSets)
    (new : List String) : (first.add lhs new).restrict keep = first.restrict keep := by
  rw [add, OrderedMap.restrict_modify, if_neg h]

/-- Reading a right side of non-terminals that are kept. -/
theorem scan_restrict {lhs : String} (hlhs : keep lhs = true) {xs : List Symbol}
    (hxs : ∀ n, .nonterminal n ∈ xs → keep n = true) (h : scan lhs first xs = .ok next) :
    scan lhs (first.restrict keep) xs = .ok (next.restrict keep) := by
  induction xs generalizing first with
  | nil =>
    obtain rfl := Except.ok.inj h
    rfl
  | cons x rest ih =>
    cases x with
    | terminal a =>
      obtain rfl := Except.ok.inj h
      rw [scan, restrict_add_of_keep hlhs]
    | nonterminal b =>
      have hb : (first.restrict keep).get? b = first.get? b := by
        rw [OrderedMap.get?_restrict, if_pos (hxs b (List.mem_cons_self ..))]
      simp only [scan] at h ⊢
      rw [hb]
      split at h
      · exact absurd h (by simp)
      · rw [← restrict_add_of_keep hlhs]
        split at h
        · rename_i hempty
          rw [if_pos hempty]
          exact ih (fun n hn => hxs n (List.mem_cons_of_mem _ hn)) h
        · rename_i hempty
          rw [if_neg hempty, Except.ok.inj h]

/-- Reading a right side changes only the set of the left side. -/
theorem restrict_of_scan {lhs : String} (hlhs : keep lhs ≠ true) {xs : List Symbol}
    (h : scan lhs first xs = .ok next) : next.restrict keep = first.restrict keep := by
  induction xs generalizing first with
  | nil => rw [Except.ok.inj h]
  | cons x rest ih =>
    cases x with
    | terminal a => rw [← Except.ok.inj h, restrict_add_of_not_keep hlhs]
    | nonterminal b =>
      simp only [scan] at h
      split at h
      · exact absurd h (by simp)
      · split at h
        · rw [ih h, restrict_add_of_not_keep hlhs]
        · rw [← Except.ok.inj h, restrict_add_of_not_keep hlhs]

/-- A production that is kept adds to the sets that are kept what it adds to all. -/
theorem visit_restrict {p : Production} (hlhs : keep p.lhs = true)
    (hrhs : ∀ n, .nonterminal n ∈ p.rhs → keep n = true) (h : visit first p = .ok next) :
    visit (first.restrict keep) p = .ok (next.restrict keep) := by
  unfold visit at h ⊢
  split at h
  · rename_i hempty
    rw [if_pos hempty, ← Except.ok.inj h, restrict_add_of_keep hlhs]
  · rename_i hempty
    rw [if_neg hempty]
    exact scan_restrict hlhs hrhs h

/-- Any other production adds nothing to the sets that are kept. -/
theorem restrict_of_visit {p : Production} (hlhs : keep p.lhs ≠ true)
    (h : visit first p = .ok next) : next.restrict keep = first.restrict keep := by
  unfold visit at h
  split at h
  · rw [← Except.ok.inj h, restrict_add_of_not_keep hlhs]
  · exact restrict_of_scan hlhs h

/-- **A pass over what is left** does to the sets that are kept what a pass over all does. -/
theorem pass_restrict
    (hstep : ∀ p ∈ g, keep p.lhs = true → ∀ n, .nonterminal n ∈ p.rhs → keep n = true)
    (h : pass g first = .ok next) :
    pass (g.keeping keep) (first.restrict keep) = .ok (next.restrict keep) := by
  induction g generalizing first with
  | nil =>
    obtain rfl := Except.ok.inj h
    rfl
  | cons p g ih =>
    obtain ⟨mid, hvisit, hpass⟩ := pass_cons h
    have hrest := ih (fun q hq => hstep q (List.mem_cons_of_mem _ hq)) hpass
    by_cases hp : keep p.lhs = true
    · have hkept := visit_restrict hp (hstep p (List.mem_cons_self ..) hp) hvisit
      simp only [Grammar.keeping, pass, List.filter_cons, hp, if_true, List.foldlM_cons, bind,
        Except.bind, hkept]
      exact hrest
    · rw [restrict_of_visit hp hvisit] at hrest
      simp only [Grammar.keeping, List.filter_cons, hp, if_false, Bool.false_eq_true]
      exact hrest

/-- **The passes over what is left** come to the sets that are kept of those that the passes over
all come to.  Passes that add to no set that is kept fall away. -/
theorem exists_settles_keeping
    (hstep : ∀ p ∈ g, keep p.lhs = true → ∀ n, .nonterminal n ∈ p.rhs → keep n = true)
    {last : FirstSets} {passes : List FirstSets} (h : Settles g first passes last) :
    ∃ passes', Settles (g.keeping keep) (first.restrict keep) passes' (last.restrict keep) := by
  induction h with
  | @last first last shown here quiet =>
    obtain ⟨hpass, rfl⟩ := round_eq_ok_iff.1 here
    obtain rfl : shown = first := not_not.1 quiet
    exact ⟨_, Rounds.last (round_eq_ok_iff.2 ⟨pass_restrict hstep hpass, rfl⟩) (by simp)⟩
  | @more first next last shown passes here call _ ih =>
    obtain ⟨hpass, rfl⟩ := round_eq_ok_iff.1 here
    obtain ⟨passes', hsettles⟩ := ih
    by_cases hsame : shown.restrict keep = first.restrict keep
    · rw [hsame] at hsettles
      exact ⟨passes', hsettles⟩
    · exact ⟨_, Rounds.more (round_eq_ok_iff.2 ⟨pass_restrict hstep hpass, rfl⟩) hsame hsettles⟩

/-- The sets that the passes over what is left begin with. -/
theorem restrict_initial : (initial g).restrict keep = initial (g.keeping keep) := by
  rw [initial, OrderedMap.restrict_ofList, initial, Grammar.keeping, List.filter_map]
  rfl

/-- **The FIRST sets of a closed part** are those of the whole grammar, in their order, with their
names in their order. -/
theorem compute_keeping (hg : g.WellFormed) (hkeep : g.IsClosed keep)
    (h : compute g = .ok first) : compute (g.keeping keep) = .ok (first.restrict keep) := by
  obtain ⟨passes, first', -, hcompute, hsettles, -⟩ := exists_passes hg.defined
  obtain rfl : first' = first := Except.ok.inj (hcompute.symm.trans h)
  obtain ⟨passes', last, -, hcompute', hsettles', -⟩ := exists_passes (hkeep.wellFormed hg).defined
  obtain ⟨passes'', hkept⟩ := exists_settles_keeping hkeep.step hsettles
  rw [restrict_initial] at hkept
  rw [hcompute', hkept.unique hsettles']

end LRTables.FirstSets
