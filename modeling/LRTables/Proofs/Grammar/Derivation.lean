import LRTables.Proofs.Grammar.WellFormed
import Mathlib.Logic.Relation

/-!
# Derivations

The language of a grammar, in two forms.  A derivation replaces one non-terminal after
the other, wherever it stands; the name of the empty string is replaced by nothing.  A
yield follows the productions instead: what a string of symbols yields is what its
symbols yield, one behind the other.  The drivers of parse tables follow yields.

* `Grammar.Derives` — derivations.
* `Grammar.Yields` — what a string of symbols yields, by its productions.
* `Grammar.yields_of_derives`, `Grammar.Yields.derives` — the two come to the same words.
* `Grammar.formsWithin` — what the start symbol derives in so many steps, as a list.
-/

namespace LRTables

/-- What a production replaces its left side by. -/
def Production.body (p : Production) : List Symbol := if p.isEpsilon then [] else p.rhs

namespace Grammar

variable {g : Grammar}

/-! ## Derivations -/

/-- One non-terminal is replaced. -/
inductive Step (g : Grammar) : List Symbol → List Symbol → Prop where
  /-- The non-terminal between `u` and `v` is replaced by the body of a production. -/
  | replace (u v : List Symbol) {p : Production} (h : p ∈ g) :
      Step g (u ++ .nonterminal p.lhs :: v) (u ++ p.body ++ v)

/-- Non-terminals are replaced one after the other. -/
abbrev Derives (g : Grammar) : List Symbol → List Symbol → Prop := Relation.ReflTransGen g.Step

/-- Is the word one that the start symbol derives? -/
def Generates (g : Grammar) (w : List String) : Prop :=
  g.Derives [.nonterminal g.start] (w.map .terminal)

theorem Step.append_left {xs ys : List Symbol} (h : g.Step xs ys) (pre : List Symbol) :
    g.Step (pre ++ xs) (pre ++ ys) := by
  obtain ⟨u, v, hp⟩ := h
  simpa only [List.append_assoc] using Step.replace (pre ++ u) v hp

theorem Step.append_right {xs ys : List Symbol} (h : g.Step xs ys) (post : List Symbol) :
    g.Step (xs ++ post) (ys ++ post) := by
  obtain ⟨u, v, hp⟩ := h
  simpa only [List.append_assoc, List.cons_append] using Step.replace u (v ++ post) hp

theorem Derives.append_left {xs ys : List Symbol} (h : g.Derives xs ys) (pre : List Symbol) :
    g.Derives (pre ++ xs) (pre ++ ys) := by
  induction h with
  | refl => exact Relation.ReflTransGen.refl
  | tail _ hstep ih => exact ih.tail (hstep.append_left pre)

theorem Derives.append_right {xs ys : List Symbol} (h : g.Derives xs ys) (post : List Symbol) :
    g.Derives (xs ++ post) (ys ++ post) := by
  induction h with
  | refl => exact Relation.ReflTransGen.refl
  | tail _ hstep ih => exact ih.tail (hstep.append_right post)

/-- A production derives its body. -/
theorem derives_body {p : Production} (h : p ∈ g) : g.Derives [.nonterminal p.lhs] p.body := by
  simpa using Relation.ReflTransGen.single (Step.replace [] [] h)

/-! ## Yields -/

/-- What a string of symbols yields: a terminal its own name, a non-terminal what the
body of one of its productions yields. -/
inductive Yields (g : Grammar) : List Symbol → List String → Prop where
  /-- Nothing yields nothing. -/
  | nil : Yields g [] []
  /-- A terminal comes first. -/
  | terminal (a : String) {xs : List Symbol} {w : List String} (rest : Yields g xs w) :
      Yields g (.terminal a :: xs) (a :: w)
  /-- A non-terminal comes first. -/
  | nonterminal {p : Production} {xs : List Symbol} {u w : List String} (h : p ∈ g)
      (body : Yields g p.body u) (rest : Yields g xs w) :
      Yields g (.nonterminal p.lhs :: xs) (u ++ w)

theorem Yields.append {xs ys : List Symbol} {u w : List String} (hx : g.Yields xs u)
    (hy : g.Yields ys w) : g.Yields (xs ++ ys) (u ++ w) := by
  induction hx with
  | nil => exact hy
  | terminal a _ ih => exact Yields.terminal a ih
  | nonterminal h body _ _ ih =>
    rw [List.append_assoc]
    exact Yields.nonterminal h body ih

/-- What two strings yield together is what they yield one behind the other. -/
theorem Yields.of_append {xs ys : List Symbol} {w : List String} (h : g.Yields (xs ++ ys) w) :
    ∃ u v, w = u ++ v ∧ g.Yields xs u ∧ g.Yields ys v := by
  induction xs generalizing w with
  | nil => exact ⟨[], w, rfl, Yields.nil, h⟩
  | cons x xs ih =>
    rw [List.cons_append] at h
    cases h with
    | terminal a rest =>
      obtain ⟨u, v, rfl, hu, hv⟩ := ih rest
      exact ⟨a :: u, v, rfl, Yields.terminal a hu, hv⟩
    | @nonterminal _ _ b _ hp body rest =>
      obtain ⟨u, v, rfl, hu, hv⟩ := ih rest
      exact ⟨b ++ u, v, (List.append_assoc ..).symm, Yields.nonterminal hp body hu, hv⟩

theorem yields_map_terminal (w : List String) : g.Yields (w.map .terminal) w := by
  induction w with
  | nil => exact Yields.nil
  | cons a w ih => exact Yields.terminal a ih

/-- Undoing a replacement keeps what is yielded. -/
theorem Step.yields {xs ys : List Symbol} {w : List String} (h : g.Step xs ys)
    (hy : g.Yields ys w) : g.Yields xs w := by
  obtain ⟨u, v, hp⟩ := h
  obtain ⟨w', w₃, rfl, h', h₃⟩ := hy.of_append
  obtain ⟨w₁, w₂, rfl, h₁, h₂⟩ := h'.of_append
  rw [List.append_assoc]
  exact h₁.append (Yields.nonterminal hp h₂ h₃)

/-- **What is derived is yielded.** -/
theorem yields_of_derives {xs : List Symbol} {w : List String}
    (h : g.Derives xs (w.map .terminal)) : g.Yields xs w := by
  induction h using Relation.ReflTransGen.head_induction_on with
  | refl => exact yields_map_terminal w
  | head hstep _ ih => exact hstep.yields ih

/-- What is yielded is derived. -/
theorem Yields.derives {xs : List Symbol} {w : List String} (h : g.Yields xs w) :
    g.Derives xs (w.map .terminal) := by
  induction h with
  | nil => exact Relation.ReflTransGen.refl
  | terminal a _ ih => exact ih.append_left [.terminal a]
  | @nonterminal p xs u w hp _ _ ihbody ihrest =>
    have hfront : g.Derives [.nonterminal p.lhs] (u.map .terminal) :=
      (derives_body hp).trans ihbody
    rw [List.map_append]
    exact (hfront.append_right xs).trans (ihrest.append_left (u.map .terminal))

/-! ## Derivations of few steps -/

/-- All that one replacement makes of a string. -/
def replacements (g : Grammar) : List Symbol → List (List Symbol)
  | [] => []
  | x :: xs => (g.filter fun p => x = .nonterminal p.lhs).map (fun p => p.body ++ xs) ++
      (replacements g xs).map fun ys => x :: ys

theorem step_iff_mem_replacements (xs ys : List Symbol) :
    g.Step xs ys ↔ ys ∈ g.replacements xs := by
  constructor
  · rintro @⟨u, v, p, hp⟩
    induction u with
    | nil =>
      refine List.mem_append_left _ (List.mem_map.2 ⟨p, ?_, by simp⟩)
      exact List.mem_filter.2 ⟨hp, by simp⟩
    | cons x u ih => exact List.mem_append_right _ (List.mem_map.2 ⟨_, ih, rfl⟩)
  · induction xs generalizing ys with
    | nil => simp [replacements]
    | cons x xs ih =>
      intro h
      rcases List.mem_append.1 h with h | h
      · obtain ⟨p, hp, rfl⟩ := List.mem_map.1 h
        obtain ⟨hp', hx⟩ := List.mem_filter.1 hp
        rw [of_decide_eq_true hx]
        exact Step.replace [] xs hp'
      · obtain ⟨zs, hzs, rfl⟩ := List.mem_map.1 h
        exact (ih zs hzs).append_left [x]

/-- What the start symbol derives in at most so many steps. -/
def formsWithin (g : Grammar) : Nat → List (List Symbol)
  | 0 => [[.nonterminal g.start]]
  | n + 1 => formsWithin g n ++ (formsWithin g n).flatMap g.replacements

theorem derives_of_mem_formsWithin {n : Nat} {xs : List Symbol} (h : xs ∈ g.formsWithin n) :
    g.Derives [.nonterminal g.start] xs := by
  induction n generalizing xs with
  | zero =>
    rw [List.mem_singleton.1 h]
  | succ n ih =>
    rcases List.mem_append.1 h with h | h
    · exact ih h
    · obtain ⟨ys, hys, hxs⟩ := List.mem_flatMap.1 h
      exact (ih hys).tail ((step_iff_mem_replacements ys xs).2 hxs)

/-- Where another step finds nothing new, everything that is derived has been found. -/
theorem mem_formsWithin_of_derives {n : Nat} (hclosed : g.formsWithin (n + 1) ⊆ g.formsWithin n)
    {xs : List Symbol} (h : g.Derives [.nonterminal g.start] xs) : xs ∈ g.formsWithin n := by
  induction h with
  | refl =>
    clear hclosed
    induction n with
    | zero => exact List.mem_singleton.2 rfl
    | succ n ih => exact List.mem_append_left _ ih
  | @tail ys zs _ hstep ih =>
    refine hclosed (List.mem_append_right _ (List.mem_flatMap.2 ⟨ys, ih, ?_⟩))
    exact (step_iff_mem_replacements ys zs).1 hstep

/-! ## Grammars without the empty string -/

theorem EpsilonFree.body (he : g.EpsilonFree) {p : Production} (hp : p ∈ g) : p.body = p.rhs := by
  simp [Production.body, he p hp]

/-- Without the empty string, something is yielded by everything but nothing. -/
theorem Yields.ne_nil (he : g.EpsilonFree) (hg : g.WellFormed) {xs : List Symbol}
    {w : List String} (h : g.Yields xs w) (hx : xs ≠ []) : w ≠ [] := by
  induction h with
  | nil => exact absurd rfl hx
  | terminal a _ _ => simp
  | nonterminal hp _ _ ih _ =>
    have := ih (by rw [he.body hp]; exact hg.rhs_ne_nil _ hp)
    simp [this]

end Grammar

end LRTables
