import LRTables.Proofs.Outcome
import LRTables.Proofs.Table.Driver

/-!
# Tables without conflicts accept what is generated

A driver that has come to a state with an item reads what the symbols behind the dot of
the item yield, and comes to a state in which the item is complete, with the states it came
through on top of what was there.  The proof follows the yield: a terminal is shifted, and a
non-terminal is begun, by the production that it yields with, read, reduced and gone over.
The look-ahead that the non-terminal is begun with is the name that comes behind it.

* `ParseTable.exists_steps_of_yields` — reading what the symbols behind a dot yield.
* `ParseTable.accepts_of_generates` — words that are generated are accepted.
-/

namespace LRTables

/-- The item with its dot at the end. -/
def Item.complete (i : Item) : Item := { i with dot := i.rhs.length }

@[simp] theorem Item.complete_advance (i : Item) : i.advance.complete = i.complete := rfl

theorem Item.complete_of_drop {i : Item} (hle : i.dot ≤ i.rhs.length)
    (h : i.rhs.drop i.dot = []) : i.complete = i := by
  have hdot : i.dot = i.rhs.length := Nat.le_antisymm hle (List.drop_eq_nil_iff.1 h)
  obtain ⟨l, r, d, b⟩ := i
  simp only [Item.complete, Item.mk.injEq, true_and]
  exact ⟨hdot.symm, trivial⟩

theorem Item.next?_of_drop {i : Item} {x : Symbol} {xs : List Symbol}
    (h : i.rhs.drop i.dot = x :: xs) :
    i.next? = some x ∧ i.advance.rhs.drop i.advance.dot = xs := by
  constructor
  · rw [Item.next?, ← List.head?_drop, h]
    rfl
  · rw [Item.advance_rhs, Item.advance_dot, ← List.tail_drop, h]
    rfl

namespace ParseTable

variable {g : Grammar} {first : FirstSets} {a : Automaton}

/-- What a yield ends before: the name behind it is what the symbols and the look-ahead
behind them show. -/
theorem exists_shown (he : g.EpsilonFree) (hg : g.WellFormed) {xs : List Symbol}
    {u : List String} (h : g.Yields xs u) (look : String) (v : List String) :
    ∃ c rest, u ++ look :: v = c :: rest ∧ g.Shows (xs ++ [.terminal look]) c := by
  cases xs with
  | nil =>
    cases h
    exact ⟨look, v, rfl, Or.inl ⟨[], rfl⟩⟩
  | cons x xs =>
    obtain ⟨c, u', rfl⟩ := List.exists_cons_of_ne_nil (h.ne_nil he hg (by simp))
    refine ⟨c, u' ++ look :: v, rfl, ?_⟩
    rcases h.shows he hg with ⟨rest, hrest⟩ | ⟨n, rest, hrest, hn⟩
    · exact Or.inl ⟨rest ++ [.terminal look], by rw [hrest]; rfl⟩
    · exact Or.inr ⟨n, rest ++ [.terminal look], by rw [hrest]; rfl, hn⟩

/-- The state on top of a stack has the item. -/
def Top (a : Automaton) (stack : List Nat) (i : Item) : Prop :=
  ∃ q, stack.head? = some q ∧ i ∈ a.rulesOf q

/-- The dot of an item goes over what stands behind it by the cell of its name. -/
theorem exists_move (hb : a.Built g first) (hfree : a.ConflictFree) {q : Nat} {i : Item}
    {x : Symbol} (hi : i ∈ a.rulesOf q) (hnext : i.next? = some x) :
    ∃ k, i.advance ∈ a.rulesOf k ∧
      (of g.startProduction.lhs a).action? q x.name = some (moveTo x k) := by
  obtain ⟨t, ht, rfl, hi'⟩ := hb.advances q i hi x hnext
  exact ⟨t.target, hi', action?_of_has hfree (startOf_built hb) ht⟩

/-- The complete item of a production stands for its reduction. -/
theorem action?_reduce (hg : g.WellFormed) (hb : a.Built g first) (hfree : a.ConflictFree)
    {r : Nat} {p : Production} {c : String} (hp : p ∈ g)
    (h : (Item.ofProduction p 0 c).complete ∈ a.rulesOf r) :
    (of g.startProduction.lhs a).action? r c = some (.reduce p.lhs p.rhsNames) := by
  have hcell := action?_of_complete hfree (startOf_built hb) h
    (by simp [Item.atEnd, Item.complete])
  have hne : ¬ p.lhs = g.startProduction.lhs := hg.lhs_ne_startProduction hp
  simpa [Item.complete, Item.rhsNames, Production.rhsNames, hne] using hcell

/-- **Reading what the symbols behind a dot yield**, when the name behind is the look-ahead
of the item. -/
theorem exists_steps_of_yields (hg : g.WellFormed) (he : g.EpsilonFree) (hf : first.Exact g)
    (hb : a.Built g first) (hfree : a.ConflictFree) {xs : List Symbol} {u : List String}
    (h : g.Yields xs u) {q : Nat} {i : Item} (hi : i ∈ a.rulesOf q)
    (hdrop : i.rhs.drop i.dot = xs) (below : List Nat) (v : List String) :
    ∃ new, new.length = xs.length ∧ Top a (new ++ q :: below) i.complete ∧
      (of g.startProduction.lhs a).Steps ⟨q :: below, u ++ i.look :: v⟩
        ⟨new ++ q :: below, i.look :: v⟩ := by
  induction h generalizing q i below v with
  | nil =>
    obtain ⟨γ, hv⟩ := hb.viable q i hi
    refine ⟨[], rfl, ⟨q, rfl, ?_⟩, Relation.ReflTransGen.refl⟩
    rw [Item.complete_of_drop (hv.dot_le (Nat.zero_le _)) hdrop]
    exact hi
  | @terminal b xs w _ ih =>
    obtain ⟨hnext, hdrop'⟩ := Item.next?_of_drop hdrop
    obtain ⟨k, hi', hcell⟩ := exists_move hb hfree hi hnext
    obtain ⟨new, hlen, htop, hsteps⟩ := ih hi' hdrop' (q :: below) v
    refine ⟨new ++ [k], by simp [hlen], by simpa using htop, ?_⟩
    have hshift := step_shift below (w ++ i.look :: v) hcell
    simpa using Steps.head hshift hsteps
  | @nonterminal p xs u w hp body rest ihbody ihrest =>
    obtain ⟨hnext, hdrop'⟩ := Item.next?_of_drop hdrop
    obtain ⟨γ, hv⟩ := hb.viable q i hi
    -- the production is begun with the name that comes behind what it yields
    obtain ⟨c, v', hinput, hshows⟩ := exists_shown he hg rest i.look v
    have hbrings : Item.Brings g.augmented first i (.ofProduction p 0 c) := by
      refine (Item.brings_iff hg hf hv.isOf).2 ⟨p, hp, c, hnext, ?_, rfl⟩
      rwa [← (Item.next?_of_drop hdrop).2] at hshows
    have hbegun := hb.brings q i hi _ hbrings
    obtain ⟨popped, hpopped, ⟨r, hr, hcomplete⟩, hstepsbody⟩ :=
      ihbody hbegun (he.body hp).symm below v'
    -- it is read, reduced and gone over
    obtain ⟨k, hi', hgoto⟩ := exists_move hb hfree hi hnext
    have hstep := step_reduce v' hr (action?_reduce hg hb hfree hp hcomplete)
      (by rw [hpopped, he.body hp, Production.rhsNames, List.length_map]) hgoto
    obtain ⟨new, hlen, htop, hstepsrest⟩ := ihrest hi' hdrop' (q :: below) v
    refine ⟨new ++ [k], by simp [hlen], by simpa using htop, ?_⟩
    rw [List.append_assoc, hinput]
    rw [Item.advance_look, hinput] at hstepsrest
    have hlast := Steps.head hstep hstepsrest
    simpa using hstepsbody.trans hlast

/-- Words that are generated are accepted. -/
theorem accepts_of_yields (hg : g.WellFormed) (he : g.EpsilonFree) (hf : first.Exact g)
    (hb : a.Built g first) (hfree : a.ConflictFree) {w : List String}
    (h : g.Yields [.nonterminal g.start] w) :
    (of g.startProduction.lhs a).Accepts (.initial w) := by
  obtain ⟨new, -, ⟨q, hq, hcomplete⟩, hsteps⟩ :=
    exists_steps_of_yields hg he hf hb hfree h hb.seed_mem rfl [] []
  have haccept : (of g.startProduction.lhs a).action? q endMarker = some .accept := by
    have := action?_of_complete hfree (startOf_built hb) hcomplete
      (by simp [Item.atEnd, Item.complete])
    simpa [Item.complete, Grammar.seed] using this
  refine Steps.accepts hsteps (AcceptsThrough.accept trivial ?_)
  cases hstack : new ++ [0] with
  | nil => simp at hstack
  | cons r below =>
    rw [hstack, List.head?_cons, Option.some.injEq] at hq
    subst hq
    exact step_accept haccept

/-- **A table without conflicts accepts every word that its grammar generates**, if no
alternative is the empty string. -/
theorem accepts_of_generates {text : String} {g : Grammar} (h : Grammar.parse text = .ok g)
    (he : g.EpsilonFree) :
    ∃ a t, Automaton.ofGrammar g = .ok a ∧ ofAutomaton a = .ok t ∧
      (a.ConflictFree → ∀ w, g.Generates w → t.Accepts (.initial w)) := by
  have hg := Grammar.wellFormed_of_parse h
  obtain ⟨first, b, hf, hbuild, -, hb⟩ := Automaton.exists_build hg
  refine ⟨b.automaton, _, ?_, ofAutomaton_built hb, fun hfree w hw => ?_⟩
  · rw [Automaton.ofGrammar, hbuild]
    rfl
  · exact accepts_of_yields hg he hf hb hfree (Grammar.yields_of_derives hw)

/-- A right-recursive grammar has a table without conflicts. -/
theorem accepts_of_generates_of_right_recursion :
    ∃ g a t, Grammar.parse "s ---> A s | B" = .ok g ∧ Automaton.ofGrammar g = .ok a ∧
      ofAutomaton a = .ok t ∧ a.ConflictFree ∧ g.Generates ["A", "B"] ∧
      t.Accepts (.initial ["A", "B"]) := by
  obtain ⟨g, hparse, hg⟩ := exists_ok_of_any (e := Grammar.parse "s ---> A s | B")
    (P := fun g : Grammar => g.EpsilonFree ∧ ["A", "B"].map Symbol.terminal ∈ g.formsWithin 2 ∧
      (Automaton.ofGrammar g).toOption.any fun a : Automaton => a.ConflictFree)
    (by decide +kernel)
  obtain ⟨he, hform, hg⟩ := of_decide_eq_true hg
  obtain ⟨a, t, ha, ht, haccepts⟩ := accepts_of_generates hparse he
  rw [ha] at hg
  have hfree : a.ConflictFree := of_decide_eq_true hg
  have hgenerates : g.Generates ["A", "B"] := Grammar.derives_of_mem_formsWithin hform
  exact ⟨g, a, t, hparse, ha, ht, hfree, hgenerates, haccepts hfree _ hgenerates⟩

end ParseTable

end LRTables
