import LRTables.Automaton.Expansion
import LRTables.Proofs.Item.Closure
import LRTables.Proofs.Outcome

/-!
# A closure is the least set

The closure of an item over any productions and any sets of names, whether they belong together
or not.  What it has to hold is said without the search: a least set of items, with the
look-aheads read off the symbol behind each non-terminal.

* `Item.Follows` — the look-aheads of an item, as the symbol behind its non-terminal decides.
* `Item.InClosure` — the least set that holds an item and the beginnings it asks for.
* `Item.same_ofProduction_iff` — which beginnings are the same.
* `Item.unlike_of_closure` — nothing is brought in twice.
* `State.close_least` — the state of an item holds this set, or there is no such state.
-/

namespace LRTables

namespace Item

/-- **The look-aheads of an item** with a non-terminal behind its dot.  The symbol behind the
non-terminal decides; a non-terminal without a set gives none. -/
inductive Follows (first : FirstSets) (i : Item) : String → Prop where
  /-- Nothing is behind the non-terminal: the look-ahead of the item itself. -/
  | look (h : i.rhs[i.dot + 1]? = none) : Follows first i i.look
  /-- A terminal is behind it. -/
  | terminal {a : String} (h : i.rhs[i.dot + 1]? = some (.terminal a)) : Follows first i a
  /-- A non-terminal is behind it, and the name is in its set. -/
  | nonterminal {n a : String} {names : List String}
      (h : i.rhs[i.dot + 1]? = some (.nonterminal n)) (hnames : first.get? n = some names)
      (ha : a ∈ names) : Follows first i a

/-- **The least set of items** that holds an item and, with each item that has a non-terminal
behind its dot, the beginnings of the productions of that with each of the look-aheads. -/
inductive InClosure (g : Grammar) (first : FirstSets) (seed : Item) : Item → Prop where
  /-- The item itself. -/
  | seed : InClosure g first seed seed
  /-- The beginning of a production. -/
  | bring {i : Item} {p : Production} {a : String} (h : InClosure g first seed i)
      (hnext : i.next? = some (.nonterminal p.lhs)) (hp : p ∈ g) (ha : i.Follows first a) :
      InClosure g first seed (.ofProduction p 0 a)

variable {g : Grammar} {first : FirstSets} {seed : Item}

theorem follows_iff {i : Item} {a : String} :
    i.Follows first a ↔ ∃ looks, i.lookaheads first = .ok looks ∧ a ∈ looks := by
  constructor
  · intro h
    cases h with
    | look h => exact ⟨[i.look], by simp [lookaheads, h], by simp⟩
    | terminal h => exact ⟨[a], by simp [lookaheads, h], by simp⟩
    | nonterminal h hnames ha => exact ⟨_, by simp [lookaheads, h, hnames], ha⟩
  · rintro ⟨looks, hlooks, ha⟩
    rcases lookaheads_cases hlooks with ⟨h, rfl⟩ | ⟨c, h, rfl⟩ | ⟨n, h, hnames⟩
    · rw [List.mem_singleton.1 ha]
      exact Follows.look h
    · rw [List.mem_singleton.1 ha]
      exact Follows.terminal h
    · exact Follows.nonterminal h hnames ha

/-- The least set is what the item leads to. -/
theorem inClosure_iff_leads {i : Item} : InClosure g first seed i ↔ Leads g first seed i := by
  constructor
  · intro h
    induction h with
    | seed => exact Relation.ReflTransGen.refl
    | bring _ hnext hp ha ih =>
      obtain ⟨looks, hlooks, ha⟩ := follows_iff.1 ha
      exact ih.tail (Brings.begin hnext hlooks hp rfl ha)
  · intro h
    induction h with
    | refl => exact InClosure.seed
    | tail _ hstep ih =>
      obtain ⟨hnext, hlooks, hp, rfl, ha⟩ := hstep
      exact InClosure.bring ih hnext hp (follows_iff.2 ⟨_, hlooks, ha⟩)

/-! ## What is brought in -/

theorem Brings.dot_eq {i j : Item} (h : Brings g first i j) : j.dot = 0 := by
  obtain ⟨⟩ := h
  rfl

/-- Everything that a closure brings in has its dot in front. -/
theorem dot_of_closure {rest : List Item} (h : closure g first seed = .ok (seed :: rest)) :
    ∀ i ∈ rest, i.dot = 0 := by
  obtain ⟨found, hprefix, hfound⟩ := Worklist.exists_forall_of_run
    (P := fun _ => True) (Q := fun j => j.dot = 0)
    (fun _ _ _ _ _ hexpand j hj => ⟨trivial, (brings_of_expand hexpand j hj).dot_eq⟩)
    h (fun _ _ => trivial)
  have hrest : rest <+: found := (List.cons_prefix_cons.1 hprefix).2
  intro i hi
  exact (hfound i (hrest.subset hi)).2

/-- Two beginnings are the same when the productions and the look-aheads are. -/
theorem same_ofProduction_iff (p q : Production) (a b : String) :
    (ofProduction p 0 a).same (ofProduction q 0 b) = true ↔ p.same q = true ∧ a = b := by
  rw [same_iff, Production.same_iff]
  show p.lhs = q.lhs ∧ p.rhsNames = q.rhsNames ∧ 0 = 0 ∧ a = b ↔ _
  simp only [true_and, and_assoc]

/-- No two items of the list are the same. -/
abbrev Unlike (items : List Item) : Prop := items.Pairwise fun i j => ¬ i.same j = true

theorem unlike_beginning (hg : g.Pairwise fun p q => ¬ p.same q = true) (n : String)
    {looks : List String} (hlooks : looks.Nodup) : Unlike (beginning g n looks) := by
  refine List.pairwise_flatMap.2 ⟨fun p _ => ?_, ?_⟩
  · -- of one production, with different look-aheads
    refine List.pairwise_map.2 (hlooks.imp ?_)
    intro a b hne hsame
    exact hne ((same_ofProduction_iff p p a b).1 hsame).2
  · refine (hg.filter _).imp ?_
    intro p q hne i hi j hj hsame
    obtain ⟨a, -, rfl⟩ := List.mem_map.1 hi
    obtain ⟨b, -, rfl⟩ := List.mem_map.1 hj
    exact hne ((same_ofProduction_iff p q a b).1 hsame).1

/-- What a search finds from here on: no two items that are the same, and none of them
stands under a mark. -/
def Fresh (marks : Marks) (found : List Item) : Prop :=
  Unlike found ∧ ∀ j ∈ found, (j.lhs, j.look) ∉ marks

/-- What a step finds goes before what is found after it. -/
theorem Fresh.of_expand (hg : g.Pairwise fun p q => ¬ p.same q = true)
    (hfirst : ∀ n names, first.get? n = some names → names.Nodup) {i : Item}
    {marks marks' : Marks} {new found : List Item}
    (h : expand g first marks i = .ok (marks', new)) (hfound : Fresh marks' found) :
    Fresh marks (new ++ found) := by
  obtain ⟨hunlike, hmarks⟩ := hfound
  unfold expand at h
  split at h
  · rename_i n hn
    split at h
    · exact absurd h (by simp)
    · rename_i looks hlooks
      obtain ⟨rfl, rfl⟩ := Prod.mk.inj (Except.ok.inj h)
      have hnodup : looks.Nodup := by
        rcases lookaheads_cases hlooks with ⟨-, rfl⟩ | ⟨c, -, rfl⟩ | ⟨b, -, hnames⟩
        · exact List.nodup_singleton _
        · exact List.nodup_singleton _
        · exact hfirst b looks hnames
      -- an item that is new stands under one of the marks that are made now
      have hnew : ∀ j ∈ beginning g n (looks.filter fun a => (n, a) ∉ marks),
          (j.lhs, j.look) ∉ marks ∧
            (j.lhs, j.look) ∈ (looks.filter fun a => (n, a) ∉ marks).map fun a => (n, a) := by
        intro j hj
        obtain ⟨p, -, rfl, a, ha, rfl⟩ := mem_beginning.1 hj
        show (p.lhs, a) ∉ marks ∧ _
        exact ⟨by simpa using (List.mem_filter.1 ha).2, List.mem_map_of_mem ha⟩
      refine ⟨List.pairwise_append.2 ⟨unlike_beginning hg n (hnodup.filter _), hunlike, ?_⟩, ?_⟩
      · intro j hj k hk hsame
        obtain ⟨hlhs, -, -, hlook⟩ := (same_iff j k).1 hsame
        refine hmarks k hk (List.mem_append_left _ ?_)
        rw [← hlhs, ← hlook]
        exact (hnew j hj).2
      · intro j hj
        rcases List.mem_append.1 hj with hj | hj
        · exact (hnew j hj).1
        · exact fun hm => hmarks j hj (List.mem_append_right _ hm)
  · obtain ⟨rfl, rfl⟩ := Prod.mk.inj (Except.ok.inj h)
    exact ⟨hunlike, hmarks⟩

/-- **Nothing is brought in twice**, if no production and no name of a set is there twice. -/
theorem unlike_of_closure (hg : g.Pairwise fun p q => ¬ p.same q = true)
    (hfirst : ∀ n names, first.get? n = some names → names.Nodup) {rest : List Item}
    (h : closure g first seed = .ok (seed :: rest)) : Unlike rest := by
  obtain ⟨found, hprefix, hfound⟩ := Worklist.exists_found_of_run
    (motive := fun marks _ found => Fresh marks found)
    (fun _ _ => ⟨List.Pairwise.nil, by simp⟩)
    (fun _ _ _ _ _ _ hexpand hfresh => hfresh.of_expand hg hfirst hexpand) h
  have hrest : rest <+: found := (List.cons_prefix_cons.1 hprefix).2
  exact hfound.1.sublist hrest.sublist

end Item

/-- **The state of an item holds the least set.**  For every item, all productions and all sets,
closing the item fails exactly when some item of the least set has a non-terminal behind its dot
and behind that a non-terminal without a set; and the fault then names such a one.  Otherwise the
rules of the state are the items of the least set, the item itself first and all others with the
dot in front, and there are no transitions.  If the productions are pairwise different and no set
has a name twice, then the rules behind the first are pairwise different. -/
theorem State.close_least (g : Grammar) (first : FirstSets) (seed : Item) :
    ((∃ e, State.close g first seed = .error e) ↔
        ∃ i b, Item.InClosure g first seed i ∧ i.Lacks first b) ∧
      (∀ e, State.close g first seed = .error e →
        ∃ i b, e = .undefinedNonterminal b ∧ Item.InClosure g first seed i ∧ i.Lacks first b) ∧
      ((¬ ∃ i b, Item.InClosure g first seed i ∧ i.Lacks first b) →
        ∃ rest, State.close g first seed = .ok ⟨seed :: rest, []⟩ ∧
          (∀ i, i ∈ seed :: rest ↔ Item.InClosure g first seed i) ∧
          (∀ i ∈ rest, i.dot = 0) ∧
          ((g.Pairwise fun p q => ¬ p.same q = true) →
            (∀ n names, first.get? n = some names → names.Nodup) →
            rest.Pairwise fun i j => ¬ i.same j = true)) := by
  simp only [Item.inClosure_iff_leads]
  rcases Item.closure_cases g first seed with ⟨items, hclosure, hitems⟩ | ⟨i, b, hi, hlacks, he⟩
  · have hclose : State.close g first seed = .ok ⟨items, []⟩ := by
      rw [State.close, hclosure]
      rfl
    have hok : ∀ e, State.close g first seed ≠ .error e := by
      intro e he
      rw [hclose] at he
      exact absurd he (by simp)
    -- every item of the least set was taken, so its step went through
    have hnone : ¬ ∃ i b, Item.Leads g first seed i ∧ i.Lacks first b := by
      rintro ⟨i, b, hi, hlacks⟩
      obtain ⟨s, s', found, hstep⟩ := hitems.exists_step ((Item.mem_iff_leads hitems i).2 hi)
      have herror := (Item.expand_eq_error_iff g first s i _).2 ⟨b, rfl, hlacks⟩
      exact absurd (herror.symm.trans hstep) (by simp)
    refine ⟨⟨?_, fun h => absurd h hnone⟩, fun e he => absurd he (hok e), fun _ => ?_⟩
    · rintro ⟨e, he⟩
      exact absurd he (hok e)
    · obtain ⟨rest, rfl⟩ := hitems.queue_prefix
      exact ⟨rest, hclose, Item.mem_iff_leads hitems, Item.dot_of_closure hclosure,
        fun hg hfirst => Item.unlike_of_closure hg hfirst hclosure⟩
  · have hclose : State.close g first seed = .error (.undefinedNonterminal b) := by
      rw [State.close, he]
      rfl
    have hsome : ∃ i b, Item.Leads g first seed i ∧ i.Lacks first b := ⟨i, b, hi, hlacks⟩
    refine ⟨⟨fun _ => hsome, fun _ => ⟨_, hclose⟩⟩, ?_, fun h => absurd hsome h⟩
    intro e he
    rw [hclose] at he
    exact ⟨i, b, (Except.error.inj he).symm, hi, hlacks⟩

/-- Items with `l` behind the dot ask for it with two look-aheads, and each of its two productions
is begun once with each of them. -/
theorem State.close_least_of_pairs :
    ∃ rest, State.close [⟨"l", [.nonterminal "l", .terminal "A"], none⟩,
        ⟨"l", [.terminal "B"], none⟩] ∅ ⟨"s", [.nonterminal "l"], 0, "$"⟩ =
          .ok ⟨⟨"s", [.nonterminal "l"], 0, "$"⟩ :: rest, []⟩ ∧
      rest.map Item.toText = ["l ---> . l A    $", "l ---> . B    $", "l ---> . l A    A",
        "l ---> . B    A"] ∧
      rest.Pairwise fun i j => ¬ i.same j = true := by
  obtain ⟨s, hclose, htexts⟩ := exists_ok_of_any
    (e := State.close [⟨"l", [.nonterminal "l", .terminal "A"], none⟩,
      ⟨"l", [.terminal "B"], none⟩] ∅ ⟨"s", [.nonterminal "l"], 0, "$"⟩)
    (P := fun s => decide (s.rules.tail.map Item.toText = ["l ---> . l A    $",
      "l ---> . B    $", "l ---> . l A    A", "l ---> . B    A"]))
    (by decide +kernel)
  obtain ⟨herror, -, hok⟩ := State.close_least [⟨"l", [.nonterminal "l", .terminal "A"], none⟩,
    ⟨"l", [.terminal "B"], none⟩] ∅ ⟨"s", [.nonterminal "l"], 0, "$"⟩
  obtain ⟨rest, hrest, -, -, hunlike⟩ := hok fun hlacks => by
    obtain ⟨e, he⟩ := herror.2 hlacks
    rw [hclose] at he
    exact absurd he (by simp)
  rw [hrest] at hclose
  obtain rfl := Except.ok.inj hclose
  refine ⟨rest, hrest, of_decide_eq_true htexts, hunlike (by decide) ?_⟩
  intro n names hnames
  have hnone : (∅ : FirstSets).get? n = none := rfl
  rw [hnone] at hnames
  exact absurd hnames (by simp)

/-- The first item itself can be brought in again, and then stands among the others too. -/
example (first : FirstSets) :
    State.close [⟨"l", [.nonterminal "l", .terminal "A"], none⟩] first
        ⟨"l", [.nonterminal "l", .terminal "A"], 0, "A"⟩ =
      .ok ⟨[⟨"l", [.nonterminal "l", .terminal "A"], 0, "A"⟩,
        ⟨"l", [.nonterminal "l", .terminal "A"], 0, "A"⟩], []⟩ := by rfl

end LRTables
