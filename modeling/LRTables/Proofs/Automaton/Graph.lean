import LRTables.Proofs.Automaton.Items
import LRTables.Proofs.Item.Graph
import LRTables.Proofs.Outcome

/-!
# The automaton of a grammar and its item graph

The automaton of a grammar carries the item graph: every run of the graph is a path of the
automaton to a state with the item at its end, and there are no other items.  A state is
closed and complete: it has the productions that its items begin, with every look-ahead,
and a transition for every symbol behind a dot.  What a state need not have is a production
of every non-terminal behind a dot: a production is begun for each look-ahead, and there is
none if what follows the non-terminal is one with an empty FIRST set.

* `Automaton.Built.begin_mem`, `advance_mem` and `exists_of_begin_mem` — the steps of the
  graph in one state, and between two.
* `Automaton.carries_runs` — the items in the states are the ends of runs, over paths.
* `Automaton.closed_and_complete` — every state is closed, and has its transitions.
* `Automaton.productions_begin` — when the productions of a non-terminal are begun.
* `Automaton.exists_production_not_begun` — a production that is not.
* `Automaton.every_production_begins` — grammars in which all of them are.
-/

namespace LRTables.Automaton

variable {g : Grammar} {first : FirstSets} {a : Automaton} {k : Nat}

/-! ## The steps of the graph -/

section Steps

variable {lhs n c : String} {before behind : List Symbol} {x : Symbol}

/-- A closing step stays in the state. -/
theorem Built.begin_mem (hb : a.Built g first) (hg : g.WellFormed) (hf : first.Exact g)
    {p : Production} {b : String}
    (hi : .dotted lhs before (.nonterminal p.lhs :: behind) c ∈ a.rulesOf k) (hp : p ∈ g)
    (hahead : g.Ahead behind c b) : .dotted p.lhs [] p.rhs b ∈ a.rulesOf k := by
  obtain ⟨γ, hv⟩ := hb.viable k _ hi
  apply hb.brings k _ hi
  exact (Grammar.brings_dotted_iff hg hf hv.isOf).2 ⟨p, hp, rfl, b, hahead, rfl⟩

/-- An advancing step goes over a transition. -/
theorem Built.advance_mem (hb : a.Built g first)
    (hi : .dotted lhs before (x :: behind) c ∈ a.rulesOf k) :
    ∃ t, a.Has k t ∧ t.symbol = x ∧ .dotted lhs (before ++ [x]) behind c ∈ a.rulesOf t.target := by
  obtain ⟨t, ht, hx, hadvance⟩ := hb.advances k _ hi x Item.next?_dotted
  rw [Item.advance_dotted] at hadvance
  exact ⟨t, ht, hx, hadvance⟩

/-- Where a production of the grammar is begun, an item of the state begins it. -/
theorem Built.exists_of_begin_mem (hb : a.Built g first) (hg : g.WellFormed) (hf : first.Exact g)
    {p : Production} (hp : p ∈ g) {b : String} (hj : .dotted p.lhs [] p.rhs b ∈ a.rulesOf k) :
    ∃ lhs before behind c, .dotted lhs before (.nonterminal p.lhs :: behind) c ∈ a.rulesOf k ∧
      g.Ahead behind c b := by
  rcases hb.brought k _ hj rfl with hseed | ⟨i, hi, hbrings⟩
  · -- the start production's own left side is on no left side of the grammar
    have hlhs : p.lhs = g.startProduction.lhs := congrArg Item.lhs hseed
    exact absurd hlhs (hg.lhs_ne_startProduction hp)
  · obtain ⟨m, hnext⟩ := hbrings.exists_next?
    obtain ⟨before, behind, hdotted⟩ := Item.exists_dotted hnext
    obtain ⟨γ, hv⟩ := hb.viable k i hi
    have hof := hv.isOf
    rw [hdotted] at hi hbrings hof
    obtain ⟨q, -, rfl, b', hahead, heq⟩ := (Grammar.brings_dotted_iff hg hf hof).1 hbrings
    have hlhs : p.lhs = q.lhs := congrArg Item.lhs heq
    have hlook : b = b' := congrArg Item.look heq
    rw [← hlhs] at hi
    rw [← hlook] at hahead
    exact ⟨i.lhs, before, behind, i.look, hi, hahead⟩

end Steps

/-! ## Runs and paths -/

/-- **The automaton of a grammar carries exactly its item graph.**  The item at the end of
a run is in a state at the end of a path over the symbols that the run reads, and every
item of a state is at the end of a run. -/
theorem carries_runs {text : String} {g : Grammar} (h : Grammar.parse text = .ok g) :
    ∃ a, ofGrammar g = .ok a ∧
      (∀ γ i, g.Run γ i → ∃ k s, a.Path γ k ∧ a.get? k = some s ∧ i ∈ s.rules) ∧
      ∀ k s, a.get? k = some s → ∀ i ∈ s.rules, ∃ γ, g.Run γ i := by
  have hg := Grammar.wellFormed_of_parse h
  obtain ⟨first, a, hf, ha, hb⟩ := exists_ofGrammar hg
  refine ⟨a, ha, ?_, ?_⟩
  · intro γ i hrun
    obtain ⟨k, hpath, hi⟩ := hb.exists_path ((Grammar.run_iff_viable hg hf).1 hrun)
    obtain ⟨s, hs, his⟩ := exists_get?_of_mem_rulesOf hi
    exact ⟨k, s, hpath, hs, his⟩
  · intro k s hs i hi
    rw [← mem_rulesOf_of_get? hs] at hi
    obtain ⟨γ, hv⟩ := hb.viable k i hi
    exact ⟨γ, (Grammar.run_iff_viable hg hf).2 hv⟩

/-- The words of `s ---> c c` begin with words of `c` in two contexts.  The state behind `D` is
the same for both, and each of its items is at the end of a run and of a path. -/
theorem carries_runs_of_two_contexts :
    ∃ g a s, Grammar.parse "s ---> c c\nc ---> C c | D" = .ok g ∧ ofGrammar g = .ok a ∧
      a.get? 5 = some s ∧ ∀ look ∈ ["C", "D"], ∃ γ, g.Run γ (.dotted "c" [.terminal "D"] [] look) ∧
        ∃ k u, a.Path γ k ∧ a.get? k = some u ∧ .dotted "c" [.terminal "D"] [] look ∈ u.rules := by
  obtain ⟨g, hparse, hg⟩ := exists_ok_of_any
    (e := Grammar.parse "s ---> c c\nc ---> C c | D")
    (P := fun g : Grammar => (ofGrammar g).toOption.any fun a : Automaton =>
      (a.get? 5).any fun s : State =>
        ∀ look ∈ ["C", "D"], Item.dotted "c" [.terminal "D"] [] look ∈ s.rules) (by decide +kernel)
  obtain ⟨a, ha, hreach, hrun⟩ := carries_runs hparse
  rw [ha] at hg
  obtain ⟨s, hs, hitems⟩ := (Option.any_eq_true _ (a.get? 5)).1 hg
  refine ⟨g, a, s, hparse, ha, hs, ?_⟩
  intro look hlook
  obtain ⟨γ, hγ⟩ := hrun 5 s hs _ (of_decide_eq_true hitems look hlook)
  exact ⟨γ, hγ, hreach γ _ hγ⟩

/-! ## Closed and complete states -/

/-- **Every state is closed and complete.**  For each of its items with a symbol behind the
dot it has the productions of that symbol, begun with every look-ahead, and a transition
over the symbol to a state with the advanced item.  State zero begins with the start item. -/
theorem closed_and_complete {text : String} {g : Grammar} (h : Grammar.parse text = .ok g) :
    ∃ a, ofGrammar g = .ok a ∧ (∃ s, a.get? 0 = some s ∧ s.rules.head? = some g.seed) ∧
      ∀ k s, a.get? k = some s → ∀ lhs before x behind c,
        .dotted lhs before (x :: behind) c ∈ s.rules →
          (∀ p ∈ g, x = .nonterminal p.lhs → ∀ b, g.Ahead behind c b →
            .dotted p.lhs [] p.rhs b ∈ s.rules) ∧
          ∃ t ∈ s.transitions, t.symbol = x ∧ ∃ u, a.get? t.target = some u ∧
            .dotted lhs (before ++ [x]) behind c ∈ u.rules := by
  have hg := Grammar.wellFormed_of_parse h
  obtain ⟨first, a, hf, ha, hb⟩ := exists_ofGrammar hg
  refine ⟨a, ha, hb.start, ?_⟩
  intro k s hs lhs before x behind c hi
  rw [← mem_rulesOf_of_get? hs] at hi
  constructor
  · rintro p hp rfl b hahead
    rw [← mem_rulesOf_of_get? hs]
    exact hb.begin_mem hg hf hi hp hahead
  · obtain ⟨t, ⟨s', hs', ht⟩, hx, hadvance⟩ := hb.advance_mem hi
    obtain rfl := Option.some.inj (hs.symm.trans hs')
    obtain ⟨u, hu, hiu⟩ := exists_get?_of_mem_rulesOf hadvance
    exact ⟨t, ht, hx, u, hu, hiu⟩

/-- State zero of `s ---> c c` begins the productions of `c` with the look-ahead `C`, which is
in the FIRST set of the second `c`, and goes on over the first one. -/
theorem closed_and_complete_of_two_contexts :
    ∃ g a s t u, Grammar.parse "s ---> c c\nc ---> C c | D" = .ok g ∧ ofGrammar g = .ok a ∧
      a.get? 0 = some s ∧ .dotted "c" [] [.terminal "D"] "C" ∈ s.rules ∧ t ∈ s.transitions ∧
      t.symbol = .nonterminal "c" ∧ a.get? t.target = some u ∧
      .dotted "s" [.nonterminal "c"] [.nonterminal "c"] endMarker ∈ u.rules := by
  obtain ⟨g, hparse, hg⟩ := exists_ok_of_any
    (e := Grammar.parse "s ---> c c\nc ---> C c | D")
    (P := fun g : Grammar => decide (⟨"c", [.terminal "C", .nonterminal "c"], some 2⟩ ∈ g) &&
      decide (⟨"c", [.terminal "D"], some 2⟩ ∈ g) &&
      (ofGrammar g).toOption.any fun a : Automaton => (a.get? 0).any fun s : State =>
        decide (.dotted "s" [] [.nonterminal "c", .nonterminal "c"] endMarker ∈ s.rules))
    (by decide +kernel)
  simp only [Bool.and_eq_true, decide_eq_true_eq] at hg
  obtain ⟨⟨hlong, hshort⟩, hitem⟩ := hg
  obtain ⟨a, ha, -, hclosed⟩ := closed_and_complete hparse
  rw [ha] at hitem
  obtain ⟨s, hs, hi⟩ := (Option.any_eq_true _ (a.get? 0)).1 hitem
  have hrhs : [Symbol.terminal "C", .nonterminal "c"] =
      ([] : List String).map .nonterminal ++ .terminal "C" :: [.nonterminal "c"] := rfl
  have hfirst : g.First "c" "C" := Grammar.First.terminal hlong rfl hrhs (by simp)
  obtain ⟨hbegin, t, ht, hsymbol, u, hu, hadvance⟩ :=
    hclosed 0 s hs "s" [] _ _ _ (of_decide_eq_true hi)
  have hD := hbegin _ hshort rfl "C" (Grammar.Ahead.nonterminal hfirst [] endMarker)
  exact ⟨g, a, s, t, u, hparse, ha, hs, hD, ht, hsymbol, hu, hadvance⟩

/-! ## Productions that are begun -/

/-- **The productions of a non-terminal behind a dot are begun** in the state, all of them,
unless what follows the non-terminal is one with an empty FIRST set.  If that is so of
every item with the non-terminal behind its dot, none of them is. -/
theorem productions_begin {text : String} {g : Grammar} (h : Grammar.parse text = .ok g) :
    ∃ a, ofGrammar g = .ok a ∧ ∀ k s, a.get? k = some s → ∀ n,
      (∀ lhs before behind c, .dotted lhs before (.nonterminal n :: behind) c ∈ s.rules →
        ¬ g.Silent behind → ∀ p ∈ g, p.lhs = n → ∃ b, .dotted n [] p.rhs b ∈ s.rules) ∧
      ((∀ lhs before behind c, .dotted lhs before (.nonterminal n :: behind) c ∈ s.rules →
        g.Silent behind) → ∀ p ∈ g, p.lhs = n → ∀ b, .dotted n [] p.rhs b ∉ s.rules) := by
  have hg := Grammar.wellFormed_of_parse h
  obtain ⟨first, a, hf, ha, hb⟩ := exists_ofGrammar hg
  refine ⟨a, ha, ?_⟩
  intro k s hs n
  rw [← mem_rulesOf_of_get? hs]
  constructor
  · rintro lhs before behind c hi hloud p hp rfl
    obtain ⟨b, hahead⟩ := Grammar.exists_ahead_iff.2 hloud
    exact ⟨b, hb.begin_mem hg hf hi hp hahead⟩
  · rintro hsilent p hp rfl b hj
    obtain ⟨lhs, before, behind, c, hi, hahead⟩ := hb.exists_of_begin_mem hg hf hp hj
    exact Grammar.exists_ahead_iff.1 ⟨b, hahead⟩ (hsilent lhs before behind c hi)

/-- The set of `b` is empty, since `c` is just the empty string and a set does not take that
over.  So in `s ---> a b` no production of `a` is begun, while that of `b`, which nothing
follows, is. -/
theorem productions_begin_of_empty_set :
    ∃ g a s u, Grammar.parse "s ---> a b\na ---> A\nb ---> c\nc ---> *" = .ok g ∧
      ofGrammar g = .ok a ∧ a.get? 0 = some s ∧ a.get? 2 = some u ∧
      (∀ b, .dotted "a" [] [.terminal "A"] b ∉ s.rules) ∧
      ∃ b, .dotted "b" [] [.nonterminal "c"] b ∈ u.rules := by
  obtain ⟨g, hparse, hg⟩ := exists_ok_of_any
    (e := Grammar.parse "s ---> a b\na ---> A\nb ---> c\nc ---> *")
    (P := fun g : Grammar => decide (⟨"a", [.terminal "A"], some 2⟩ ∈ g) &&
      decide (⟨"b", [.nonterminal "c"], some 3⟩ ∈ g) &&
      ((FirstSets.compute g).toOption.any fun first : FirstSets =>
        decide (first.get? "b" = some [])) &&
      (ofGrammar g).toOption.any fun a : Automaton => (a.get? 0).any fun s : State =>
        (a.get? 2).any fun u : State =>
          decide (∀ i ∈ s.rules, i.next? = some (.nonterminal "a") →
            i.rhs.drop (i.dot + 1) = [.nonterminal "b"]) &&
          decide (.dotted "s" [.nonterminal "a"] [.nonterminal "b"] endMarker ∈ u.rules))
    (by decide +kernel)
  simp only [Bool.and_eq_true, decide_eq_true_eq] at hg
  obtain ⟨⟨⟨ha, hb⟩, hempty⟩, hstates⟩ := hg
  obtain ⟨first, hcompute, hf⟩ := FirstSets.exists_exact (Grammar.wellFormed_of_parse hparse)
  rw [hcompute] at hempty
  have hsilent : g.Silent [.nonterminal "b"] :=
    (Grammar.silent_iff hf (of_decide_eq_true hempty) []).2 rfl
  obtain ⟨a, hbuild, hbegin⟩ := productions_begin hparse
  rw [hbuild] at hstates
  obtain ⟨s, hs, hstates⟩ := (Option.any_eq_true _ (a.get? 0)).1 hstates
  obtain ⟨u, hu, hrules⟩ := (Option.any_eq_true _ (a.get? 2)).1 hstates
  simp only [Bool.and_eq_true, decide_eq_true_eq] at hrules
  obtain ⟨hfollowed, hlast⟩ := hrules
  refine ⟨g, a, s, u, hparse, hbuild, hs, hu, ?_, ?_⟩
  · refine (hbegin 0 s hs "a").2 ?_ _ ha rfl
    intro lhs before behind c hi
    have hbehind := hfollowed _ hi Item.next?_dotted
    rw [Item.drop_dotted] at hbehind
    rwa [hbehind]
  · refine (hbegin 2 u hu "b").1 _ _ _ _ hlast ?_ _ hb rfl
    rintro ⟨n, rest, hnil, -⟩
    exact absurd hnil (by simp)

/-- **Not every production of a non-terminal behind a dot is begun.** -/
theorem exists_production_not_begun :
    ∃ g a s p, Grammar.parse "s ---> a b\na ---> A\nb ---> c\nc ---> *" = .ok g ∧
      ofGrammar g = .ok a ∧ a.get? 0 = some s ∧
      .dotted "s" [] [.nonterminal "a", .nonterminal "b"] endMarker ∈ s.rules ∧
      p ∈ g ∧ p.lhs = "a" ∧ ∀ b, .dotted "a" [] p.rhs b ∉ s.rules := by
  obtain ⟨g, hparse, hg⟩ := exists_ok_of_any
    (e := Grammar.parse "s ---> a b\na ---> A\nb ---> c\nc ---> *")
    (P := fun g : Grammar => decide (⟨"a", [.terminal "A"], some 2⟩ ∈ g) &&
      (ofGrammar g).toOption.any fun a : Automaton => (a.get? 0).any fun s : State =>
        decide (.dotted "s" [] [.nonterminal "a", .nonterminal "b"] endMarker ∈ s.rules) &&
          decide (∀ i ∈ s.rules, i.lhs ≠ "a")) (by decide +kernel)
  simp only [Bool.and_eq_true, decide_eq_true_eq] at hg
  obtain ⟨hp, hitem⟩ := hg
  obtain ⟨a, ha, hstate⟩ := exists_ok_of_any hitem
  obtain ⟨s, hs, hrules⟩ := (Option.any_eq_true _ (a.get? 0)).1 hstate
  simp only [Bool.and_eq_true, decide_eq_true_eq] at hrules
  obtain ⟨hi, hnone⟩ := hrules
  exact ⟨g, a, s, _, hparse, ha, hs, hi, hp, rfl, fun b hb => hnone _ hb rfl⟩

/-- Where every non-terminal derives a word and none of the alternatives is the empty string,
no item has a silent non-terminal behind the symbol behind its dot. -/
theorem Built.not_silent (hb : a.Built g first) (hg : g.WellFormed) (he : g.EpsilonFree)
    (hword : ∀ p ∈ g, ∃ w : List String, g.Derives [.nonterminal p.lhs] (w.map .terminal))
    {lhs c : String} {before behind : List Symbol} {x : Symbol}
    (hi : .dotted lhs before (x :: behind) c ∈ a.rulesOf k) : ¬ g.Silent behind := by
  rintro ⟨n, rest, rfl, hnone⟩
  obtain ⟨γ, hv⟩ := hb.viable k _ hi
  obtain ⟨q, hq, -, hrhs⟩ := hv.isOf
  have hn : .nonterminal n ∈ q.rhs := by
    rw [← hrhs]
    simp [Item.dotted]
  obtain ⟨r, hr, rfl⟩ := hg.defined_augmented hq hn
  obtain ⟨w, hw⟩ := hword r hr
  obtain ⟨b, hfirst⟩ := Grammar.exists_first_of_derives he hg hw
  exact hnone b hfirst

/-- **In a grammar without the empty string whose non-terminals all derive words, every
production of a non-terminal behind a dot is begun.** -/
theorem every_production_begins {text : String} {g : Grammar} (h : Grammar.parse text = .ok g)
    (he : g.EpsilonFree)
    (hword : ∀ p ∈ g, ∃ w : List String, g.Derives [.nonterminal p.lhs] (w.map .terminal)) :
    ∃ a, ofGrammar g = .ok a ∧ ∀ k s, a.get? k = some s → ∀ lhs before n behind c,
      .dotted lhs before (.nonterminal n :: behind) c ∈ s.rules →
        ∀ p ∈ g, p.lhs = n → ∃ b, .dotted n [] p.rhs b ∈ s.rules := by
  have hg := Grammar.wellFormed_of_parse h
  obtain ⟨first, a, hf, ha, hb⟩ := exists_ofGrammar hg
  refine ⟨a, ha, ?_⟩
  rintro k s hs lhs before n behind c hi p hp rfl
  rw [← mem_rulesOf_of_get? hs] at hi ⊢
  obtain ⟨b, hahead⟩ := Grammar.exists_ahead_iff.2 (hb.not_silent hg he hword hi)
  exact ⟨b, hb.begin_mem hg hf hi hp hahead⟩

end LRTables.Automaton
