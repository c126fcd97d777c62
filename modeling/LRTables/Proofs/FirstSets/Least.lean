import LRTables.Proofs.FirstSets.Stable

/-!
# What FIRST sets hold

The FIRST sets of a list of productions are the least family of names that the productions ask
for, and finding them fails only where reading a right side comes to a non-terminal that has no
production.  In a grammar that was read from a text none is missed, and the family says with which
terminals something derived begins.  That it says all of it takes more, because a non-terminal
that derives the empty string through others does not have its name in its set.

* `FirstSets.compute_least` — the sets of any list of productions, or why there are none.
* `FirstSets.names_begin_derivations` — the sets of a grammar and its derivations.
-/

namespace LRTables.FirstSets

/-- **FIRST sets are the least family that productions ask for.**  For every list of productions,
finding them fails exactly when some production that is not just the empty string has, behind
non-terminals with the empty string in the family, a non-terminal that is on no left side; and the
fault then names such a one.  Otherwise there is a set for each left side, in the order of first
occurrence, without repetitions, with the names of the least family in it. -/
theorem compute_least (g : Grammar) :
    ((∃ e, compute g = .error e) ↔ ∃ n, g.Misses n) ∧
      (∀ e, compute g = .error e → ∃ n, e = .undefinedNonterminal n ∧ g.Misses n) ∧
      ((¬ ∃ n, g.Misses n) → ∃ first, compute g = .ok first ∧
        first.keys = appendDistinct [] (g.map Production.lhs) ∧
        ∀ n names, first.get? n = some names → names.Nodup ∧ ∀ a, a ∈ names ↔ g.First n a) := by
  rcases compute_cases g with ⟨first, hcompute, hkeys, hnames, hnone⟩ | ⟨n, hcompute, hmisses⟩
  · have hok : ∀ e, compute g ≠ .error e := by
      intro e he
      rw [hcompute] at he
      exact absurd he (by simp)
    rw [keys_initial] at hkeys
    have hnone : ¬ ∃ n, g.Misses n := by
      rintro ⟨n, hn⟩
      exact hnone n hn
    refine ⟨⟨?_, fun h => absurd h hnone⟩, fun e he => absurd he (hok e), fun _ => ?_⟩
    · rintro ⟨e, he⟩
      exact absurd he (hok e)
    · exact ⟨first, hcompute, hkeys, hnames⟩
  · have hsome : ∃ n, g.Misses n := ⟨n, hmisses⟩
    refine ⟨⟨fun _ => hsome, fun _ => ⟨_, hcompute⟩⟩, ?_, fun h => absurd hsome h⟩
    intro e he
    rw [hcompute] at he
    exact ⟨n, (Except.error.inj he).symm, hmisses⟩

/-- That `a` can vanish is found in the first pass, so that `b` is missed in the second one. -/
theorem compute_least_of_second_pass :
    compute [⟨"s", [.nonterminal "a", .nonterminal "b"], none⟩,
        ⟨"a", [.terminal epsilon], none⟩] = .error (.undefinedNonterminal "b") ∧
      ∃ n, Grammar.Misses [⟨"s", [.nonterminal "a", .nonterminal "b"], none⟩,
        ⟨"a", [.terminal epsilon], none⟩] n := by
  have hcompute : compute [⟨"s", [.nonterminal "a", .nonterminal "b"], none⟩,
      ⟨"a", [.terminal epsilon], none⟩] = .error (.undefinedNonterminal "b") := by rfl
  exact ⟨hcompute, (compute_least _).1.1 ⟨_, hcompute⟩⟩

/-- **FIRST sets and derivations.**  For every text that is a grammar, each non-terminal has a
set: every terminal in it begins something that the non-terminal derives, and the name of the empty
string is in it exactly when the non-terminal has the empty string as an alternative.  If all that
derive the empty string have it as an alternative, then every terminal that begins something that
the non-terminal derives is in it. -/
theorem names_begin_derivations {text : String} {g : Grammar} (h : Grammar.parse text = .ok g) :
    ∃ first, compute g = .ok first ∧
      ∀ n ∈ g.nonterminals, ∃ names, first.get? n = some names ∧
        (∀ a ∈ names, a ≠ epsilon → ∃ rest, g.Derives [.nonterminal n] (.terminal a :: rest)) ∧
        (epsilon ∈ names ↔ ∃ p ∈ g, p.lhs = n ∧ p.isEpsilon = true) ∧
        (g.OwnsEmpty →
          ∀ a rest, g.Derives [.nonterminal n] (.terminal a :: rest) → a ∈ names) := by
  have hg := Grammar.wellFormed_of_parse h
  rcases compute_cases g with ⟨first, hcompute, hkeys, hnames, -⟩ | ⟨n, -, hmisses⟩
  · refine ⟨first, hcompute, ?_⟩
    intro n hn
    have hkey : n ∈ first.keys := by
      rw [hkeys, mem_keys_initial]
      exact hg.exists_production hn
    obtain ⟨names, hget⟩ := (first.mem_keys_iff n).1 hkey
    have hmem : ∀ a, a ∈ names ↔ g.First n a := (hnames n names hget).2
    refine ⟨names, hget, ?_, ?_, ?_⟩
    · intro a ha hne
      exact (((hmem a).1 ha).derives hg).2 hne
    · rw [hmem, Grammar.first_epsilon_iff hg]
    · intro hown a rest hderives
      exact (hmem a).2 (Grammar.first_of_derives hg hown hderives)
  · exact absurd hmisses (Grammar.not_misses hg.defined n)

/-- In `s ---> a b C` both non-terminals in front can vanish, and say so: so `s` begins with what
they begin with and with the terminal behind them, and with nothing else. -/
theorem names_begin_derivations_of_two_empty :
    ∃ g first, Grammar.parse "s ---> a b C\na ---> * | A\nb ---> B | *" = .ok g ∧ g.OwnsEmpty ∧
      compute g = .ok first ∧ first.get? "s" = some ["A", "B", "C"] ∧
      (∃ rest, g.Derives [.nonterminal "s"] (.terminal "C" :: rest)) ∧
      ∀ a rest, g.Derives [.nonterminal "s"] (.terminal a :: rest) → a ∈ ["A", "B", "C"] := by
  obtain ⟨g, hparse, hg⟩ := exists_ok_of_any
    (e := Grammar.parse "s ---> a b C\na ---> * | A\nb ---> B | *")
    (P := fun g : Grammar =>
      decide ((∀ p ∈ g, (∀ x ∈ p.rhs, ∃ q ∈ g, q.isEpsilon = true ∧ x = .nonterminal q.lhs) →
        ∃ q ∈ g, q.lhs = p.lhs ∧ q.isEpsilon = true) ∧ "s" ∈ g.nonterminals) &&
      (compute g).toOption.any fun first : FirstSets =>
        decide (first.get? "s" = some ["A", "B", "C"]))
    (by decide +kernel)
  simp only [Bool.and_eq_true, decide_eq_true_eq] at hg
  obtain ⟨⟨hstep, hs⟩, hnames⟩ := hg
  have hown : g.OwnsEmpty := (Grammar.ownsEmpty_iff (Grammar.wellFormed_of_parse hparse)).2 hstep
  obtain ⟨first, hcompute, hderives⟩ := names_begin_derivations hparse
  simp only [hcompute, Except.toOption, Option.any_some, decide_eq_true_eq] at hnames
  obtain ⟨names, hget, hsound, -, hcomplete⟩ := hderives "s" hs
  obtain rfl := Option.some.inj (hnames.symm.trans hget)
  exact ⟨g, first, hparse, hown, hcompute, hnames, hsound "C" (by simp) (by decide),
    hcomplete hown⟩

end LRTables.FirstSets
