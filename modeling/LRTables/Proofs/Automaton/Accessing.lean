import LRTables.Proofs.Automaton.Anchors

/-!
# The symbols that states are reached over

A state that is left after all passes still has its own kernel in front, which is found over
some string; and what is found over a string is at the end of a path over it.  The kernel is
in no other state, so the path ends in this one.  So every state can be reached, and over one
symbol only: states were merged only if they were reached over the same name.

* `Automaton.OfKernels.exists_path` — every state of a quotient is at the end of a path.
* `Automaton.exists_unique_accessing_symbol` — the symbol that a state is reached over.
-/

namespace LRTables.Automaton

variable {g : Grammar} {first : FirstSets} {a b : Automaton} {f : Nat → Nat}

/-- **Every state that is left is at the end of a path**, over a string that its kernel is
found over. -/
theorem OfKernels.exists_path (h : a.OfKernels g first) (hg : g.WellFormed)
    (hq : Quotient a b f) {k : Nat} (hk : k ∈ b.keys) : ∃ γ, b.Path γ k := by
  have hfk : f k = k := hq.fixed hk
  obtain ⟨s, hs⟩ := (a.mem_keys_iff k).1 ((hq.mem_keys_iff k).1 hk).1
  obtain ⟨κ, hhead, ⟨γ, hv⟩, -⟩ := h.leads k s hs
  have hkernel : κ = g.seed ∨ 0 < κ.dot := h.kernel k s hs κ hhead
  have hκ : κ ∈ a.rulesOf k := mem_rulesOf_of_head? hs hhead
  obtain ⟨j, hpath, hj⟩ := (h.built hq hg).exists_path hv
  -- the path ends in the one state that the kernel is in
  have hjk : j = k := by
    rw [h.eq_of_mem_quotient hg hq hkernel hj (hq.mem_image hκ), hfk]
  rw [← hjk]
  exact ⟨γ, hpath⟩

/-- **The symbol that a state is reached over.**  Every state of the automaton of a grammar
but state zero is at the end of a path, and one symbol is the last of the path, that of every
transition to the state, and that in front of every dot in it which is not in front itself.
Every transition has an item with its symbol behind the dot. -/
theorem exists_unique_accessing_symbol {text : String} (h : Grammar.parse text = .ok g) :
    ∃ b, ofGrammar g = .ok b ∧
      (∀ k ∈ b.keys, k ≠ 0 → ∃! x : Symbol, (∃ γ, b.Path (γ ++ [x]) k) ∧
        (∀ j t, b.Has j t → t.target = k → t.symbol = x) ∧
        ∀ i ∈ b.rulesOf k, 0 < i.dot → i.rhs[i.dot - 1]? = some x) ∧
      ∀ k t, b.Has k t → ∃ i ∈ b.rulesOf k, i.next? = some t.symbol := by
  have hg := Grammar.wellFormed_of_parse h
  obtain ⟨first, a, b, f, -, ha, hgrammar, hq, -⟩ := exists_ofGrammar_anchored hg
  have hb : b.Built g first := ha.built hq hg
  refine ⟨b, hgrammar, ?_, ?_⟩
  · intro k hk hne
    obtain ⟨γ, hpath⟩ := ha.exists_path hg hq hk
    have hlast : γ ≠ [] := by
      rintro rfl
      exact hne (path_nil_iff.1 hpath)
    obtain ⟨γ, x, rfl⟩ := (List.eq_nil_or_concat' γ).resolve_left hlast
    obtain ⟨j, -, hjk⟩ := path_concat_iff.1 hpath
    refine ⟨x, ⟨⟨γ, hpath⟩, ?_, ?_⟩, ?_⟩
    · intro m t ht htarget
      exact hb.symbol_eq_of_has hg ht hjk htarget
    · intro i hi hpos
      exact hb.getElem?_of_has hg hjk hi hpos
    · rintro y ⟨-, hy, -⟩
      exact (hy j ⟨x, k⟩ hjk rfl).symm
  · intro k t ht
    obtain ⟨i, hi, hnext, -⟩ := hb.justified k t ht
    exact ⟨i, hi, hnext⟩

/-- The states behind a sum and behind its last summand were merged, and both are reached over
the same symbol. -/
theorem exists_unique_accessing_symbol_of_sums :
    ∃ g b, Grammar.parse "e ---> e P e | N" = .ok g ∧ ofGrammar g = .ok b ∧
      (∃ γ, b.Path (γ ++ [.nonterminal "e"]) 8) ∧ (b.rulesOf 8).length = 5 ∧
      ∀ i ∈ b.rulesOf 8, 0 < i.dot → i.rhs[i.dot - 1]? = some (.nonterminal "e") := by
  obtain ⟨g, hparse, hg⟩ := exists_ok_of_any (e := Grammar.parse "e ---> e P e | N")
    (P := fun g : Grammar => (ofGrammar g).toOption.any fun b : Automaton =>
      decide ((b.rulesOf 8).length = 5) &&
        (b.get? 0).any fun s : State =>
          decide ((⟨.nonterminal "e", 8⟩ : Transition) ∈ s.transitions))
    (by decide +kernel)
  obtain ⟨b, hb, haccessed, -⟩ := exists_unique_accessing_symbol hparse
  rw [hb] at hg
  simp only [Except.toOption, Option.any_some, Bool.and_eq_true, decide_eq_true_eq,
    Option.any_eq_true] at hg
  obtain ⟨hlength, s, hs, ht⟩ := hg
  have hmem : 8 ∈ b.keys := by
    apply mem_keys_of_mem_rulesOf (i := (b.rulesOf 8)[0])
    exact List.getElem_mem _
  obtain ⟨x, ⟨hpath, hsymbol, hdots⟩, -⟩ := haccessed 8 hmem (by decide)
  obtain rfl : Symbol.nonterminal "e" = x := hsymbol 0 _ ⟨s, hs, ht⟩ rfl
  exact ⟨g, b, hparse, hb, hpath, hlength, hdots⟩

end LRTables.Automaton
