import LRTables.Proofs.Item.Viable

/-!
# The item graph

The items of a grammar as the nodes of a graph, told by what stands in front of the dot
and behind it.  From `[A → α · B β, a]` a closing step leads to `[B → · γ, b]`, for every
production of `B` and every look-ahead `b` that `β` and `a` give, and an advancing step
moves the dot over the symbol behind it.  Only the first symbol of `β` is looked at.

* `Item.dotted` — the item with given symbols in front of its dot and behind it.
* `Grammar.Ahead` — the look-aheads that a non-terminal is brought in with.
* `Grammar.Run` — the runs of the graph that begin with the start item.
* `Grammar.run_iff_viable` — the ends of runs are the items over strings.
* `Grammar.exists_ahead_iff` — when there is a look-ahead at all.
-/

namespace LRTables

/-! ## Items by their parts -/

namespace Item

/-- The item with the symbols `before` in front of its dot and the symbols `behind` behind it. -/
def dotted (lhs : String) (before behind : List Symbol) (look : String) : Item :=
  ⟨lhs, before ++ behind, before.length, look⟩

variable {lhs look : String} {before behind : List Symbol} {x : Symbol} {i : Item}

@[simp] theorem next?_dotted : (dotted lhs before (x :: behind) look).next? = some x := by
  simp [dotted, next?]

@[simp] theorem advance_dotted :
    (dotted lhs before (x :: behind) look).advance = dotted lhs (before ++ [x]) behind look := by
  simp [dotted, advance]

/-- What stands behind the symbol behind the dot. -/
theorem drop_dotted : (dotted lhs before (x :: behind) look).rhs.drop
    ((dotted lhs before (x :: behind) look).dot + 1) = behind := by
  show (before ++ x :: behind).drop (before.length + 1) = behind
  rw [List.drop_append]
  simp

/-- An item that can advance, by its parts. -/
theorem exists_dotted (h : i.next? = some x) :
    ∃ before behind, i = dotted i.lhs before (x :: behind) i.look := by
  obtain ⟨hlt, hget⟩ := List.getElem?_eq_some_iff.1 h
  have hsplit : i.rhs = i.rhs.take i.dot ++ x :: i.rhs.drop (i.dot + 1) := by
    rw [← hget, ← List.drop_eq_getElem_cons hlt, List.take_append_drop]
  have hdot : (i.rhs.take i.dot).length = i.dot := by
    rw [List.length_take]
    omega
  refine ⟨i.rhs.take i.dot, i.rhs.drop (i.dot + 1), ?_⟩
  rw [dotted, ← hsplit, hdot]

/-- Only an item with a non-terminal behind its dot brings something in. -/
theorem Brings.exists_next? {g : Grammar} {first : FirstSets} {j : Item}
    (h : Brings g first i j) : ∃ n, i.next? = some (.nonterminal n) := by
  obtain ⟨hnext, -, -, -, -⟩ := h
  exact ⟨_, hnext⟩

end Item

namespace Grammar

variable {g : Grammar} {first : FirstSets}

/-! ## Look-aheads -/

/-- The look-aheads that the item `[A → α · B β, a]` brings `B` in with: `a` itself if
nothing follows `B`, the terminal that follows it, or any name in the FIRST set of the
non-terminal that follows it. -/
inductive Ahead (g : Grammar) : List Symbol → String → String → Prop where
  /-- Nothing follows. -/
  | last (a : String) : Ahead g [] a a
  /-- A terminal follows. -/
  | terminal (c : String) (rest : List Symbol) (a : String) : Ahead g (.terminal c :: rest) a c
  /-- A non-terminal follows. -/
  | nonterminal {n b : String} (h : g.First n b) (rest : List Symbol) (a : String) :
      Ahead g (.nonterminal n :: rest) a b

/-- Look-aheads are what is shown in front of `β` with the old look-ahead behind it. -/
theorem ahead_iff_shows {behind : List Symbol} {a b : String} :
    g.Ahead behind a b ↔ g.Shows (behind ++ [.terminal a]) b := by
  constructor
  · intro h
    cases h with
    | last => exact Or.inl ⟨[], rfl⟩
    | terminal c rest => exact Or.inl ⟨_, rfl⟩
    | nonterminal h rest => exact Or.inr ⟨_, _, rfl, h⟩
  · intro h
    cases behind with
    | nil =>
      rcases h with ⟨rest, hrest⟩ | ⟨n, rest, hrest, -⟩
      · obtain ⟨hab, -⟩ := List.cons.inj hrest
        obtain rfl := Symbol.terminal.inj hab
        exact Ahead.last a
      · exact absurd hrest (by simp)
    | cons x behind =>
      rcases h with ⟨rest, hrest⟩ | ⟨n, rest, hrest, hn⟩
      · obtain ⟨rfl, -⟩ := List.cons.inj hrest
        exact Ahead.terminal b behind a
      · obtain ⟨rfl, -⟩ := List.cons.inj hrest
        exact Ahead.nonterminal hn behind a

/-- Is the first of the symbols a non-terminal whose FIRST set is empty? -/
def Silent (g : Grammar) (behind : List Symbol) : Prop :=
  ∃ n rest, behind = .nonterminal n :: rest ∧ ∀ b, ¬ g.First n b

/-- **There is no look-ahead exactly when the symbol that follows is a non-terminal with an
empty FIRST set.** -/
theorem exists_ahead_iff {behind : List Symbol} {a : String} :
    (∃ b, g.Ahead behind a b) ↔ ¬ g.Silent behind := by
  constructor
  · rintro ⟨b, h⟩ ⟨n, rest, rfl, hnone⟩
    cases h with
    | nonterminal h => exact hnone b h
  · intro h
    match behind, h with
    | [], _ => exact ⟨a, Ahead.last a⟩
    | .terminal c :: rest, _ => exact ⟨c, Ahead.terminal c rest a⟩
    | .nonterminal n :: rest, h =>
      by_contra hnone
      exact h ⟨n, rest, rfl, fun b hb => hnone ⟨b, Ahead.nonterminal hb rest a⟩⟩

/-- A non-terminal is silent exactly when the set that is computed for it is empty. -/
theorem silent_iff (hf : first.Exact g) {n : String} {names : List String}
    (h : first.get? n = some names) (rest : List Symbol) :
    g.Silent (.nonterminal n :: rest) ↔ names = [] := by
  constructor
  · rintro ⟨m, rest', heq, hnone⟩
    obtain ⟨hm, -⟩ := List.cons.inj heq
    obtain rfl := Symbol.nonterminal.inj hm
    apply List.eq_nil_iff_forall_not_mem.2
    intro b hb
    exact hnone b ((hf.names n b).1 ⟨names, h, hb⟩)
  · rintro rfl
    refine ⟨n, rest, rfl, ?_⟩
    intro b hb
    obtain ⟨names, hnames, hmem⟩ := (hf.names n b).2 hb
    obtain rfl := Option.some.inj (h.symm.trans hnames)
    exact absurd hmem (by simp)

/-! ## Runs -/

/-- The runs of the item graph from the start item: the symbols that are read, and the item
at the end. -/
inductive Run (g : Grammar) : List Symbol → Item → Prop where
  /-- Nothing is read at the start item. -/
  | start : Run g [] (.dotted (g.start ++ "'") [] [.nonterminal g.start] endMarker)
  /-- A production of the non-terminal behind the dot is begun. -/
  | close {γ : List Symbol} {lhs : String} {before behind : List Symbol} {a b : String}
      {p : Production} (h : Run g γ (.dotted lhs before (.nonterminal p.lhs :: behind) a))
      (hp : p ∈ g) (hb : g.Ahead behind a b) : Run g γ (.dotted p.lhs [] p.rhs b)
  /-- The symbol behind the dot is read. -/
  | advance {γ : List Symbol} {lhs : String} {before behind : List Symbol} {x : Symbol}
      {a : String} (h : Run g γ (.dotted lhs before (x :: behind) a)) :
      Run g (γ ++ [x]) (.dotted lhs (before ++ [x]) behind a)

/-- What an item brings in, by its parts. -/
theorem brings_dotted_iff (hg : g.WellFormed) (hf : first.Exact g) {lhs n a : String}
    {before behind : List Symbol} {j : Item}
    (hi : ∃ p ∈ g.augmented, (Item.dotted lhs before (.nonterminal n :: behind) a).IsOf p) :
    Item.Brings g.augmented first (.dotted lhs before (.nonterminal n :: behind) a) j ↔
      ∃ p ∈ g, p.lhs = n ∧ ∃ b, g.Ahead behind a b ∧ j = .dotted p.lhs [] p.rhs b := by
  rw [Item.brings_iff hg hf hi, Item.drop_dotted]
  constructor
  · rintro ⟨p, hp, b, hnext, hb, rfl⟩
    rw [Item.next?_dotted, Option.some.injEq] at hnext
    exact ⟨p, hp, (Symbol.nonterminal.inj hnext).symm, b, ahead_iff_shows.2 hb, rfl⟩
  · rintro ⟨p, hp, rfl, b, hb, rfl⟩
    exact ⟨p, hp, b, Item.next?_dotted, ahead_iff_shows.1 hb, rfl⟩

/-- **The ends of runs are the items over strings.** -/
theorem run_iff_viable (hg : g.WellFormed) (hf : first.Exact g) {γ : List Symbol} {i : Item} :
    g.Run γ i ↔ Item.Viable g.augmented first g.seed γ i := by
  constructor
  · intro h
    induction h with
    | start => exact Item.Viable.start
    | close _ hp hb ih =>
      exact Item.Viable.bring ih ((brings_dotted_iff hg hf ih.isOf).2 ⟨_, hp, rfl, _, hb, rfl⟩)
    | advance _ ih =>
      rw [← Item.advance_dotted]
      exact Item.Viable.advance ih Item.next?_dotted
  · intro h
    induction h with
    | start => exact Run.start
    | @bring γ i j h hbrings ih =>
      obtain ⟨n, hnext⟩ := hbrings.exists_next?
      obtain ⟨before, behind, hi⟩ := Item.exists_dotted hnext
      have hof := h.isOf
      rw [hi] at ih hbrings hof
      obtain ⟨p, hp, rfl, b, hb, rfl⟩ := (brings_dotted_iff hg hf hof).1 hbrings
      exact Run.close ih hp hb
    | @advance γ i x h hnext ih =>
      obtain ⟨before, behind, hi⟩ := Item.exists_dotted hnext
      rw [hi] at ih ⊢
      rw [Item.advance_dotted]
      exact Run.advance ih

end Grammar

end LRTables
