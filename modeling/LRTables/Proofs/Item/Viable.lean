import LRTables.Proofs.FirstSets.Stable
import LRTables.Proofs.Item.Closure

/-!
# The items over a string of symbols

An item is found over a string of symbols when it is the first item of all, is brought in
by an item that is found over the same string, or is advanced over the last symbol from
one that is found over the rest.  The states of an automaton hold such items only.  For
the augmented grammar, bringing in can be told without the FIRST sets: by what the
symbols behind the non-terminal, and the look-ahead behind them, show in front.

* `Item.Viable` — the items over a string.
* `Item.Viable.isOf` — they are of productions of the augmented grammar.
* `Item.brings_iff` — bringing in, told by what symbols show.
* `Item.Viable.look_mem` — the look-aheads of items.
* `Item.Viable.of_start` — the start production has two items, each over one string.
-/

namespace LRTables

/-- Are the sets those of the left sides of the grammar, with the names of the least
family in them? -/
structure FirstSets.Exact (g : Grammar) (first : FirstSets) : Prop where
  /-- There is a set for each left side. -/
  keys : ∀ n, n ∈ first.keys ↔ ∃ p ∈ g, p.lhs = n
  /-- The names in the sets are those of the least family. -/
  names : ∀ n a, (∃ names, first.get? n = some names ∧ a ∈ names) ↔ g.First n a

theorem FirstSets.exists_exact {g : Grammar} (hg : g.WellFormed) :
    ∃ first, compute g = .ok first ∧ Exact g first := by
  obtain ⟨first, hcompute, hkeys, hnames⟩ := exists_compute hg.defined
  exact ⟨first, hcompute, hkeys, hnames⟩

namespace Item

/-- The items that are found over a string of symbols. -/
inductive Viable (g : Grammar) (first : FirstSets) (seed : Item) : List Symbol → Item → Prop where
  /-- The first item is found over nothing. -/
  | start : Viable g first seed [] seed
  /-- An item is brought in. -/
  | bring {γ : List Symbol} {i j : Item} (h : Viable g first seed γ i)
      (hbrings : Brings g first i j) : Viable g first seed γ j
  /-- An item is advanced. -/
  | advance {γ : List Symbol} {i : Item} {x : Symbol} (h : Viable g first seed γ i)
      (hnext : i.next? = some x) : Viable g first seed (γ ++ [x]) i.advance

/-! ## What is behind the dot -/

theorem mem_of_next? {i : Item} {x : Symbol} (h : i.next? = some x) : x ∈ i.rhs :=
  List.mem_of_getElem? h

theorem dot_lt_of_next? {i : Item} {x : Symbol} (h : i.next? = some x) : i.dot < i.rhs.length :=
  (List.getElem?_eq_some_iff.1 h).1

/-- Something is behind the dot exactly when the dot is not at the end. -/
theorem not_atEnd_iff (i : Item) : (!i.atEnd) = true ↔ ∃ x, i.next? = some x := by
  rw [← Option.isSome_iff_exists, Option.isSome_iff_ne_none, ne_eq, next?_eq_none_iff]
  simp

@[simp] theorem advance_lhs (i : Item) : i.advance.lhs = i.lhs := rfl

@[simp] theorem advance_rhs (i : Item) : i.advance.rhs = i.rhs := rfl

@[simp] theorem advance_dot (i : Item) : i.advance.dot = i.dot + 1 := rfl

@[simp] theorem advance_look (i : Item) : i.advance.look = i.look := rfl

@[simp] theorem ofProduction_lhs (p : Production) (d : Nat) (a : String) :
    (ofProduction p d a).lhs = p.lhs := rfl

@[simp] theorem ofProduction_rhs (p : Production) (d : Nat) (a : String) :
    (ofProduction p d a).rhs = p.rhs := rfl

@[simp] theorem ofProduction_dot (p : Production) (d : Nat) (a : String) :
    (ofProduction p d a).dot = d := rfl

@[simp] theorem ofProduction_look (p : Production) (d : Nat) (a : String) :
    (ofProduction p d a).look = a := rfl

theorem advance_injective {i j : Item} (h : i.advance = j.advance) : i = j := by
  cases i
  cases j
  simpa [advance] using h

/-! ## Items over strings -/

section Any

variable {g : Grammar} {first : FirstSets} {seed i j : Item} {γ : List Symbol}

theorem Viable.inRange (h : Viable g first seed γ i) : InRange g first seed i := by
  induction h with
  | start => exact inRange_refl
  | bring _ hbrings ih => exact hbrings.inRange ih
  | advance _ _ ih => exact ih

/-- What an item over a string leads to is found over the same string. -/
theorem Viable.leads (h : Viable g first seed γ i) (hl : Leads g first i j) :
    Viable g first seed γ j := by
  induction hl with
  | refl => exact h
  | tail _ hstep ih => exact Viable.bring ih hstep

/-- No dot is beyond the end, if that of the first item is not. -/
theorem Viable.dot_le (hseed : seed.dot ≤ seed.rhs.length) (h : Viable g first seed γ i) :
    i.dot ≤ i.rhs.length := by
  induction h with
  | start => exact hseed
  | bring _ hbrings _ => obtain ⟨-, -, -, -, -⟩ := hbrings; exact Nat.zero_le _
  | advance _ hnext _ => exact dot_lt_of_next? hnext

theorem Brings.dot (h : Brings g first i j) : j.dot = 0 := by
  obtain ⟨-, -, -, -, -⟩ := h
  rfl

end Any

/-! ## The augmented grammar -/

section Augmented

variable {g : Grammar} {first : FirstSets} {i j : Item} {γ : List Symbol}

/-- Items are of productions of the augmented grammar. -/
theorem Viable.isOf (h : Viable g.augmented first g.seed γ i) : ∃ p ∈ g.augmented, i.IsOf p := by
  obtain ⟨p, hp, hi⟩ := h.inRange.1
  rcases List.mem_cons.1 hp with rfl | hp
  · exact ⟨g.startProduction, List.mem_cons_self .., hi⟩
  · exact ⟨p, hp, hi⟩

/-- The non-terminal behind a dot is on a left side of the grammar itself. -/
theorem exists_of_next? (hg : g.WellFormed) (hi : ∃ p ∈ g.augmented, i.IsOf p) {n : String}
    (hnext : i.next? = some (.nonterminal n)) : ∃ q ∈ g, q.lhs = n := by
  obtain ⟨p, hp, -, hrhs⟩ := hi
  exact hg.defined_augmented hp (by rw [← hrhs]; exact mem_of_next? hnext)

/-- Look-aheads are what the symbols behind the non-terminal, and the look-ahead of the
item behind them, show in front. -/
theorem mem_lookaheads_iff (hf : first.Exact g) {looks : List String}
    (h : i.lookaheads first = .ok looks) (a : String) :
    a ∈ looks ↔ g.Shows (i.rhs.drop (i.dot + 1) ++ [.terminal i.look]) a := by
  rcases lookaheads_cases h with ⟨hnone, rfl⟩ | ⟨c, hc, rfl⟩ | ⟨b, hb, hnames⟩
  · rw [List.drop_eq_nil_of_le (List.getElem?_eq_none_iff.1 hnone)]
    simp [Grammar.Shows, eq_comm]
  · obtain ⟨hlt, hget⟩ := List.getElem?_eq_some_iff.1 hc
    rw [List.drop_eq_getElem_cons hlt, hget]
    simp [Grammar.Shows, eq_comm]
  · obtain ⟨hlt, hget⟩ := List.getElem?_eq_some_iff.1 hb
    have hmem : a ∈ looks ↔ g.First b a := by
      rw [← hf.names b a, hnames]
      simp
    rw [List.drop_eq_getElem_cons hlt, hget, hmem]
    simp [Grammar.Shows]

/-- The look-aheads of an item of the augmented grammar are there. -/
theorem exists_lookaheads (hg : g.WellFormed) (hf : first.Exact g)
    (hi : ∃ p ∈ g.augmented, i.IsOf p) : ∃ looks, i.lookaheads first = .ok looks := by
  unfold lookaheads
  split
  · exact ⟨_, rfl⟩
  · exact ⟨_, rfl⟩
  · rename_i b hb
    obtain ⟨p, hp, -, hrhs⟩ := hi
    have hdef : ∃ q ∈ g, q.lhs = b :=
      hg.defined_augmented hp (by rw [← hrhs]; exact List.mem_of_getElem? hb)
    obtain ⟨names, hnames⟩ := (first.mem_keys_iff b).1 ((hf.keys b).2 hdef)
    exact ⟨names, by simp only [hnames]⟩

/-- **A look-ahead is the end marker or a terminal of the grammar.** -/
theorem Viable.look_mem (hg : g.WellFormed) (hf : first.Exact g)
    (h : Viable g.augmented first g.seed γ i) : i.look = endMarker ∨ i.look ∈ g.terminals := by
  have hlook := h.inRange.2
  have hstart : Grammar.terminals g.augmented = g.terminals := rfl
  simp only [possibleLooks, hstart, List.mem_append, List.mem_cons] at hlook
  rcases hlook with ((hend | hseed) | hterminal) | hfirst
  · exact Or.inl hend
  · exact absurd hseed (by simp [terminalNames, Grammar.seed, Grammar.startProduction])
  · exact Or.inr hterminal
  · obtain ⟨names, hnames, hmem⟩ := List.mem_flatten.1 hfirst
    obtain ⟨n, hn⟩ := (first.mem_values_iff names).1 hnames
    have hin : g.First n i.look := (hf.names n i.look).1 ⟨names, hn, hmem⟩
    exact Or.inr (hin.mem_terminals_of_wellFormed hg)

/-- What is brought in begins a production of the grammar itself. -/
theorem Brings.exists_mem (hg : g.WellFormed) (hi : ∃ p ∈ g.augmented, i.IsOf p)
    (h : Brings g.augmented first i j) : ∃ p ∈ g, j.IsOf p := by
  obtain ⟨hnext, -, hp, rfl, -⟩ := h
  rcases List.mem_cons.1 hp with rfl | hp
  · -- the new start symbol is behind no dot
    obtain ⟨q, hq, -, hrhs⟩ := hi
    have hmem := mem_of_next? hnext
    rw [hrhs] at hmem
    exact absurd rfl (hg.nonterminal_ne_startProduction hq hmem)
  · exact ⟨_, hp, rfl, rfl⟩

/-- What an item of a production of the augmented grammar leads to is one too. -/
theorem Leads.isOf (hg : g.WellFormed) (hi : ∃ p ∈ g.augmented, i.IsOf p)
    (h : Leads g.augmented first i j) : ∃ p ∈ g.augmented, j.IsOf p := by
  induction h with
  | refl => exact hi
  | tail _ hstep ih =>
    obtain ⟨p, hp, hj⟩ := hstep.exists_mem hg ih
    exact ⟨p, List.mem_cons_of_mem _ hp, hj⟩

/-- **Bringing in, told by what symbols show.** -/
theorem brings_iff (hg : g.WellFormed) (hf : first.Exact g) (hi : ∃ p ∈ g.augmented, i.IsOf p) :
    Brings g.augmented first i j ↔ ∃ p ∈ g, ∃ a, i.next? = some (.nonterminal p.lhs) ∧
      g.Shows (i.rhs.drop (i.dot + 1) ++ [.terminal i.look]) a ∧ j = .ofProduction p 0 a := by
  constructor
  · intro h
    obtain ⟨q, hq, hlhs, hrhs⟩ := h.exists_mem hg hi
    obtain @⟨n, looks, p, a, hnext, hlooks, -, rfl, ha⟩ := h
    refine ⟨q, hq, a, ?_, (mem_lookaheads_iff hf hlooks a).1 ha, ?_⟩
    · rw [hnext, ← hlhs]
      rfl
    · rw [ofProduction, ofProduction, ← hlhs, ← hrhs]
      rfl
  · rintro ⟨p, hp, a, hnext, ha, rfl⟩
    obtain ⟨looks, hlooks⟩ := exists_lookaheads hg hf hi
    exact Brings.begin hnext hlooks (List.mem_cons_of_mem _ hp) rfl
      ((mem_lookaheads_iff hf hlooks a).2 ha)

/-- **The start production has two items**, one before its only symbol and one behind it. -/
theorem Viable.of_start (hg : g.WellFormed) (h : Viable g.augmented first g.seed γ i)
    (hlhs : i.lhs = g.startProduction.lhs) :
    (γ = [] ∧ i = g.seed) ∨ (γ = [.nonterminal g.start] ∧ i = g.seed.advance) := by
  induction h with
  | start => exact Or.inl ⟨rfl, rfl⟩
  | bring h hbrings _ =>
    obtain ⟨p, hp, hi, -⟩ := hbrings.exists_mem hg h.isOf
    exact absurd (hi.symm.trans hlhs) (hg.lhs_ne_startProduction hp)
  | @advance γ i x h hnext ih =>
    rcases ih hlhs with ⟨rfl, rfl⟩ | ⟨rfl, rfl⟩
    · obtain rfl : Symbol.nonterminal g.start = x := Option.some.inj hnext
      exact Or.inr ⟨rfl, rfl⟩
    · exact absurd hnext (by simp [next?, Grammar.seed, Grammar.startProduction])

/-- An item of the new start symbol with its dot behind a symbol is the accepting item. -/
theorem Viable.eq_seed_advance (hg : g.WellFormed) (h : Viable g.augmented first g.seed γ i)
    (hlhs : i.lhs = g.startProduction.lhs) (hpos : 0 < i.dot) : i = g.seed.advance := by
  rcases h.of_start hg hlhs with ⟨-, rfl⟩ | ⟨-, rfl⟩
  · exact absurd hpos (Nat.lt_irrefl 0)
  · rfl

/-- A complete item has its dot behind a symbol. -/
theorem Viable.dot_eq (hg : g.WellFormed) (h : Viable g.augmented first g.seed γ i)
    (hend : i.atEnd = true) : 0 < i.dot ∧ i.dot = i.rhs.length := by
  have hlen : i.rhs.length ≤ i.dot := of_decide_eq_true hend
  have hne : i.rhs ≠ [] := by
    obtain ⟨p, hp, -, hrhs⟩ := h.isOf
    rw [hrhs]
    rcases List.mem_cons.1 hp with rfl | hp
    · simp [Grammar.startProduction]
    · exact hg.rhs_ne_nil p hp
  have hpos := List.length_pos_of_ne_nil hne
  have hle := h.dot_le (Nat.zero_le _)
  omega

/-- Any other item is of a production of the grammar itself. -/
theorem Viable.isOf_of_ne (h : Viable g.augmented first g.seed γ i)
    (hne : i.lhs ≠ g.startProduction.lhs) : ∃ p ∈ g, i.IsOf p := by
  obtain ⟨p, hp, hi⟩ := h.isOf
  rcases List.mem_cons.1 hp with rfl | hp
  · exact absurd hi.1 hne
  · exact ⟨p, hp, hi⟩

/-- The symbols of an item are well-named. -/
theorem wellNamed_of_isOf (hg : g.WellFormed) (hi : ∃ p ∈ g.augmented, i.IsOf p) {x : Symbol}
    (hx : x ∈ i.rhs) : x.WellNamed := by
  obtain ⟨p, hp, -, hrhs⟩ := hi
  exact hg.wellNamed_augmented hp (by rw [← hrhs]; exact hx)

/-- **Items of the augmented grammar are equal when they are the same.** -/
theorem eq_of_same (hg : g.WellFormed) (hi : ∃ p ∈ g.augmented, i.IsOf p)
    (hj : ∃ p ∈ g.augmented, j.IsOf p) (h : i.same j = true) : i = j := by
  obtain ⟨hlhs, hnames, hdot, hlook⟩ := (same_iff i j).1 h
  have hrhs : i.rhs = j.rhs :=
    Symbol.eq_of_map_name_eq (fun x hx => wellNamed_of_isOf hg hi hx)
      (fun x hx => wellNamed_of_isOf hg hj hx) hnames
  obtain ⟨l, r, d, a⟩ := i
  simp only at hlhs hrhs hdot hlook
  subst hlhs hrhs hdot hlook
  rfl

theorem same_refl (i : Item) : i.same i = true := (same_iff i i).2 ⟨rfl, rfl, rfl, rfl⟩

end Augmented

end Item

end LRTables
