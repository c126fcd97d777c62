import LRTables.Proofs.Item.Viable
import LRTables.Proofs.Outcome
import Mathlib.Data.List.Induction

/-!
# The canonical collection

The textbook's sets of items, put together without look-up in any FIRST sets: a closure
brings in the productions of the non-terminal behind a dot with every terminal that begins
something derived from what is behind it, a goto advances the items of a set over one
symbol and closes them, and the canonical collection is what gotos lead to.  A grammar is
LR(1) if no two items of one of these sets clash.  Without the empty string the closures are
the ones that are computed, and the sets are those of the items that are found over one string
each.

* `Grammar.Closure`, `Goto`, `Canonical` — the textbook's definitions.
* `Item.Clash` and `Grammar.IsLR1` — LR(1) grammars.
* `Grammar.Together` — items of one set.
* `Grammar.begins_append_terminal_iff` — FIRST of a string with a look-ahead behind it.
* `Grammar.closure_canonical` — the closure that is computed is the textbook's.
* `Grammar.canonical_iff` — a set of the collection is that of the items over some string.
* `Grammar.isLR1_of_collection`, `lr1Within` — the collection can be computed, and LR(1) be checked.
-/

namespace LRTables

/-- **Two items clash** if both are complete with one look-ahead, or one is complete and its
look-ahead is behind the dot of the other. -/
def Item.Clash (i j : Item) : Prop :=
  i.atEnd = true ∧
    ((j.atEnd = true ∧ i.look = j.look ∧ i ≠ j) ∨ j.next?.map Symbol.name = some i.look)

instance (i j : Item) : Decidable (i.Clash j) :=
  inferInstanceAs (Decidable (_ ∧ _))

namespace Grammar

/-! ## The textbook's sets -/

/-- The terminals that begin what is derived from the string. -/
def Begins (g : Grammar) (xs : List Symbol) (a : String) : Prop :=
  ∃ rest, g.Derives xs (.terminal a :: rest)

/-- The closure of a set of items. -/
inductive Closure (g : Grammar) (K : Item → Prop) : Item → Prop where
  /-- The items of the set. -/
  | base {i : Item} (h : K i) : Closure g K i
  /-- The beginnings of the productions of a non-terminal behind a dot. -/
  | bring {i : Item} {p : Production} {a : String} (h : Closure g K i) (hp : p ∈ g.augmented)
      (hnext : i.next? = some (.nonterminal p.lhs))
      (ha : g.Begins (i.rhs.drop (i.dot + 1) ++ [.terminal i.look]) a) :
      Closure g K (.ofProduction p 0 a)

/-- The set that a set leads to over a symbol. -/
def Goto (g : Grammar) (I : Item → Prop) (x : Symbol) : Item → Prop :=
  g.Closure fun j => ∃ i, I i ∧ i.next? = some x ∧ j = i.advance

/-- The canonical collection. -/
inductive Canonical (g : Grammar) : (Item → Prop) → Prop where
  /-- The closure of the first item. -/
  | start : Canonical g (g.Closure fun i => i = g.seed)
  /-- What gotos lead to. -/
  | goto {I : Item → Prop} (h : Canonical g I) (x : Symbol) : Canonical g (g.Goto I x)

/-- Do the items stand together in some set of the canonical collection? -/
def Together (g : Grammar) (i j : Item) : Prop := ∃ I, g.Canonical I ∧ I i ∧ I j

/-- **A grammar is LR(1)** if no set of its canonical collection has two items that clash. -/
def IsLR1 (g : Grammar) : Prop := ∀ I, g.Canonical I → ∀ i j, I i → I j → ¬ i.Clash j

/-! ## The items over a string -/

variable {g : Grammar} {first : FirstSets}

/-- Without the empty string a string shows the terminals that begin what it derives. -/
theorem shows_iff_begins (hg : g.WellFormed) (he : g.EpsilonFree) (xs : List Symbol) (a : String) :
    g.Shows xs a ↔ g.Begins xs a := by
  constructor
  · rintro (⟨rest, rfl⟩ | ⟨n, rest, rfl, hn⟩)
    · exact ⟨rest, Relation.ReflTransGen.refl⟩
    · obtain ⟨more, hmore⟩ := (hn.derives hg).2 (hn.ne_epsilon he hg)
      exact ⟨more ++ rest, hmore.append_right rest⟩
  · rintro ⟨rest, h⟩
    exact shows_of_derives he hg h

/-- **FIRST of a string with a look-ahead behind it**: the look-ahead if the string is empty,
and otherwise, without the empty string, the terminals that begin what the string derives. -/
theorem begins_append_terminal_iff (hg : g.WellFormed) (he : g.EpsilonFree) (xs : List Symbol)
    (a b : String) :
    g.Begins (xs ++ [.terminal a]) b ↔ (xs = [] ∧ b = a) ∨ (xs ≠ [] ∧ g.Begins xs b) := by
  rw [← shows_iff_begins hg he, ← shows_iff_begins hg he]
  cases xs with
  | nil =>
    have hba : b = a ↔ a = b := eq_comm
    simp [Shows, hba]
  | cons x xs => simp [Shows]

/-- A closure is what its items lead to. -/
theorem closure_iff (hg : g.WellFormed) (he : g.EpsilonFree) (hf : first.Exact g)
    {K : Item → Prop} (hK : ∀ i, K i → ∃ p ∈ g.augmented, i.IsOf p) (j : Item) :
    g.Closure K j ↔ ∃ i, K i ∧ Item.Leads g.augmented first i j := by
  have known : ∀ i j, K i → Item.Leads g.augmented first i j → ∃ p ∈ g.augmented, j.IsOf p :=
    fun i j hi hij => hij.isOf hg (hK i hi)
  constructor
  · intro h
    induction h with
    | base h => exact ⟨_, h, Relation.ReflTransGen.refl⟩
    | @bring i p a _ hp hnext ha ih =>
      obtain ⟨k, hk, hki⟩ := ih
      refine ⟨k, hk, hki.tail ?_⟩
      refine (Item.brings_iff hg hf (known k i hk hki)).2 ⟨p, ?_, a, hnext, ?_, rfl⟩
      · rcases List.mem_cons.1 hp with rfl | hp
        · obtain ⟨q, hq, hlhs⟩ := Item.exists_of_next? hg (known k i hk hki) hnext
          exact absurd hlhs (hg.lhs_ne_startProduction hq)
        · exact hp
      · exact (shows_iff_begins hg he _ a).2 ha
  · rintro ⟨i, hi, hij⟩
    induction hij with
    | refl => exact Closure.base hi
    | tail hik hstep ih =>
      obtain ⟨p, hp, a, hnext, ha, rfl⟩ := (Item.brings_iff hg hf (known _ _ hi hik)).1 hstep
      exact Closure.bring ih (List.mem_cons_of_mem _ hp) hnext ((shows_iff_begins hg he _ a).1 ha)

/-- **The closure that is computed is the textbook's.**  For every text that is a grammar
without the empty string and every item of a production of the augmented grammar, wherever its
dot is and whatever its look-ahead, the closure goes through and holds the items of the least
set that has the item and with `[A → α · B β, a]` every `[B → · γ, b]` for the terminals `b` that
begin what `β a` derives; which is `a` if `β` is empty, and begins what `β` derives if not. -/
theorem closure_canonical {text : String} (h : parse text = .ok g) (he : g.EpsilonFree) :
    ∃ first, FirstSets.compute g = .ok first ∧ g.augment = .ok g.augmented ∧
      (∀ p ∈ g.augmented, ∀ dot look, ∃ items,
        Item.closure g.augmented first (.ofProduction p dot look) = .ok items ∧
          ∀ i, i ∈ items ↔ g.Closure (fun seed => seed = .ofProduction p dot look) i) ∧
      ∀ xs a b, g.Begins (xs ++ [.terminal a]) b ↔
        (xs = [] ∧ b = a) ∨ (xs ≠ [] ∧ g.Begins xs b) := by
  have hg := wellFormed_of_parse h
  obtain ⟨first, hcompute, hf⟩ := FirstSets.exists_exact hg
  refine ⟨first, hcompute, augment_of_ne_nil hg.ne_nil, ?_, begins_append_terminal_iff hg he⟩
  intro p hp dot look
  have hseed : ∃ q ∈ g.augmented, (Item.ofProduction p dot look).IsOf q := ⟨p, hp, rfl, rfl⟩
  obtain ⟨rest, hclosure, hmem⟩ := Item.exists_closure fun i hi n _ =>
    Item.exists_lookaheads hg hf (hi.isOf hg hseed)
  refine ⟨_, hclosure, ?_⟩
  intro i
  rw [hmem, closure_iff hg he hf (by rintro _ rfl; exact hseed)]
  simp

/-- In `s ---> c c` the second `c` gives the look-aheads of the first one, one for each terminal
that begins it. -/
theorem closure_canonical_of_two_looks :
    ∃ g first seed items, parse "s ---> c c\nc ---> C c | D" = .ok g ∧ g.EpsilonFree ∧
      FirstSets.compute g = .ok first ∧
      seed = ⟨"s", [.nonterminal "c", .nonterminal "c"], 0, endMarker⟩ ∧
      Item.closure g.augmented first seed = .ok items ∧ items.length = 5 ∧
      (∀ i, i ∈ items ↔ g.Closure (fun j => j = seed) i) ∧
      g.Closure (fun j => j = seed) ⟨"c", [.terminal "D"], 0, "C"⟩ := by
  obtain ⟨g, hparse, hg⟩ := exists_ok_of_any (e := parse "s ---> c c\nc ---> C c | D")
    (P := fun g : Grammar =>
      decide (g.EpsilonFree ∧
        (⟨"s", [.nonterminal "c", .nonterminal "c"], some 1⟩ : Production) ∈ g.augmented) &&
      (FirstSets.compute g).toOption.any fun first : FirstSets =>
        (Item.closure g.augmented first
          ⟨"s", [.nonterminal "c", .nonterminal "c"], 0, endMarker⟩).toOption.any
            fun items : List Item =>
              decide (items.length = 5 ∧ (⟨"c", [.terminal "D"], 0, "C"⟩ : Item) ∈ items))
    (by decide +kernel)
  simp only [Bool.and_eq_true, decide_eq_true_eq] at hg
  obtain ⟨⟨he, hp⟩, hg⟩ := hg
  obtain ⟨first, hcompute, -, hclosures, -⟩ := closure_canonical hparse he
  obtain ⟨items, hclosure, hmem⟩ := hclosures _ hp 0 endMarker
  rw [Item.ofProduction] at hclosure
  simp only [hcompute, hclosure, Except.toOption, Option.any_some, decide_eq_true_eq] at hg
  exact ⟨g, first, _, items, hparse, he, hcompute, rfl, hclosure, hg.1, hmem,
    (hmem _).1 hg.2⟩

end Grammar

namespace Item

variable {g : Grammar} {first : FirstSets} {seed i : Item}

/-- Over nothing are found the first item and what it leads to. -/
theorem viable_nil_iff : Viable g first seed [] i ↔ Leads g first seed i := by
  constructor
  · intro h
    generalize hγ : ([] : List Symbol) = γ at h
    induction h with
    | start => exact Relation.ReflTransGen.refl
    | bring _ hbrings ih => exact (ih hγ).tail hbrings
    | advance _ _ _ => exact absurd hγ (by simp)
  · exact Viable.start.leads

/-- Over a string and one more symbol are found the advanced items and what they lead to. -/
theorem viable_concat_iff {γ : List Symbol} {x : Symbol} :
    Viable g first seed (γ ++ [x]) i ↔
      ∃ j, (Viable g first seed γ j ∧ j.next? = some x) ∧ Leads g first j.advance i := by
  constructor
  · intro h
    generalize hδ : γ ++ [x] = δ at h
    induction h with
    | start => exact absurd hδ (by simp)
    | bring _ hbrings ih =>
      obtain ⟨j, hj, hleads⟩ := ih hδ
      exact ⟨j, hj, hleads.tail hbrings⟩
    | @advance γ' j y hj hnext _ =>
      obtain ⟨rfl, hxy⟩ := List.append_inj' hδ rfl
      obtain rfl := List.singleton_inj.1 hxy
      exact ⟨j, ⟨hj, hnext⟩, Relation.ReflTransGen.refl⟩
  · rintro ⟨j, ⟨hj, hnext⟩, hleads⟩
    exact (Viable.advance hj hnext).leads hleads

end Item

namespace Grammar

variable {g : Grammar} {first : FirstSets}

theorem closure_seed (hg : g.WellFormed) (he : g.EpsilonFree) (hf : first.Exact g) :
    g.Closure (fun i => i = g.seed) = Item.Viable g.augmented first g.seed [] := by
  have hseed : ∀ i, i = g.seed → ∃ p ∈ g.augmented, i.IsOf p := by
    rintro i rfl
    exact ⟨g.startProduction, List.mem_cons_self .., rfl, rfl⟩
  funext j
  rw [closure_iff hg he hf hseed, Item.viable_nil_iff]
  refine propext ⟨?_, fun h => ⟨g.seed, rfl, h⟩⟩
  rintro ⟨i, rfl, h⟩
  exact h

theorem goto_viable (hg : g.WellFormed) (he : g.EpsilonFree) (hf : first.Exact g)
    (γ : List Symbol) (x : Symbol) : g.Goto (Item.Viable g.augmented first g.seed γ) x =
      Item.Viable g.augmented first g.seed (γ ++ [x]) := by
  funext j
  rw [Goto, closure_iff hg he hf, Item.viable_concat_iff]
  · refine propext ⟨?_, ?_⟩
    · rintro ⟨_, ⟨i, hi, hnext, rfl⟩, h⟩
      exact ⟨i, ⟨hi, hnext⟩, h⟩
    · rintro ⟨i, ⟨hi, hnext⟩, h⟩
      exact ⟨i.advance, ⟨i, hi, hnext, rfl⟩, h⟩
  · rintro _ ⟨i, hi, hnext, rfl⟩
    exact (Item.Viable.advance hi hnext).isOf

/-- **A set of the canonical collection is that of the items over some string.** -/
theorem canonical_iff (hg : g.WellFormed) (he : g.EpsilonFree) (hf : first.Exact g)
    (I : Item → Prop) :
    g.Canonical I ↔ ∃ γ, I = Item.Viable g.augmented first g.seed γ := by
  constructor
  · intro h
    induction h with
    | start => exact ⟨[], closure_seed hg he hf⟩
    | goto _ x ih =>
      obtain ⟨γ, rfl⟩ := ih
      exact ⟨γ ++ [x], goto_viable hg he hf γ x⟩
  · rintro ⟨γ, rfl⟩
    induction γ using List.reverseRecOn with
    | nil =>
      rw [← closure_seed hg he hf]
      exact Canonical.start
    | append_singleton γ x ih =>
      rw [← goto_viable hg he hf γ x]
      exact Canonical.goto ih x

/-- Items over one string stand together. -/
theorem together_of_viable (hg : g.WellFormed) (he : g.EpsilonFree) (hf : first.Exact g)
    {γ : List Symbol} {i j : Item} (hi : Item.Viable g.augmented first g.seed γ i)
    (hj : Item.Viable g.augmented first g.seed γ j) : g.Together i j :=
  ⟨_, (canonical_iff hg he hf _).2 ⟨γ, rfl⟩, hi, hj⟩

/-- In an LR(1) grammar items that stand together do not clash. -/
theorem IsLR1.not_clash (h : g.IsLR1) {i j : Item} (hij : g.Together i j) : ¬ i.Clash j := by
  obtain ⟨I, hI, hi, hj⟩ := hij
  exact h I hI i j hi hj

/-- LR(1), told by the items over strings. -/
theorem isLR1_iff (hg : g.WellFormed) (he : g.EpsilonFree) (hf : first.Exact g) :
    g.IsLR1 ↔ ∀ γ i j, Item.Viable g.augmented first g.seed γ i →
      Item.Viable g.augmented first g.seed γ j → ¬ i.Clash j := by
  constructor
  · intro h γ
    exact h _ ((canonical_iff hg he hf _).2 ⟨γ, rfl⟩)
  · rintro h I hI
    obtain ⟨γ, rfl⟩ := (canonical_iff hg he hf I).1 hI
    exact h γ

/-! ## Computing the collection -/

/-- What some items lead to. -/
def closureItems (g : Grammar) (first : FirstSets) (K : List Item) : List Item :=
  K.flatMap fun k => (Item.closure g.augmented first k).toOption.getD []

/-- What the advanced items lead to. -/
def gotoItems (g : Grammar) (first : FirstSets) (L : List Item) (x : Symbol) : List Item :=
  closureItems g first ((L.filter fun i => i.next? = some x).map Item.advance)

/-- The sets of items over strings of at most so many symbols, empty ones left out. -/
def collectionWithin (g : Grammar) (first : FirstSets) : Nat → List (List Item)
  | 0 => [closureItems g first [g.seed]]
  | n + 1 => collectionWithin g first n ++ (collectionWithin g first n).flatMap fun L =>
      (L.filterMap Item.next?).map (gotoItems g first L)

theorem mem_closureItems_iff (hg : g.WellFormed) (hf : first.Exact g) {K : List Item}
    (hK : ∀ k ∈ K, ∃ γ, Item.Viable g.augmented first g.seed γ k) (i : Item) :
    i ∈ closureItems g first K ↔ ∃ k ∈ K, Item.Leads g.augmented first k i := by
  rw [closureItems, List.mem_flatMap]
  refine exists_congr fun k => and_congr_right fun hk => ?_
  obtain ⟨γ, hv⟩ := hK k hk
  obtain ⟨rest, hclosure, hmem⟩ := Item.exists_closure fun i hi n _ =>
    Item.exists_lookaheads hg hf (hv.leads hi).isOf
  rw [hclosure]
  exact hmem i

theorem seed_mem_collectionWithin (n : Nat) :
    closureItems g first [g.seed] ∈ collectionWithin g first n := by
  induction n with
  | zero => exact List.mem_singleton.2 rfl
  | succ n ih => exact List.mem_append_left _ ih

/-- The items over nothing are those of the first set. -/
theorem mem_closureItems_seed_iff (hg : g.WellFormed) (hf : first.Exact g) (i : Item) :
    i ∈ closureItems g first [g.seed] ↔ Item.Viable g.augmented first g.seed [] i := by
  have hseed : ∀ k ∈ [g.seed], ∃ γ, Item.Viable g.augmented first g.seed γ k := by
    intro k hk
    rw [List.mem_singleton.1 hk]
    exact ⟨[], Item.Viable.start⟩
  rw [mem_closureItems_iff hg hf hseed, Item.viable_nil_iff]
  simp

/-- Where a list has the items over a string, its gotos have those over one symbol more. -/
theorem mem_gotoItems_iff (hg : g.WellFormed) (hf : first.Exact g) {γ : List Symbol}
    {L : List Item} (hL : ∀ i, i ∈ L ↔ Item.Viable g.augmented first g.seed γ i) (x : Symbol)
    (i : Item) :
    i ∈ gotoItems g first L x ↔ Item.Viable g.augmented first g.seed (γ ++ [x]) i := by
  have hkernel : ∀ k, k ∈ (L.filter fun i => i.next? = some x).map Item.advance ↔
      ∃ j, (Item.Viable g.augmented first g.seed γ j ∧ j.next? = some x) ∧ j.advance = k := by
    intro k
    simp only [List.mem_map, List.mem_filter, hL, decide_eq_true_eq]
  have hviable : ∀ k ∈ (L.filter fun i => i.next? = some x).map Item.advance,
      ∃ γ, Item.Viable g.augmented first g.seed γ k := by
    intro k hk
    obtain ⟨j, ⟨hj, hnext⟩, rfl⟩ := (hkernel k).1 hk
    exact ⟨_, Item.Viable.advance hj hnext⟩
  rw [gotoItems, mem_closureItems_iff hg hf hviable, Item.viable_concat_iff]
  constructor
  · rintro ⟨k, hk, hleads⟩
    obtain ⟨j, hj, rfl⟩ := (hkernel k).1 hk
    exact ⟨j, hj, hleads⟩
  · rintro ⟨j, hj, hleads⟩
    exact ⟨j.advance, (hkernel _).2 ⟨j, hj, rfl⟩, hleads⟩

/-- A list that is computed has the items over some string. -/
theorem exists_viable_of_mem_collectionWithin (hg : g.WellFormed) (hf : first.Exact g) {n : Nat}
    {L : List Item} (hL : L ∈ collectionWithin g first n) :
    ∃ γ, ∀ i, i ∈ L ↔ Item.Viable g.augmented first g.seed γ i := by
  induction n generalizing L with
  | zero =>
    rw [List.mem_singleton.1 hL]
    exact ⟨[], mem_closureItems_seed_iff hg hf⟩
  | succ n ih =>
    rcases List.mem_append.1 hL with hL | hL
    · exact ih hL
    · obtain ⟨L', hL', hgoto⟩ := List.mem_flatMap.1 hL
      obtain ⟨x, -, rfl⟩ := List.mem_map.1 hgoto
      obtain ⟨γ, hmem⟩ := ih hL'
      exact ⟨γ ++ [x], mem_gotoItems_iff hg hf hmem x⟩

/-- Items of a list that is computed stand together. -/
theorem together_of_mem_collectionWithin (hg : g.WellFormed) (he : g.EpsilonFree)
    (hf : first.Exact g) {n : Nat} {L : List Item} (hL : L ∈ collectionWithin g first n) {i j : Item}
    (hi : i ∈ L) (hj : j ∈ L) : g.Together i j := by
  obtain ⟨γ, hmem⟩ := exists_viable_of_mem_collectionWithin hg hf hL
  exact together_of_viable hg he hf ((hmem i).1 hi) ((hmem j).1 hj)

/-- Where another step finds nothing new, the items over every string have been found. -/
theorem exists_mem_collectionWithin (hg : g.WellFormed) (hf : first.Exact g) {n : Nat}
    (hclosed : collectionWithin g first (n + 1) ⊆ collectionWithin g first n) (γ : List Symbol) :
    (∃ L ∈ collectionWithin g first n, ∀ i, i ∈ L ↔ Item.Viable g.augmented first g.seed γ i) ∨
      ∀ i, ¬ Item.Viable g.augmented first g.seed γ i := by
  induction γ using List.reverseRecOn with
  | nil => exact Or.inl ⟨_, seed_mem_collectionWithin n, mem_closureItems_seed_iff hg hf⟩
  | append_singleton γ x ih =>
    by_cases hx : ∃ j, Item.Viable g.augmented first g.seed γ j ∧ j.next? = some x
    · obtain ⟨j, hj, hnext⟩ := hx
      rcases ih with ⟨L, hL, hmem⟩ | hnone
      · have hsymbol : x ∈ L.filterMap Item.next? :=
          List.mem_filterMap.2 ⟨j, (hmem j).2 hj, hnext⟩
        have hnew : gotoItems g first L x ∈ collectionWithin g first (n + 1) :=
          List.mem_append_right _ (List.mem_flatMap.2 ⟨L, hL, List.mem_map.2 ⟨x, hsymbol, rfl⟩⟩)
        exact Or.inl ⟨_, hclosed hnew, mem_gotoItems_iff hg hf hmem x⟩
      · exact absurd hj (hnone j)
    · refine Or.inr fun i hi => hx ?_
      obtain ⟨j, hj, -⟩ := Item.viable_concat_iff.1 hi
      exact ⟨j, hj⟩

/-- **LR(1) can be checked** on the sets over all strings. -/
theorem isLR1_of_collection (hg : g.WellFormed) (he : g.EpsilonFree) (hf : first.Exact g) {n : Nat}
    (hclosed : collectionWithin g first (n + 1) ⊆ collectionWithin g first n)
    (h : ∀ L ∈ collectionWithin g first n, ∀ i ∈ L, ∀ j ∈ L, ¬ i.Clash j) : g.IsLR1 := by
  refine (isLR1_iff hg he hf).2 fun γ i j hi hj => ?_
  rcases exists_mem_collectionWithin hg hf hclosed γ with ⟨L, hL, hmem⟩ | hnone
  · exact h L hL i ((hmem i).2 hi) j ((hmem j).2 hj)
  · exact absurd hi (hnone i)

/-- Is the collection found in so many steps, and does nothing in it clash? -/
def lr1Within (g : Grammar) (n : Nat) : Bool :=
  (FirstSets.compute g).toOption.any fun first : FirstSets =>
    decide (g.collectionWithin first (n + 1) ⊆ g.collectionWithin first n) &&
      decide (∀ L ∈ g.collectionWithin first n, ∀ i ∈ L, ∀ j ∈ L, ¬ i.Clash j)

theorem isLR1_of_lr1Within (hg : g.WellFormed) (he : g.EpsilonFree) {n : Nat}
    (h : g.lr1Within n = true) : g.IsLR1 := by
  obtain ⟨first, hcompute, hf⟩ := FirstSets.exists_exact hg
  rw [lr1Within, hcompute] at h
  simp only [Except.toOption, Option.any_some, Bool.and_eq_true, decide_eq_true_eq] at h
  exact isLR1_of_collection hg he hf h.1 h.2

end Grammar

end LRTables
