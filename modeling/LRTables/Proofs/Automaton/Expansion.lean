import LRTables.Automaton.Expansion
import LRTables.Proofs.Item.Viable
import LRTables.Proofs.Outcome

/-!
# What an expansion holds

The expansion of the augmented grammar is a search for kernels.  A kernel is an item that
is found over some string and whose dot is not in front, so there are no more of them than
places behind symbols and possible look-aheads; the search comes to its end, and every
state of it leads, item by item, to the states of the advanced items.

* `Expansion.mem_newKernels_iff` and `nodup_newKernels` — the new kernels, each once.
* `Expansion.exists_closures` — the search comes to its end.
* `Automaton.Expanded` — what is known of the automaton before any states are merged.
* `Automaton.exists_expand` — every well-formed grammar has it.
-/

namespace LRTables

namespace Expansion

variable {g : Grammar} {first : FirstSets}

/-! ## New kernels -/

/-- Is the item one of a production of the augmented grammar? -/
abbrev Known (g : Grammar) (i : Item) : Prop := ∃ p ∈ g.augmented, i.IsOf p

theorem any_same_iff (hg : g.WellFormed) {known : List Item} {i : Item} (hi : Known g i)
    (hknown : ∀ k ∈ known, Known g k) : known.any i.same = true ↔ i ∈ known := by
  rw [List.any_eq_true]
  constructor
  · rintro ⟨k, hk, hsame⟩
    rw [Item.eq_of_same hg hi (hknown k hk) hsame]
    exact hk
  · intro h
    exact ⟨i, h, Item.same_refl i⟩

theorem mem_of_mem_newKernels {known items : List Item} {i : Item}
    (h : i ∈ newKernels known items) : i ∈ items := by
  induction items generalizing known with
  | nil => simp [newKernels] at h
  | cons j rest ih =>
    simp only [newKernels] at h
    split at h
    · exact List.mem_cons_of_mem _ (ih h)
    · rcases List.mem_cons.1 h with rfl | h
      · exact List.mem_cons_self ..
      · exact List.mem_cons_of_mem _ (ih h)

/-- What was known and the new kernels are what was known and the items. -/
theorem mem_newKernels_iff (hg : g.WellFormed) {known items : List Item}
    (hknown : ∀ k ∈ known, Known g k) (hitems : ∀ i ∈ items, Known g i) (i : Item) :
    i ∈ known ∨ i ∈ newKernels known items ↔ i ∈ known ∨ i ∈ items := by
  induction items generalizing known with
  | nil => simp [newKernels]
  | cons j rest ih =>
    have hj : Known g j := hitems j (by simp)
    have hrest : ∀ i ∈ rest, Known g i := fun i hi => hitems i (List.mem_cons_of_mem _ hi)
    simp only [newKernels]
    split
    · rename_i h
      have hmem := (any_same_iff hg hj hknown).1 h
      rw [ih hknown hrest, List.mem_cons]
      constructor
      · exact Or.imp_right Or.inr
      · rintro (hi | rfl | hi)
        · exact Or.inl hi
        · exact Or.inl hmem
        · exact Or.inr hi
    · have hcons : ∀ k ∈ j :: known, Known g k := by
        intro k hk
        rcases List.mem_cons.1 hk with rfl | hk
        · exact hj
        · exact hknown k hk
      have hmem := ih hcons hrest
      rw [List.mem_cons, or_assoc, or_assoc] at hmem
      rw [List.mem_cons, List.mem_cons, or_left_comm, hmem]
      exact or_left_comm

/-- No kernel is known twice. -/
theorem nodup_newKernels {known : List Item} (items : List Item) (h : known.Nodup) :
    ((newKernels known items).reverse ++ known).Nodup := by
  induction items generalizing known with
  | nil => simpa [newKernels] using h
  | cons j rest ih =>
    simp only [newKernels]
    split
    · exact ih h
    · rename_i hnew
      have hnot : j ∉ known :=
        fun hm => hnew (List.any_eq_true.2 ⟨j, hm, Item.same_refl j⟩)
      simpa using ih (List.nodup_cons.2 ⟨hnot, h⟩)

/-! ## The room for kernels -/

/-- Every item with its dot behind a symbol of one of the productions and with one of the
look-aheads. -/
def advanced (ps : List Production) (looks : List String) : List Item :=
  ps.flatMap fun p => (List.range p.rhs.length).flatMap fun d =>
    looks.map fun a => .ofProduction p (d + 1) a

theorem length_advanced (ps : List Production) (looks : List String) :
    (advanced ps looks).length = (ps.flatMap Production.rhs).length * looks.length := by
  have places : ∀ (p : Production) (n : Nat), ((List.range n).flatMap fun d =>
      looks.map fun a => Item.ofProduction p (d + 1) a).length = n * looks.length := by
    intro p n
    induction n with
    | zero => simp
    | succ n ih =>
      rw [List.range_succ, List.flatMap_append, List.length_append, ih, Nat.succ_mul]
      simp
  induction ps with
  | nil => simp [advanced]
  | cons p ps ih =>
    rw [advanced, List.flatMap_cons, List.length_append, places, ← advanced, ih, List.flatMap_cons,
      List.length_append, Nat.add_mul]

theorem mem_advanced {ps : List Production} {looks : List String} {i : Item}
    (hi : ∃ p ∈ ps, i.IsOf p) (hlook : i.look ∈ looks) (hpos : 0 < i.dot)
    (hle : i.dot ≤ i.rhs.length) : i ∈ advanced ps looks := by
  obtain ⟨p, hp, hlhs, hrhs⟩ := hi
  refine List.mem_flatMap.2 ⟨p, hp, List.mem_flatMap.2 ⟨i.dot - 1, ?_, ?_⟩⟩
  · rw [List.mem_range, ← hrhs]
    omega
  · refine List.mem_map.2 ⟨i.look, hlook, ?_⟩
    rw [Item.ofProduction, ← hlhs, ← hrhs, Nat.sub_add_cancel hpos]

/-! ## The search -/

/-- Is the item the first one, or an advanced one that is found over some string? -/
def Kernel (g : Grammar) (first : FirstSets) (k : Item) : Prop :=
  k = g.seed ∨ 0 < k.dot ∧ ∃ γ, Item.Viable g.augmented first g.seed γ k

/-- Is the list a closure: a kernel, and what it leads to? -/
def IsClosure (g : Grammar) (first : FirstSets) (items : List Item) : Prop :=
  ∃ k rest, items = k :: rest ∧ Kernel g first k ∧
    ∀ i, i ∈ items ↔ Item.Leads g.augmented first k i

theorem seed_dot_le (g : Grammar) : g.seed.dot ≤ g.seed.rhs.length := Nat.zero_le _

theorem Kernel.viable {k : Item} (h : Kernel g first k) :
    ∃ γ, Item.Viable g.augmented first g.seed γ k := by
  rcases h with rfl | ⟨-, h⟩
  · exact ⟨[], Item.Viable.start⟩
  · exact h

/-- A kernel is the start item, or one of the advanced items with its look-ahead. -/
theorem Kernel.mem_advanced {k : Item} (h : Kernel g first k) {ps : List Production}
    {looks : List String} (hof : ∃ p ∈ ps, k.IsOf p) (hlook : k.look ∈ looks) :
    k ∈ g.seed :: advanced ps looks := by
  rcases h with rfl | ⟨hpos, γ, hv⟩
  · exact List.mem_cons_self ..
  · exact List.mem_cons_of_mem _
      (Expansion.mem_advanced hof hlook hpos (hv.dot_le (seed_dot_le g)))

/-- **The kernels are bounded in number**, by the places behind symbols and the look-aheads. -/
theorem length_le_of_kernels (ps : List Production) (looks : List String) {ks : List Item}
    (hnodup : ks.Nodup) (hks : ∀ k ∈ ks, Kernel g first k)
    (hrange : ∀ k ∈ ks, (∃ p ∈ ps, k.IsOf p) ∧ k.look ∈ looks) :
    ks.length ≤ 1 + (ps.flatMap Production.rhs).length * looks.length := by
  have hsub : List.Subperm ks (g.seed :: advanced ps looks) :=
    List.subperm_of_subset hnodup fun k hk =>
      (hks k hk).mem_advanced (hrange k hk).1 (hrange k hk).2
  have hlen := hsub.length_le
  rw [List.length_cons, length_advanced] at hlen
  rw [Nat.add_comm]
  exact hlen

/-- What is found over a string has a closure. -/
theorem exists_closure_of_viable (hg : g.WellFormed) (hf : first.Exact g) {γ : List Symbol}
    {k : Item} (h : Item.Viable g.augmented first g.seed γ k) :
    ∃ rest, Item.closure g.augmented first k = .ok (k :: rest) ∧
      ∀ i, i ∈ k :: rest ↔ Item.Leads g.augmented first k i := by
  refine Item.exists_closure fun i hi n _ => ?_
  exact Item.exists_lookaheads hg hf (h.leads hi).isOf

theorem mem_successors_iff {items : List Item} {j : Item} :
    j ∈ successors items ↔ ∃ i ∈ items, (∃ x, i.next? = some x) ∧ i.advance = j := by
  simp only [successors, List.mem_map, List.mem_filter, Item.not_atEnd_iff, and_assoc]

/-- The items of a closure are found over the string of its kernel. -/
theorem IsClosure.viable {items : List Item} (h : IsClosure g first items) {i : Item}
    (hi : i ∈ items) : ∃ γ, Item.Viable g.augmented first g.seed γ i := by
  obtain ⟨k, rest, rfl, hk, hmem⟩ := h
  obtain ⟨γ, hv⟩ := hk.viable
  exact ⟨γ, hv.leads ((hmem i).1 hi)⟩

/-- Advancing the items of a closure gives kernels. -/
theorem IsClosure.successors {items : List Item} (h : IsClosure g first items) {j : Item}
    (hj : j ∈ successors items) : 0 < j.dot ∧ ∃ γ, Item.Viable g.augmented first g.seed γ j := by
  obtain ⟨i, hi, ⟨x, hx⟩, rfl⟩ := mem_successors_iff.1 hj
  obtain ⟨γ, hv⟩ := h.viable hi
  exact ⟨Nat.succ_pos _, _, Item.Viable.advance hv hx⟩

/-- The invariant of the search: the kernels are known once each, and what waits is a
closure. -/
def SearchInv (g : Grammar) (first : FirstSets) (known : List Item) (queue : List (List Item)) :
    Prop :=
  known.Nodup ∧ (∀ k ∈ known, Kernel g first k) ∧ ∀ items ∈ queue, IsClosure g first items

/-- The room that known kernels leave for more. -/
def room (g : Grammar) (first : FirstSets) (known : List Item) : Nat :=
  1 + (g.seed.rhs.length + places g.augmented) *
    (Item.possibleLooks g.augmented first g.seed).length - known.length

theorem length_le_of_known {known : List Item} (hnodup : known.Nodup)
    (hknown : ∀ k ∈ known, Kernel g first k) :
    known.length ≤ 1 + (g.seed.rhs.length + places g.augmented) *
      (Item.possibleLooks g.augmented first g.seed).length := by
  have hlen := length_le_of_kernels (g.seed.production :: g.augmented)
    (Item.possibleLooks g.augmented first g.seed) hnodup hknown fun k hk => by
      obtain ⟨γ, hv⟩ := (hknown k hk).viable
      exact hv.inRange
  rw [List.flatMap_cons, List.length_append] at hlen
  exact hlen

/-- What a step finds: the closures of the new kernels. -/
theorem exists_step (hg : g.WellFormed) (hf : first.Exact g) (known : List Item)
    {items : List Item} (hitems : IsClosure g first items) :
    ∃ found, step g.augmented first known items =
        .ok ((newKernels known (successors items)).reverse ++ known, found) ∧
      found.length = (newKernels known (successors items)).length ∧
      (∀ c ∈ found, IsClosure g first c) ∧
      ∀ k ∈ newKernels known (successors items), ∃ c ∈ found, c.head? = some k := by
  obtain ⟨found, hmap, hlen, hright, hleft⟩ := exists_mapM (f := Item.closure g.augmented first)
    (P := fun k c => c.head? = some k ∧ IsClosure g first c)
    (newKernels known (successors items)) (by
      intro k hk
      obtain ⟨hpos, γ, hv⟩ := hitems.successors (mem_of_mem_newKernels hk)
      obtain ⟨rest, hclosure, hmem⟩ := exists_closure_of_viable hg hf hv
      exact ⟨_, hclosure, rfl, k, rest, rfl, Or.inr ⟨hpos, γ, hv⟩, hmem⟩)
  refine ⟨found, ?_, hlen, fun c hc => ?_, fun k hk => ?_⟩
  · simp only [step, hmap]
  · obtain ⟨k, -, -, hclosure⟩ := hright c hc
    exact hclosure
  · obtain ⟨c, hc, hhead, -⟩ := hleft k hk
    exact ⟨c, hc, hhead⟩

/-- The kernels that are known after a step. -/
theorem known_step (hg : g.WellFormed) {known items : List Item}
    (hknown : ∀ k ∈ known, Kernel g first k) (hitems : IsClosure g first items) (k : Item) :
    k ∈ (newKernels known (successors items)).reverse ++ known ↔
      k ∈ known ∨ k ∈ successors items := by
  have hk : ∀ k ∈ known, Known g k := by
    intro k hk
    obtain ⟨γ, hv⟩ := (hknown k hk).viable
    exact hv.isOf
  have hs : ∀ j ∈ successors items, Known g j := by
    intro j hj
    obtain ⟨-, γ, hv⟩ := hitems.successors hj
    exact hv.isOf
  rw [List.mem_append, List.mem_reverse, or_comm]
  exact mem_newKernels_iff hg hk hs k

/-- A step keeps the invariant and uses up room for what it finds. -/
theorem exists_step_inv (hg : g.WellFormed) (hf : first.Exact g) {known items : List Item}
    {queue : List (List Item)} (h : SearchInv g first known (items :: queue)) :
    ∃ known' found, step g.augmented first known items = .ok (known', found) ∧
      SearchInv g first known' (queue ++ found) ∧
      found.length + room g first known' ≤ room g first known := by
  obtain ⟨hnodup, hknown, hqueue⟩ := h
  have hitems : IsClosure g first items := hqueue items (by simp)
  obtain ⟨found, hstep, hlen, hfound, -⟩ := exists_step hg hf known hitems
  have hknown' : ∀ k ∈ (newKernels known (successors items)).reverse ++ known,
      Kernel g first k := by
    intro k hk
    rcases (known_step hg hknown hitems k).1 hk with hk | hk
    · exact hknown k hk
    · exact Or.inr (hitems.successors hk)
  have hnodup' : ((newKernels known (successors items)).reverse ++ known).Nodup :=
    nodup_newKernels (successors items) hnodup
  refine ⟨_, found, hstep, ⟨hnodup', hknown', fun c hc => ?_⟩, ?_⟩
  · rcases List.mem_append.1 hc with hc | hc
    · exact hqueue c (List.mem_cons_of_mem _ hc)
    · exact hfound c hc
  · have hle := length_le_of_known hnodup' hknown'
    rw [List.length_append, List.length_reverse] at hle
    simp only [room, List.length_append, List.length_reverse]
    omega

/-- Where a successor of a taken closure was found: it is known from the start, or is the
kernel of a closure that is found. -/
theorem known_or_head_of_step (hg : g.WellFormed) (hf : first.Exact g) {known known' : List Item}
    {items : List Item} {found : List (List Item)} (hknown : ∀ k ∈ known, Kernel g first k)
    (hitems : IsClosure g first items)
    (h : step g.augmented first known items = .ok (known', found)) {j : Item}
    (hj : j ∈ successors items ∨ j ∈ known') : j ∈ known ∨ ∃ c ∈ found, c.head? = some j := by
  obtain ⟨found', hstep, -, -, hheads⟩ := exists_step hg hf known hitems
  rw [h] at hstep
  obtain ⟨rfl, rfl⟩ := Prod.mk.inj (Except.ok.inj hstep)
  have hmem : j ∈ (newKernels known (successors items)).reverse ++ known := by
    rcases hj with hj | hj
    · exact (known_step hg hknown hitems j).2 (Or.inr hj)
    · exact hj
  rcases List.mem_append.1 hmem with hnew | hold
  · exact Or.inr (hheads j (List.mem_reverse.1 hnew))
  · exact Or.inl hold

/-- What is known of the closures that a search finds. -/
structure Complete (g : Grammar) (first : FirstSets) (all : List (List Item)) : Prop where
  /-- The closure of the first item comes first. -/
  seed : ∃ rest, all[0]? = some (g.seed :: rest)
  /-- All of them are closures. -/
  closed : ∀ items ∈ all, IsClosure g first items
  /-- Each item that can advance has the closure of the advanced item among them. -/
  next : ∀ items ∈ all, ∀ j ∈ successors items, ∃ c ∈ all, c.head? = some j

/-- The closures that a step finds. -/
theorem isClosure_of_step (hg : g.WellFormed) (hf : first.Exact g) {known known' items : List Item}
    {found : List (List Item)} (hitems : IsClosure g first items)
    (h : step g.augmented first known items = .ok (known', found)) :
    ∀ c ∈ found, IsClosure g first c := by
  obtain ⟨found', hstep, -, hclosed, -⟩ := exists_step hg hf known hitems
  rw [h] at hstep
  obtain ⟨-, rfl⟩ := Prod.mk.inj (Except.ok.inj hstep)
  exact hclosed

theorem searchInv_of_step (hg : g.WellFormed) (hf : first.Exact g) {known known' items : List Item}
    {queue found : List (List Item)} (hinv : SearchInv g first known (items :: queue))
    (h : step g.augmented first known items = .ok (known', found)) :
    SearchInv g first known' (queue ++ found) := by
  obtain ⟨known'', found', hstep, hinv', -⟩ := exists_step_inv hg hf hinv
  rw [h] at hstep
  obtain ⟨rfl, rfl⟩ := Prod.mk.inj (Except.ok.inj hstep)
  exact hinv'

/-- **The closures are what the whole search takes**, which begins with its invariant. -/
theorem exists_closures_traverses (hg : g.WellFormed) (hf : first.Exact g) :
    ∃ rest all, closures g.augmented first g.seed = .ok all ∧
      Item.closure g.augmented first g.seed = .ok (g.seed :: rest) ∧
      SearchInv g first [g.seed] [g.seed :: rest] ∧
      Worklist.Traverses (step g.augmented first) [g.seed] [g.seed :: rest] all := by
  obtain ⟨rest, hclosure, hmem⟩ := exists_closure_of_viable hg hf Item.Viable.start
  have hinv : SearchInv g first [g.seed] [g.seed :: rest] := by
    refine ⟨by simp, fun k hk => Or.inl (List.mem_singleton.1 hk), fun c hc => ?_⟩
    rw [List.mem_singleton.1 hc]
    exact ⟨g.seed, rest, rfl, Or.inl rfl, hmem⟩
  obtain ⟨all, hall, hlen⟩ := Worklist.exists_traverses (SearchInv g first)
    (room g first) (fun known items queue h => exists_step_inv hg hf h) hinv
  refine ⟨rest, all, ?_, hclosure, hinv, hall⟩
  simp only [closures, hclosure]
  refine hall.run ?_
  simp only [room, List.length_singleton] at hlen
  omega

/-- **The search for kernels comes to its end**, and nothing is missing from what it finds. -/
theorem exists_closures (hg : g.WellFormed) (hf : first.Exact g) :
    ∃ all, closures g.augmented first g.seed = .ok all ∧ Complete g first all := by
  obtain ⟨rest, all, hrun, -, hinv, hall⟩ := exists_closures_traverses hg hf
  have hclosed : ∀ items ∈ all, IsClosure g first items := by
    refine hall.forall_mem (fun known items known' found hitems hstep => ?_) hinv.2.2
    exact isClosure_of_step hg hf hitems hstep
  obtain ⟨others, rfl⟩ : ∃ others, all = (g.seed :: rest) :: others := by
    obtain ⟨others, hothers⟩ := hall.queue_prefix
    exact ⟨others, hothers.symm⟩
  refine ⟨_, hrun, ⟨⟨rest, rfl⟩, hclosed, fun items hitems j hj => ?_⟩⟩
  have hcovered := hall.covered (SearchInv g first)
    (fun items j => j ∈ successors items) (fun c j => c.head? = some j)
    (fun known j => j ∈ known)
    (fun known items queue known' found h hstep => searchInv_of_step hg hf h hstep)
    (fun known items queue known' found h hstep j hj =>
      known_or_head_of_step hg hf h.2.1 (h.2.2 items (by simp)) hstep hj) hinv
  rcases hcovered items hitems j hj with hknown | hfound
  · rw [List.mem_singleton.1 hknown]
    exact ⟨_, List.mem_cons_self .., rfl⟩
  · exact hfound

/-- The index of a kernel is that of a closure that it is the kernel of. -/
theorem getElem?_indexOf (hg : g.WellFormed) {all : List (List Item)}
    (hclosed : ∀ items ∈ all, IsClosure g first items) {j : Item} (hj : Known g j)
    (h : ∃ c ∈ all, c.head? = some j) : ∃ rest, all[indexOf all j]? = some (j :: rest) := by
  obtain ⟨c, hc, hhead⟩ := h
  have hlt : indexOf all j < all.length :=
    List.findIdx_lt_length_of_exists ⟨c, hc, by simp [hhead, Item.same_refl]⟩
  have hfound : (all[indexOf all j].head?.any j.same) = true := List.findIdx_getElem (w := hlt)
  have hmem : all[indexOf all j] ∈ all := List.getElem_mem hlt
  obtain ⟨k, rest, hk, hkernel, -⟩ := hclosed _ hmem
  obtain ⟨γ, hv⟩ := hkernel.viable
  rw [hk, List.head?_cons, Option.any_some] at hfound
  obtain rfl := Item.eq_of_same hg hj hv.isOf hfound
  exact ⟨rest, by rw [List.getElem?_eq_getElem hlt, hk]⟩

/-- The index of an advanced item is that of its closure. -/
theorem getElem?_indexOf_advance (hg : g.WellFormed) {all : List (List Item)}
    (h : Complete g first all) {items : List Item} (hitems : items ∈ all) {i : Item}
    (hi : i ∈ items) {x : Symbol} (hx : i.next? = some x) :
    ∃ rest, all[indexOf all i.advance]? = some (i.advance :: rest) := by
  obtain ⟨γ, hv⟩ := (h.closed items hitems).viable hi
  have hsucc : i.advance ∈ successors items := mem_successors_iff.2 ⟨i, hi, ⟨x, hx⟩, rfl⟩
  exact getElem?_indexOf hg h.closed (Item.Viable.advance hv hx).isOf (h.next items hitems _ hsucc)

end Expansion

namespace Automaton

variable {g : Grammar} {first : FirstSets}

/-- **What is known of the automaton before any states are merged.**  Every state is a
kernel and what it leads to, and its transitions lead, item by item, to the states of the
advanced items. -/
structure Expanded (g : Grammar) (first : FirstSets) (a : Automaton) : Prop where
  /-- State zero is the first item and what it leads to. -/
  start : ∃ s, a.get? 0 = some s ∧ s.rules.head? = some g.seed
  /-- Every state is a kernel that is found over some string, and what it leads to. -/
  leads : ∀ k s, a.get? k = some s → ∃ κ, s.rules.head? = some κ ∧
    (∃ γ, Item.Viable g.augmented first g.seed γ κ) ∧
    ∀ i, i ∈ s.rules ↔ Item.Leads g.augmented first κ i
  /-- The first item of a state is that of the start production, or has its dot behind a symbol. -/
  kernel : ∀ k s, a.get? k = some s → ∀ κ, s.rules.head? = some κ → κ = g.seed ∨ 0 < κ.dot
  /-- There is a transition for each item that can advance. -/
  advances : ∀ k s, a.get? k = some s → ∀ i ∈ s.rules, ∀ x, i.next? = some x →
    ∃ t ∈ s.transitions, t.symbol = x ∧
      ∃ u, a.get? t.target = some u ∧ u.rules.head? = some i.advance
  /-- There is an item for each transition. -/
  justified : ∀ k s, a.get? k = some s → ∀ t ∈ s.transitions, ∃ i ∈ s.rules,
    i.next? = some t.symbol ∧ ∃ u, a.get? t.target = some u ∧ u.rules.head? = some i.advance

theorem map_fst_numbered (states : List State) :
    (states.zipIdx.map fun p => (p.2, p.1)).map Prod.fst = List.range states.length := by
  rw [List.map_map, List.range_eq_range']
  exact List.zipIdx_map_snd 0 states

theorem nodup_numbered (states : List State) :
    ((states.zipIdx.map fun p => (p.2, p.1)).map Prod.fst).Nodup := by
  rw [map_fst_numbered]
  exact List.nodup_range

/-- States are numbered from zero on. -/
theorem keys_ofStates (states : List State) :
    (ofStates states).keys = List.range states.length := by
  rw [ofStates, OrderedMap.keys_ofList_of_nodup (nodup_numbered states), map_fst_numbered]

theorem size_ofStates (states : List State) : (ofStates states).size = states.length := by
  rw [OrderedMap.size_eq_length_keys, keys_ofStates, List.length_range]

theorem get?_ofStates (states : List State) (k : Nat) : (ofStates states).get? k = states[k]? := by
  refine Option.ext fun s => ?_
  rw [ofStates, OrderedMap.get?_ofList_eq_some_iff (nodup_numbered states)]
  constructor
  · intro h
    obtain ⟨⟨s', k'⟩, hm, heq⟩ := List.mem_map.1 h
    obtain ⟨rfl, rfl⟩ := Prod.mk.inj heq
    exact List.mem_zipIdx_iff_getElem?.1 hm
  · intro h
    exact List.mem_map.2 ⟨(s, k), List.mem_zipIdx_iff_getElem?.2 h, rfl⟩

/-- The states of closures have the numbers of the closures. -/
theorem get?_states_iff {all : List (List Item)} {k : Nat} {s : State} :
    (ofStates (all.map (Expansion.state all))).get? k = some s ↔
      ∃ items, all[k]? = some items ∧ Expansion.state all items = s := by
  rw [get?_ofStates, List.getElem?_map, Option.map_eq_some_iff]

/-- Where the transition of an item leads. -/
theorem exists_target (hg : g.WellFormed) {all : List (List Item)}
    (h : Expansion.Complete g first all) {items : List Item} (hitems : items ∈ all) {i : Item}
    (hi : i ∈ items) {x : Symbol} (hx : i.next? = some x) :
    ∃ u, (ofStates (all.map (Expansion.state all))).get? (Expansion.indexOf all i.advance) =
      some u ∧ u.rules.head? = some i.advance := by
  obtain ⟨rest, hrest⟩ := Expansion.getElem?_indexOf_advance hg h hitems hi hx
  exact ⟨_, get?_states_iff.2 ⟨_, hrest, rfl⟩, rfl⟩

theorem expanded_ofStates (hg : g.WellFormed) {all : List (List Item)}
    (h : Expansion.Complete g first all) :
    (ofStates (all.map (Expansion.state all))).Expanded g first := by
  refine ⟨?_, ?_, ?_, ?_, ?_⟩
  · obtain ⟨rest, hseed⟩ := h.seed
    exact ⟨_, get?_states_iff.2 ⟨_, hseed, rfl⟩, rfl⟩
  · intro k s hs
    obtain ⟨items, hitems, rfl⟩ := get?_states_iff.1 hs
    obtain ⟨κ, rest, rfl, hκ, hmem⟩ := h.closed items (List.mem_of_getElem? hitems)
    exact ⟨κ, rfl, hκ.viable, hmem⟩
  · intro k s hs κ hhead
    obtain ⟨items, hitems, rfl⟩ := get?_states_iff.1 hs
    obtain ⟨κ', rest, rfl, hκ, -⟩ := h.closed items (List.mem_of_getElem? hitems)
    obtain rfl : κ' = κ := Option.some.inj hhead
    exact hκ.imp_right And.left
  · intro k s hs i hi x hx
    obtain ⟨items, hitems, rfl⟩ := get?_states_iff.1 hs
    refine ⟨⟨x, Expansion.indexOf all i.advance⟩, ?_, rfl,
      exists_target hg h (List.mem_of_getElem? hitems) hi hx⟩
    exact List.mem_filterMap.2 ⟨i, hi, by simp [hx]⟩
  · intro k s hs t ht
    obtain ⟨items, hitems, rfl⟩ := get?_states_iff.1 hs
    obtain ⟨i, hi, hit⟩ := List.mem_filterMap.1 ht
    obtain ⟨x, hx, rfl⟩ := Option.map_eq_some_iff.1 hit
    exact ⟨i, hi, hx, exists_target hg h (List.mem_of_getElem? hitems) hi hx⟩

/-- The states of the expansion of a grammar are those of its closures. -/
theorem expandedStates_of_closures (hg : g.WellFormed) (hcompute : FirstSets.compute g = .ok first)
    {all : List (List Item)} (hall : Expansion.closures g.augmented first g.seed = .ok all) :
    expandedStates g = .ok (all.map (Expansion.state all)) := by
  simp [expandedStates, hcompute, Grammar.augment_of_ne_nil hg.ne_nil,
    Grammar.startItem_augmented, Expansion.states, hall, bind, Except.bind, pure, Except.pure]

theorem expand_of_closures (hg : g.WellFormed) (hcompute : FirstSets.compute g = .ok first)
    {all : List (List Item)} (hall : Expansion.closures g.augmented first g.seed = .ok all) :
    expand g = .ok (ofStates (all.map (Expansion.state all))) := by
  rw [expand, expandedStates_of_closures hg hcompute hall]
  rfl

/-- **Every well-formed grammar has its expansion.** -/
theorem exists_expand (hg : g.WellFormed) :
    ∃ first a, first.Exact g ∧ expand g = .ok a ∧ a.Expanded g first := by
  obtain ⟨first, hcompute, hf⟩ := FirstSets.exists_exact hg
  obtain ⟨all, hall, hcomplete⟩ := Expansion.exists_closures hg hf
  exact ⟨first, _, hf, expand_of_closures hg hcompute hall, expanded_ofStates hg hcomplete⟩

end Automaton

end LRTables
