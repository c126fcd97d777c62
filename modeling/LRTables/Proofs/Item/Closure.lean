import LRTables.Item.Closure
import LRTables.Proofs.Entries
import LRTables.Proofs.Traversal
import Mathlib.Data.List.Count
import Mathlib.Data.List.Perm.Subperm
import Mathlib.Logic.Relation

/-!
# What a closure holds

An item with a non-terminal behind its dot brings in the items that begin the productions
of that non-terminal with its look-aheads.  The closure of an item is the search along
this relation: each pair of a non-terminal and a look-ahead is begun once, a look-ahead
is one of those that are possible from the start, and so the search comes to its end.

* `Item.Brings` — what an item brings in.
* `Item.lookaheads_cases` — what the look-aheads of an item are.
* `Item.Lacks` — the one thing that can stop the search: a FIRST set that is not there.
* `Item.lookaheads_count_le` — look-aheads stay among those that are possible.
* `Item.traverses_or_lacks`, `Item.exists_traverses` — the search comes to its end, after how many
  items at most.
* `Item.mem_iff_leads` — it takes exactly what the item leads to.
* `Item.exists_closure` — so that is what the closure holds.
-/

namespace LRTables.Item

variable {g : Grammar} {first : FirstSets} {seed : Item}

/-- What an item brings in: the beginnings of the productions of the non-terminal behind
its dot, with each of its look-aheads. -/
inductive Brings (g : Grammar) (first : FirstSets) (i : Item) : Item → Prop where
  /-- A production is begun with a look-ahead. -/
  | begin {n : String} {looks : List String} {p : Production} {a : String}
      (hnext : i.next? = some (.nonterminal n)) (hlooks : i.lookaheads first = .ok looks)
      (hp : p ∈ g) (hlhs : p.lhs = n) (ha : a ∈ looks) : Brings g first i (.ofProduction p 0 a)

/-- The items that an item leads to by bringing in. -/
abbrev Leads (g : Grammar) (first : FirstSets) : Item → Item → Prop :=
  Relation.ReflTransGen (Brings g first)

/-! ## Look-aheads -/

/-- The production that an item is one of. -/
def production (i : Item) : Production := ⟨i.lhs, i.rhs, none⟩

/-- Has the item the sides of the production? -/
def IsOf (i : Item) (p : Production) : Prop := i.lhs = p.lhs ∧ i.rhs = p.rhs

/-- What is found from a seed has the sides of the seed or of a production, and one of the
look-aheads that are possible. -/
def InRange (g : Grammar) (first : FirstSets) (seed i : Item) : Prop :=
  (∃ p ∈ seed.production :: g, i.IsOf p) ∧ i.look ∈ possibleLooks g first seed

theorem inRange_refl : InRange g first seed seed :=
  ⟨⟨seed.production, List.mem_cons_self .., rfl, rfl⟩, by simp [possibleLooks]⟩

/-- What the look-aheads are is decided by the symbol behind the non-terminal. -/
theorem lookaheads_cases {i : Item} {looks : List String} (h : i.lookaheads first = .ok looks) :
    (i.rhs[i.dot + 1]? = none ∧ looks = [i.look]) ∨
      (∃ c, i.rhs[i.dot + 1]? = some (.terminal c) ∧ looks = [c]) ∨
      ∃ b, i.rhs[i.dot + 1]? = some (.nonterminal b) ∧ first.get? b = some looks := by
  unfold lookaheads at h
  split at h
  · rename_i hnone
    exact Or.inl ⟨hnone, (Except.ok.inj h).symm⟩
  · rename_i c hc
    exact Or.inr (Or.inl ⟨c, hc, (Except.ok.inj h).symm⟩)
  · rename_i b hb
    split at h
    · exact absurd h (by simp)
    · rename_i names hnames
      obtain rfl := Except.ok.inj h
      exact Or.inr (Or.inr ⟨b, hb, hnames⟩)

/-- Is the non-terminal behind the dot followed by the given one, and has that no set? -/
def Lacks (first : FirstSets) (i : Item) (b : String) : Prop :=
  (∃ n, i.next? = some (.nonterminal n)) ∧ i.rhs[i.dot + 1]? = some (.nonterminal b) ∧
    first.get? b = none

/-- Look-aheads that are there lack no set. -/
theorem not_lacks_of_lookaheads {i : Item} {looks : List String}
    (h : i.lookaheads first = .ok looks) (b : String) : ¬ i.Lacks first b := by
  rintro ⟨-, hb, hnone⟩
  simp [lookaheads, hb, hnone] at h

/-- Every name is at most as often a look-ahead of an item as it is possible from the start. -/
theorem lookaheads_count_le {i : Item} (hi : InRange g first seed i) {looks : List String}
    (h : i.lookaheads first = .ok looks) (a : String) :
    looks.count a ≤ (possibleLooks g first seed).count a := by
  -- a single possible name is fine
  have single : ∀ c ∈ possibleLooks g first seed,
      List.count a [c] ≤ (possibleLooks g first seed).count a := by
    intro c hc
    by_cases hca : c = a
    · subst hca
      simpa using List.count_pos_iff.2 hc
    · simp [hca]
  rcases lookaheads_cases h with ⟨-, rfl⟩ | ⟨c, hc, rfl⟩ | ⟨b, -, hnames⟩
  · exact single i.look hi.2
  · refine single c ?_
    have hmem : .terminal c ∈ i.rhs := List.mem_of_getElem? hc
    have hname : c ∈ terminalNames i.rhs :=
      List.mem_map.2 ⟨.terminal c, List.mem_filter.2 ⟨hmem, rfl⟩, rfl⟩
    simp only [possibleLooks, List.mem_append, List.mem_cons]
    obtain ⟨p, hp, -, hr⟩ := hi.1
    rw [hr] at hname
    rcases List.mem_cons.1 hp with rfl | hp
    · exact Or.inl (Or.inl (Or.inr hname))
    · exact Or.inl (Or.inr (List.mem_flatMap.2 ⟨p, hp, hname⟩))
  · have hvalues : looks ∈ first.values := (first.mem_values_iff looks).2 ⟨b, hnames⟩
    have hsub : List.Sublist looks (possibleLooks g first seed) :=
      (List.sublist_flatten_of_mem hvalues).trans (List.sublist_append_right _ _)
    exact hsub.count_le a

theorem Brings.inRange {i j : Item} (hi : InRange g first seed i) (h : Brings g first i j) :
    InRange g first seed j := by
  obtain ⟨hnext, hlooks, hp, hlhs, ha⟩ := h
  refine ⟨⟨_, List.mem_cons_of_mem _ hp, rfl, rfl⟩, ?_⟩
  have hle := lookaheads_count_le hi hlooks
  exact List.count_pos_iff.1 (Nat.lt_of_lt_of_le (List.count_pos_iff.2 ha) (hle _))

theorem Leads.inRange {i : Item} (h : Leads g first seed i) : InRange g first seed i := by
  induction h with
  | refl => exact inRange_refl
  | tail _ hstep ih => exact hstep.inRange ih

/-! ## The room of the search -/

/-- The number of items that the marks stand for. -/
def begun (marks : Marks) : Grammar → Nat
  | [] => 0
  | p :: g => (marks.filter fun m => m.1 == p.lhs).length + begun marks g

/-- New marks for a non-terminal stand for the items that begin its productions. -/
theorem begun_append (name : String) (new : List String) (marks : Marks) (g : Grammar) :
    begun (new.map (fun a => (name, a)) ++ marks) g =
      (beginning g name new).length + begun marks g := by
  induction g with
  | nil => simp [begun, beginning]
  | cons p g ih =>
    have hnew : ((new.map fun a => (name, a)).filter fun m => m.1 == p.lhs).length =
        if p.lhs = name then new.length else 0 := by
      by_cases h : p.lhs = name
      · subst h
        simp [List.filter_map, Function.comp_def]
      · have h' : ¬ name = p.lhs := fun e => h e.symm
        simp [List.filter_map, Function.comp_def, h, h']
    have hbegin : (beginning (p :: g) name new).length =
        (if p.lhs = name then new.length else 0) + (beginning g name new).length := by
      by_cases h : p.lhs = name
      · simp [beginning, h]
      · simp [beginning, h]
    rw [begun, begun, List.filter_append, List.length_append, hnew, ih, hbegin]
    omega

theorem count_map_snd_filter (marks : Marks) (n a : String) :
    ((marks.filter fun m => m.1 == n).map Prod.snd).count a = marks.count (n, a) := by
  induction marks with
  | nil => rfl
  | cons m marks ih =>
    obtain ⟨k, b⟩ := m
    by_cases hk : k = n
    · subst hk
      by_cases hb : b = a
      · subst hb
        simp [ih]
      · simp [ih, hb]
    · simp [ih, hk]

/-- Marks with possible look-aheads stand for at most so many items. -/
theorem begun_le {marks : Marks} {looks : List String}
    (h : ∀ n a, marks.count (n, a) ≤ looks.count a) (g : Grammar) :
    begun marks g ≤ g.length * looks.length := by
  induction g with
  | nil => simp [begun]
  | cons p g ih =>
    have hsub : List.Subperm ((marks.filter fun m => m.1 == p.lhs).map Prod.snd) looks := by
      refine List.subperm_ext_iff.2 fun a _ => ?_
      rw [count_map_snd_filter]
      exact h p.lhs a
    have hlen := hsub.length_le
    rw [List.length_map] at hlen
    rw [begun, List.length_cons, Nat.succ_mul]
    omega

/-! ## The search -/

theorem expand_of_nonterminal (g : Grammar) {i : Item} {n : String} {looks : List String}
    (marks : Marks) (hnext : i.next? = some (.nonterminal n))
    (hlooks : i.lookaheads first = .ok looks) :
    expand g first marks i =
      .ok (((looks.filter fun a => (n, a) ∉ marks).map fun a => (n, a)) ++ marks,
        beginning g n (looks.filter fun a => (n, a) ∉ marks)) := by
  simp only [expand, hnext, hlooks]

/-- A step is stopped exactly by a set that is not there. -/
theorem expand_eq_error_iff (g : Grammar) (first : FirstSets) (marks : Marks) (i : Item)
    (e : Fault) :
    expand g first marks i = .error e ↔ ∃ b, e = .undefinedNonterminal b ∧ i.Lacks first b := by
  constructor
  · intro h
    unfold expand at h
    split at h
    · rename_i n hn
      split at h
      · rename_i e' hlooks
        obtain rfl := Except.error.inj h
        unfold lookaheads at hlooks
        split at hlooks
        · exact absurd hlooks (by simp)
        · exact absurd hlooks (by simp)
        · rename_i b hb
          split at hlooks
          · rename_i hnone
            exact ⟨b, (Except.error.inj hlooks).symm, ⟨n, hn⟩, hb, hnone⟩
          · exact absurd hlooks (by simp)
      · exact absurd h (by simp)
    · exact absurd h (by simp)
  · rintro ⟨b, rfl, ⟨n, hn⟩, hb, hnone⟩
    simp only [expand, hn, lookaheads, hb, hnone]

theorem mem_beginning {n : String} {looks : List String} {j : Item} :
    j ∈ beginning g n looks ↔ ∃ p ∈ g, p.lhs = n ∧ ∃ a ∈ looks, .ofProduction p 0 a = j := by
  simp [beginning, List.mem_flatMap, and_assoc]

/-- Whatever a step finds is brought in by the item that was taken. -/
theorem brings_of_expand {i : Item} {marks marks' : Marks} {found : List Item}
    (h : expand g first marks i = .ok (marks', found)) : ∀ j ∈ found, Brings g first i j := by
  unfold expand at h
  split at h
  · rename_i n hn
    split at h
    · exact absurd h (by simp)
    · rename_i looks hlooks
      obtain ⟨-, rfl⟩ := Prod.mk.inj (Except.ok.inj h)
      intro j hj
      obtain ⟨p, hp, hlhs, a, ha, rfl⟩ := mem_beginning.1 hj
      exact Brings.begin hn hlooks hp hlhs (List.mem_filter.1 ha).1
  · obtain ⟨-, rfl⟩ := Prod.mk.inj (Except.ok.inj h)
    simp

/-- A mark counts for the items that begin the productions of its non-terminal. -/
def Marked (g : Grammar) (marks : Marks) (j : Item) : Prop :=
  (j.lhs, j.look) ∈ marks ∧ ∃ p ∈ g, j = .ofProduction p 0 j.look

/-- What an item brings in is marked before it is taken, or found when it is, and so is
what is marked afterwards. -/
theorem marked_or_mem_of_expand {i j : Item} {marks marks' : Marks} {found : List Item}
    (h : expand g first marks i = .ok (marks', found))
    (hj : Brings g first i j ∨ Marked g marks' j) : Marked g marks j ∨ j ∈ found := by
  rcases hj with hj | ⟨hm, p, hp, hjp⟩
  · obtain @⟨n, looks, p, a, hnext, hlooks, hp, hlhs, ha⟩ := hj
    rw [expand_of_nonterminal g marks hnext hlooks] at h
    obtain ⟨-, rfl⟩ := Prod.mk.inj (Except.ok.inj h)
    by_cases hm : (n, a) ∈ marks
    · exact Or.inl ⟨by simpa [ofProduction, hlhs] using hm, p, hp, rfl⟩
    · have hfilter : a ∈ looks.filter fun a => (n, a) ∉ marks :=
        List.mem_filter.2 ⟨ha, by simpa using hm⟩
      exact Or.inr (mem_beginning.2 ⟨p, hp, hlhs, a, hfilter, rfl⟩)
  · unfold expand at h
    split at h
    · rename_i n hn
      split at h
      · exact absurd h (by simp)
      · rename_i looks hlooks
        obtain ⟨rfl, rfl⟩ := Prod.mk.inj (Except.ok.inj h)
        rcases List.mem_append.1 hm with hm | hm
        · obtain ⟨a, ha, hna⟩ := List.mem_map.1 hm
          obtain ⟨hlhs, rfl⟩ := Prod.mk.inj hna
          refine Or.inr (mem_beginning.2 ⟨p, hp, ?_, j.look, ha, hjp.symm⟩)
          rw [hlhs, hjp]
          rfl
        · exact Or.inl ⟨hm, p, hp, hjp⟩
    · obtain ⟨rfl, -⟩ := Prod.mk.inj (Except.ok.inj h)
      exact Or.inl ⟨hm, p, hp, hjp⟩

/-- New marks for a non-terminal are made as often as their look-aheads are possible. -/
theorem count_marks_le {marks : Marks} {looks possible : List String} (n : String)
    (hlooks : ∀ a, looks.count a ≤ possible.count a)
    (hmarks : ∀ m a, marks.count (m, a) ≤ possible.count a) (m a : String) :
    (((looks.filter fun a => (n, a) ∉ marks).map fun a => (n, a)) ++ marks).count (m, a) ≤
      possible.count a := by
  rw [List.count_append]
  by_cases hm : (m, a) ∈ (looks.filter fun a => (n, a) ∉ marks).map fun a => (n, a)
  · -- a new mark is no old one
    obtain ⟨b, hb, hmb⟩ := List.mem_map.1 hm
    obtain ⟨rfl, rfl⟩ := Prod.mk.inj hmb
    rw [List.mem_filter, decide_eq_true_eq] at hb
    have hinj : Function.Injective fun a : String => (n, a) := fun x y h => (Prod.mk.inj h).2
    have hcount := List.count_map_of_injective (looks.filter fun a => (n, a) ∉ marks) _ hinj b
    rw [List.count_eq_zero.2 hb.2, hcount, Nat.add_zero]
    exact Nat.le_trans (List.filter_sublist.count_le b) (hlooks b)
  · rw [List.count_eq_zero.2 hm, Nat.zero_add]
    exact hmarks m a

/-- The invariant of the search: what waits is led to, and no mark is made more often
than its look-ahead is possible. -/
def SearchInv (g : Grammar) (first : FirstSets) (seed : Item) (possible : List String)
    (marks : Marks) (queue : List Item) : Prop :=
  (∀ i ∈ queue, Leads g first seed i) ∧ ∀ n a, marks.count (n, a) ≤ possible.count a

/-- A step that goes through keeps the invariant and uses up room for what it finds. -/
theorem searchInv_of_expand {possible : List String}
    (hpossible : ∀ i, Leads g first seed i → ∀ looks, i.lookaheads first = .ok looks →
      ∀ a, looks.count a ≤ possible.count a)
    {marks marks' : Marks} {i : Item} {queue found : List Item}
    (h : SearchInv g first seed possible marks (i :: queue))
    (here : expand g first marks i = .ok (marks', found)) :
    SearchInv g first seed possible marks' (queue ++ found) ∧
      found.length + (g.length * possible.length - begun marks' g) ≤
        g.length * possible.length - begun marks g := by
  obtain ⟨hqueue, hcount⟩ := h
  have hi : Leads g first seed i := hqueue i (by simp)
  have hfound : ∀ j ∈ queue ++ found, Leads g first seed j := by
    intro j hj
    rcases List.mem_append.1 hj with hj | hj
    · exact hqueue j (List.mem_cons_of_mem _ hj)
    · exact hi.tail (brings_of_expand here j hj)
  unfold expand at here
  split at here
  · rename_i n hn
    split at here
    · exact absurd here (by simp)
    · rename_i looks hlooks
      obtain ⟨rfl, rfl⟩ := Prod.mk.inj (Except.ok.inj here)
      have hcount' := count_marks_le n (hpossible i hi looks hlooks) hcount
      refine ⟨⟨hfound, hcount'⟩, ?_⟩
      have hle := begun_le hcount' g
      rw [begun_append] at hle ⊢
      omega
  · obtain ⟨rfl, rfl⟩ := Prod.mk.inj (Except.ok.inj here)
    exact ⟨⟨hfound, hcount⟩, by simp⟩

/-- **The search takes everything or lacks a set.**  It takes at most one item for each production
and each of the look-aheads that are possible, and the item that it begins with. -/
theorem traverses_or_lacks {possible : List String}
    (hpossible : ∀ i, Leads g first seed i → ∀ looks, i.lookaheads first = .ok looks →
      ∀ a, looks.count a ≤ possible.count a) :
    (∃ items, Worklist.Traverses (expand g first) [] [seed] items ∧
      items.length ≤ 1 + g.length * possible.length) ∨
    ∃ i b, Leads g first seed i ∧ i.Lacks first b ∧
      Worklist.run (expand g first) (1 + g.length * possible.length) [] [seed] =
        .error (.undefinedNonterminal b) := by
  have hinv : SearchInv g first seed possible [] [seed] :=
    ⟨fun i hi => by rw [List.mem_singleton.1 hi], by simp⟩
  have hroom : [seed].length + (g.length * possible.length - begun [] g) ≤
      1 + g.length * possible.length := Nat.add_le_add_left (Nat.sub_le _ _) 1
  rcases Worklist.traverses_or_error (SearchInv g first seed possible)
      (fun marks => g.length * possible.length - begun marks g)
      (fun marks i queue marks' found h here => searchInv_of_expand hpossible h here) hinv hroom with
    ⟨items, hitems, hlen⟩ | ⟨marks, i, rest, e, hqueue, herror, hrun⟩
  · refine Or.inl ⟨items, hitems, ?_⟩
    rw [List.length_singleton] at hlen
    omega
  · obtain ⟨b, rfl, hlacks⟩ := (expand_eq_error_iff g first marks i e).1 herror
    exact Or.inr ⟨i, b, hqueue.1 i (List.mem_cons_self ..), hlacks, hrun⟩

/-- **A closure is what the whole search takes**, or lacks a set. -/
theorem closure_cases (g : Grammar) (first : FirstSets) (seed : Item) :
    (∃ items, closure g first seed = .ok items ∧
      Worklist.Traverses (expand g first) [] [seed] items) ∨
    ∃ i b, Leads g first seed i ∧ i.Lacks first b ∧
      closure g first seed = .error (.undefinedNonterminal b) := by
  have hpossible : ∀ i, Leads g first seed i → ∀ looks, i.lookaheads first = .ok looks →
      ∀ a, looks.count a ≤ (possibleLooks g first seed).count a :=
    fun i hi looks hlooks => lookaheads_count_le hi.inRange hlooks
  rcases traverses_or_lacks hpossible with
    ⟨items, hitems, hlen⟩ | hlacks
  · exact Or.inl ⟨items, hitems.run hlen, hitems⟩
  · exact Or.inr hlacks

/-- **The search takes exactly what its first item leads to.** -/
theorem mem_iff_leads {items : List Item}
    (h : Worklist.Traverses (expand g first) [] [seed] items) (i : Item) :
    i ∈ items ↔ Leads g first seed i := by
  constructor
  · refine h.forall_mem (P := Leads g first seed) ?_ ?_ i
    · intro marks j marks' found hj hexpand k hk
      exact hj.tail (brings_of_expand hexpand k hk)
    · intro j hj
      rw [List.mem_singleton.1 hj]
  · intro hi
    induction hi with
    | refl => exact h.queue_prefix.subset (List.mem_cons_self ..)
    | @tail j k _ hjk ih =>
      have hcovered := h.covered (fun _ _ => True) (Brings g first) (fun c j => c = j)
        (Marked g) (fun _ _ _ _ _ _ _ => trivial)
        (fun marks i _ marks' found _ hexpand k hk =>
          (marked_or_mem_of_expand hexpand hk).imp_right fun hm => ⟨k, hm, rfl⟩) trivial
      rcases hcovered j ih k hjk with hm | ⟨c, hc, rfl⟩
      · exact absurd hm.1 (by simp)
      · exact hc

section Ready

variable {possible : List String}
  (hready : ∀ i, Leads g first seed i → ∀ n, i.next? = some (.nonterminal n) →
    ∃ looks, i.lookaheads first = .ok looks)

include hready

/-- Where the look-aheads of all that can be found are there, no set is lacked. -/
theorem not_lacks {i : Item} (hi : Leads g first seed i) (b : String) : ¬ i.Lacks first b := by
  intro hlacks
  obtain ⟨n, hn⟩ := hlacks.1
  obtain ⟨looks, hlooks⟩ := hready i hi n hn
  exact not_lacks_of_lookaheads hlooks b hlacks

/-- **The search comes to its end**, with at most one item for each production and each of the
look-aheads that are possible, and the item that it begins with. -/
theorem exists_traverses
    (hpossible : ∀ i, Leads g first seed i → ∀ looks, i.lookaheads first = .ok looks →
      ∀ a, looks.count a ≤ possible.count a) :
    ∃ items, Worklist.Traverses (expand g first) [] [seed] items ∧
      items.length ≤ 1 + g.length * possible.length := by
  rcases traverses_or_lacks hpossible with hitems | ⟨i, b, hi, hlacks, -⟩
  · exact hitems
  · exact absurd hlacks (not_lacks hready hi b)

/-- **A closure is what the whole search takes.** -/
theorem exists_closure_traverses :
    ∃ items, closure g first seed = .ok items ∧
      Worklist.Traverses (expand g first) [] [seed] items := by
  rcases closure_cases g first seed with hitems | ⟨i, b, hi, hlacks, -⟩
  · exact hitems
  · exact absurd hlacks (not_lacks hready hi b)

/-- What a closure lists is the whole search, and the look-aheads that there are bound it. -/
theorem traverses_of_closure
    (hpossible : ∀ i, Leads g first seed i → ∀ looks, i.lookaheads first = .ok looks →
      ∀ a, looks.count a ≤ possible.count a)
    {items : List Item} (h : closure g first seed = .ok items) :
    Worklist.Traverses (expand g first) [] [seed] items ∧
      items.length ≤ 1 + g.length * possible.length := by
  obtain ⟨items', hclosure, htraverses⟩ := exists_closure_traverses hready
  obtain rfl : items' = items := Except.ok.inj (hclosure.symm.trans h)
  obtain ⟨out, hout, hlen⟩ := exists_traverses hready hpossible
  refine ⟨htraverses, ?_⟩
  rw [htraverses.out_unique hout]
  exact hlen

/-- **The closure of an item holds exactly what the item leads to**, the item itself
first, whenever the look-aheads of all that can be found. -/
theorem exists_closure :
    ∃ rest, closure g first seed = .ok (seed :: rest) ∧
      ∀ i, i ∈ seed :: rest ↔ Leads g first seed i := by
  obtain ⟨out, hrun, hout⟩ := exists_closure_traverses hready
  obtain ⟨rest, rfl⟩ := hout.queue_prefix
  exact ⟨rest, hrun, mem_iff_leads hout⟩

end Ready

end LRTables.Item
