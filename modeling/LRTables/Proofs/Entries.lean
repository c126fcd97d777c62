import LRTables.OrderedMap
import Mathlib.Data.List.Nodup

/-!
# Entries, sizes and weights of finite maps

Look-up in an `OrderedMap` is membership of its entries, because no key has two of
them.  The weight of a map adds up a number for each value; it is what bounds the
passes and searches whose state is kept in a map.

* `get?_eq_some_iff`, `mem_keys_iff` — look-up, entries and keys.
* `get?_ofList_eq_getLast?` — of the pairs with a key the last one stays.
* `eq_of_get?_eq` — keys in their order and look-up are all there is to a map.
* `keys_ofList_of_nodup`, `keys_modify`, `size_erase` — the keys and their number.
* `count_flatMap_values` — what only one of the values holds, counted over all of them.
* `weight_insert` — the weight after writing, and `weight_le`, a bound for it.
-/

namespace LRTables.OrderedMap

variable {κ α β : Type} [DecidableEq κ]

/-! ## Look-up and entries -/

theorem lookup_eq_some_iff {entries : List (κ × α)} (h : (entries.map Prod.fst).Nodup) (k : κ)
    (a : α) : lookup k entries = some a ↔ (k, a) ∈ entries := by
  induction entries with
  | nil => simp [lookup]
  | cons e rest ih =>
    obtain ⟨j, b⟩ := e
    rw [List.map_cons, List.nodup_cons] at h
    by_cases hj : j = k
    · subst hj
      have hnot : (j, a) ∉ rest := fun hm => h.1 (List.mem_map.2 ⟨(j, a), hm, rfl⟩)
      simp only [lookup, if_true, Option.some.injEq, List.mem_cons, Prod.mk.injEq, true_and, hnot,
        or_false]
      exact eq_comm
    · have hj' : ¬ k = j := fun e => hj e.symm
      simp only [lookup, hj, if_false, ih h.2, List.mem_cons, Prod.mk.injEq, hj', false_and,
        false_or]

/-- Look-up finds exactly the entries. -/
theorem get?_eq_some_iff (m : OrderedMap κ α) (k : κ) (a : α) :
    m.get? k = some a ↔ (k, a) ∈ m.entries :=
  lookup_eq_some_iff m.nodup_keys k a

/-- The keys are what look-up finds a value for. -/
theorem mem_keys_iff (m : OrderedMap κ α) (k : κ) : k ∈ m.keys ↔ ∃ a, m.get? k = some a := by
  have h := m.get?_eq_none_iff k
  rw [mem_iff_mem_keys] at h
  cases hk : m.get? k with
  | none => simpa [hk] using h
  | some a =>
    rw [hk] at h
    simpa using h

theorem mem_keys_of_get? {m : OrderedMap κ α} {k : κ} {a : α} (h : m.get? k = some a) :
    k ∈ m.keys :=
  (m.mem_keys_iff k).2 ⟨a, h⟩

/-- The values are what look-up finds. -/
theorem mem_values_iff (m : OrderedMap κ α) (a : α) : a ∈ m.values ↔ ∃ k, m.get? k = some a := by
  simp only [values, List.mem_map, get?_eq_some_iff]
  constructor
  · rintro ⟨⟨k, b⟩, hm, rfl⟩
    exact ⟨k, hm⟩
  · rintro ⟨k, hm⟩
    exact ⟨(k, a), hm, rfl⟩

theorem mem_of_lookup {entries : List (κ × α)} {k : κ} {a : α} (h : lookup k entries = some a) :
    (k, a) ∈ entries := by
  induction entries with
  | nil => simp [lookup] at h
  | cons e rest ih =>
    obtain ⟨j, b⟩ := e
    by_cases hj : j = k
    · simp only [lookup, hj, if_true, Option.some.injEq] at h
      simp [hj, h]
    · simp only [lookup, hj, if_false] at h
      exact List.mem_cons_of_mem _ (ih h)

/-- A map that arises from pairs holds only pairs that were given. -/
theorem mem_of_get?_ofList {pairs : List (κ × α)} {k : κ} {a : α}
    (h : (ofList pairs).get? k = some a) : (k, a) ∈ pairs := by
  rw [get?_ofList] at h
  exact List.mem_reverse.1 (mem_of_lookup h)

/-- A map that arises from pairs with different keys holds all of them. -/
theorem get?_ofList_eq_some_iff {pairs : List (κ × α)} (h : (pairs.map Prod.fst).Nodup) (k : κ)
    (a : α) : (ofList pairs).get? k = some a ↔ (k, a) ∈ pairs := by
  have hrev : (pairs.reverse.map Prod.fst).Nodup := by
    rw [List.map_reverse]
    exact List.nodup_reverse.2 h
  rw [get?_ofList, lookup_eq_some_iff hrev, List.mem_reverse]

/-- Of the pairs with a key the last one stays. -/
theorem get?_ofList_eq_getLast? (pairs : List (κ × α)) (k : κ) :
    (ofList pairs).get? k = ((pairs.filter fun p => p.1 = k).getLast?).map Prod.snd := by
  -- the first pair of the reversed list is the last one of the list
  have hlookup : ∀ entries : List (κ × α),
      lookup k entries = ((entries.filter fun p => p.1 = k).head?).map Prod.snd := by
    intro entries
    induction entries with
    | nil => rfl
    | cons e rest ih =>
      obtain ⟨j, a⟩ := e
      by_cases hj : j = k
      · simp [lookup, hj]
      · simpa [lookup, hj] using ih
  rw [get?_ofList, hlookup, List.filter_reverse, List.head?_reverse]

omit [DecidableEq κ] in
/-- The entries are all there is to a map. -/
theorem eq_of_entries_eq {m m' : OrderedMap κ α} (h : m.entries = m'.entries) : m = m' := by
  obtain ⟨entries, hentries⟩ := m
  obtain ⟨entries', hentries'⟩ := m'
  obtain rfl : entries = entries' := h
  rfl

/-- The entries are the keys in their order, each with what is looked up for it. -/
theorem entries_eq_filterMap (m : OrderedMap κ α) :
    m.entries = m.keys.filterMap fun k => (m.get? k).map fun a => (k, a) := by
  have hlookup : ∀ e ∈ m.entries, (m.get? e.1).map (fun a => (e.1, a)) = some e := by
    intro e he
    rw [(m.get?_eq_some_iff e.1 e.2).2 he]
    rfl
  rw [keys, List.filterMap_map]
  exact ((List.filterMap_congr hlookup).trans List.filterMap_some).symm

/-- Maps with the same keys in the same order, and the same value for each, are the same. -/
theorem eq_of_get?_eq {m m' : OrderedMap κ α} (hkeys : m.keys = m'.keys)
    (hget : ∀ k, m.get? k = m'.get? k) : m = m' := by
  refine eq_of_entries_eq ?_
  rw [entries_eq_filterMap, entries_eq_filterMap, hkeys]
  exact List.filterMap_congr fun k _ => by rw [hget k]

/-! ## Changing a value -/

theorem modify_of_none {m : OrderedMap κ α} {k : κ} {f : α → α} (h : m.get? k = none) :
    m.modify k f = m := by
  simp only [modify, h]

theorem modify_of_some {m : OrderedMap κ α} {k : κ} {a : α} {f : α → α} (h : m.get? k = some a) :
    m.modify k f = m.insert k (f a) := by
  simp only [modify, h]

/-! ## Keys and sizes -/

theorem pushDistinct_of_mem {elements : List κ} {k : κ} (h : k ∈ elements) :
    pushDistinct elements k = elements := by
  simp [pushDistinct, h]

/-- Elements that are all new go to the end. -/
theorem appendDistinct_of_nodup {elements new : List κ} (h : (elements ++ new).Nodup) :
    appendDistinct elements new = elements ++ new := by
  induction new generalizing elements with
  | nil => simp
  | cons k rest ih =>
    have hnew : k ∉ elements := by
      intro hk
      exact (List.nodup_append.1 h).2.2 k hk k (List.mem_cons_self ..) rfl
    have hpush : pushDistinct elements k = elements ++ [k] := by simp [pushDistinct, hnew]
    rw [appendDistinct_cons, hpush, ih (by simpa using h), List.append_assoc]
    rfl

/-- Elements that are all there already are not added. -/
theorem appendDistinct_of_subset {elements new : List κ} (h : ∀ k ∈ new, k ∈ elements) :
    appendDistinct elements new = elements := by
  induction new with
  | nil => rfl
  | cons k rest ih =>
    rw [appendDistinct_cons, pushDistinct_of_mem (h k (List.mem_cons_self ..)),
      ih fun j hj => h j (List.mem_cons_of_mem _ hj)]

/-- Pairs with different keys keep their places. -/
theorem keys_ofList_of_nodup {pairs : List (κ × α)} (h : (pairs.map Prod.fst).Nodup) :
    (ofList pairs).keys = pairs.map Prod.fst := by
  rw [keys_ofList, appendDistinct_of_nodup (by simpa using h), List.nil_append]

/-- Writing to a key that is there leaves the keys alone. -/
theorem keys_insert_of_get? {m : OrderedMap κ α} {k : κ} {a b : α} (h : m.get? k = some a) :
    (m.insert k b).keys = m.keys := by
  rw [keys_insert, pushDistinct_of_mem (mem_keys_of_get? h)]

/-- Changing a value moves no key and adds none. -/
@[simp] theorem keys_modify (m : OrderedMap κ α) (k : κ) (f : α → α) :
    (m.modify k f).keys = m.keys := by
  cases h : m.get? k with
  | none => rw [modify_of_none h]
  | some a => rw [modify_of_some h, keys_insert_of_get? h]

omit [DecidableEq κ] in
theorem size_eq_length_keys (m : OrderedMap κ α) : m.size = m.keys.length := by
  simp [size, keys]

/-- Erasing a key that is there takes one entry away. -/
theorem size_erase {m : OrderedMap κ α} {k : κ} (h : k ∈ m.keys) :
    (m.erase k).size + 1 = m.size := by
  have hnodup : m.keys.Nodup := m.nodup_keys
  have herase : m.keys.filter (fun j => j ≠ k) = m.keys.erase k := by
    rw [hnodup.erase_eq_filter]
    congr 1
    funext j
    by_cases hj : j = k <;> simp [hj]
  rw [size_eq_length_keys, size_eq_length_keys, keys_erase, herase, List.length_erase_of_mem h]
  have := List.length_pos_of_mem h
  omega

/-! ## Counting -/

/-- What only one element of a list without repetitions maps to, counted over all of them. -/
theorem count_flatMap_of_unique {ι : Type} [DecidableEq β] {l : List ι} (hl : l.Nodup)
    {f : ι → List β} {i : ι} {x : β} (hi : i ∈ l) (h : ∀ j ∈ l, x ∈ f j → j = i) :
    (l.flatMap f).count x = (f i).count x := by
  induction l with
  | nil => exact absurd hi (by simp)
  | cons j rest ih =>
    rw [List.nodup_cons] at hl
    rw [List.flatMap_cons, List.count_append]
    by_cases hji : j = i
    · -- the others hold nothing of it
      have hrest : (rest.flatMap f).count x = 0 := by
        rw [List.count_eq_zero]
        intro hx
        obtain ⟨m, hm, hxm⟩ := List.mem_flatMap.1 hx
        have hmi : m = i := h m (List.mem_cons_of_mem _ hm) hxm
        exact hl.1 (by rwa [hji, ← hmi])
      rw [hrest, hji, Nat.add_zero]
    · have hj : (f j).count x = 0 := by
        rw [List.count_eq_zero]
        exact fun hx => hji (h j (List.mem_cons_self ..) hx)
      have hi' : i ∈ rest := by
        rcases List.mem_cons.1 hi with rfl | hi
        · exact absurd rfl hji
        · exact hi
      rw [hj, Nat.zero_add]
      exact ih hl.2 hi' fun m hm => h m (List.mem_cons_of_mem _ hm)

omit [DecidableEq κ] in
theorem nodup_entries (m : OrderedMap κ α) : m.entries.Nodup := List.Nodup.of_map _ m.nodup_keys

/-- What only one of the values holds, counted over all of them. -/
theorem count_flatMap_values [DecidableEq β] {m : OrderedMap κ α} {f : α → List β} {k : κ} {a : α}
    {x : β} (hk : m.get? k = some a) (h : ∀ j b, m.get? j = some b → x ∈ f b → j = k) :
    (m.values.flatMap f).count x = (f a).count x := by
  rw [values, List.flatMap_map]
  refine count_flatMap_of_unique (f := fun e : κ × α => f e.2) m.nodup_entries
    ((m.get?_eq_some_iff k a).1 hk) fun e he hx => ?_
  obtain ⟨j, b⟩ := e
  have hj : m.get? j = some b := (m.get?_eq_some_iff j b).2 he
  obtain rfl := h j b hj hx
  rw [Option.some.inj (hk.symm.trans hj)]

/-- A value that stands at one key only is there once. -/
theorem count_values_eq_one [DecidableEq α] {m : OrderedMap κ α} {k : κ} {a : α}
    (hk : m.get? k = some a) (h : ∀ j, m.get? j = some a → j = k) : m.values.count a = 1 := by
  have hcount := count_flatMap_values (f := fun b => [b]) (x := a) hk fun j b hj hb => by
    rw [List.mem_singleton.1 hb] at h
    exact h j hj
  rwa [List.flatMap_singleton', List.count_singleton_self] at hcount

/-! ## Weights -/

/-- The numbers of the values of some entries, added up. -/
def weightEntries (w : α → Nat) : List (κ × α) → Nat
  | [] => 0
  | e :: rest => w e.2 + weightEntries w rest

/-- The numbers of all values, added up. -/
def weight (w : α → Nat) (m : OrderedMap κ α) : Nat := weightEntries w m.entries

omit [DecidableEq κ] in
theorem weightEntries_le {w : α → Nat} {bound : Nat} {entries : List (κ × α)}
    (h : ∀ e ∈ entries, w e.2 ≤ bound) : weightEntries w entries ≤ entries.length * bound := by
  induction entries with
  | nil => simp [weightEntries]
  | cons e rest ih =>
    have h1 := h e (List.mem_cons_self ..)
    have h2 := ih fun e' he' => h e' (List.mem_cons_of_mem _ he')
    rw [List.length_cons, Nat.succ_mul, weightEntries]
    omega

/-- A bound for each value bounds the weight. -/
theorem weight_le {w : α → Nat} {bound : Nat} {m : OrderedMap κ α}
    (h : ∀ k a, m.get? k = some a → w a ≤ bound) : m.weight w ≤ m.size * bound :=
  weightEntries_le fun e he => h e.1 e.2 ((m.get?_eq_some_iff e.1 e.2).2 he)

theorem weightEntries_put {w : α → Nat} {entries : List (κ × α)} {k : κ} {a : α} (b : α)
    (h : lookup k entries = some a) :
    weightEntries w (put k b entries) + w a = weightEntries w entries + w b := by
  induction entries with
  | nil => simp [lookup] at h
  | cons e rest ih =>
    obtain ⟨j, c⟩ := e
    by_cases hj : j = k
    · simp only [lookup, hj, if_true, Option.some.injEq] at h
      simp only [put, hj, if_true, weightEntries, h]
      omega
    · simp only [lookup, hj, if_false] at h
      have := ih h
      simp only [put, hj, if_false, weightEntries]
      omega

theorem weight_insert {w : α → Nat} {m : OrderedMap κ α} {k : κ} {a : α} (b : α)
    (h : m.get? k = some a) : (m.insert k b).weight w + w a = m.weight w + w b :=
  weightEntries_put b h

end LRTables.OrderedMap
