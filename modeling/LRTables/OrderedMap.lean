import LRTables.Distinct

/-!
# Finite maps that remember their order

An `OrderedMap` is a finite map whose keys stand in the order in which they were
first given.  Writing to a key that is present changes its value and leaves it
where it stands; a new key goes to the end; erasing a key closes the gap.  FIRST
sets, the states of an automaton, the rows of a table and the cells of a row are
all kept in such maps, because the order of every listing is the order in which
things were found.

* `OrderedMap.get?`, `insert`, `erase`, `mapValues` — the operations.
* `get?_insert`, `get?_erase`, `get?_mapValues`, `get?_ofList` — what they do to look-up.
* `keys_insert`, `keys_erase`, `keys_mapValues`, `keys_ofList` — what they do to the order.
-/

namespace LRTables

/-- A finite map from `κ` to `α` in the order of first insertion: a list of
entries in which no key occurs twice. -/
structure OrderedMap (κ : Type) (α : Type) where
  /-- The entries, first inserted first. -/
  entries : List (κ × α)
  /-- No key has two entries. -/
  nodup_keys : (entries.map Prod.fst).Nodup
  deriving DecidableEq, Repr

namespace OrderedMap

variable {κ α β : Type}

/-- The keys, first inserted first. -/
def keys (m : OrderedMap κ α) : List κ := m.entries.map Prod.fst

/-- The values, in the order of their keys. -/
def values (m : OrderedMap κ α) : List α := m.entries.map Prod.snd

/-- The number of entries. -/
def size (m : OrderedMap κ α) : Nat := m.entries.length

/-- The map without entries. -/
def empty : OrderedMap κ α := ⟨[], List.nodup_nil⟩

instance : EmptyCollection (OrderedMap κ α) := ⟨empty⟩

instance : Inhabited (OrderedMap κ α) := ⟨empty⟩

instance : Membership κ (OrderedMap κ α) := ⟨fun m k => k ∈ m.keys⟩

variable [DecidableEq κ]

instance (k : κ) (m : OrderedMap κ α) : Decidable (k ∈ m) :=
  inferInstanceAs (Decidable (k ∈ m.keys))

/-! ## Operations on lists of entries -/

/-- The value of the first entry with key `k`. -/
def lookup (k : κ) : List (κ × α) → Option α
  | [] => none
  | (j, a) :: rest => if j = k then some a else lookup k rest

/-- The entries with `a` in the place of the value of `k`, or with a last entry
for `k` when there was none. -/
def put (k : κ) (a : α) : List (κ × α) → List (κ × α)
  | [] => [(k, a)]
  | (j, b) :: rest => if j = k then (j, a) :: rest else (j, b) :: put k a rest

/-- The entries without those for `k`. -/
def remove (k : κ) (entries : List (κ × α)) : List (κ × α) :=
  entries.filter fun e => e.1 ≠ k

/-- Every value replaced by its image under `f`. -/
def mapEntries (f : α → β) (entries : List (κ × α)) : List (κ × β) :=
  entries.map fun e => (e.1, f e.2)

theorem map_fst_put (k : κ) (a : α) (entries : List (κ × α)) :
    (put k a entries).map Prod.fst = pushDistinct (entries.map Prod.fst) k := by
  induction entries with
  | nil => simp [put, pushDistinct]
  | cons e rest ih =>
    obtain ⟨j, b⟩ := e
    by_cases h : j = k
    · simp [put, pushDistinct, h]
    · have h' : ¬ k = j := fun e => h e.symm
      simp only [put, h, if_false, List.map_cons, ih, pushDistinct, List.mem_cons, h', false_or]
      split <;> simp

theorem map_fst_remove (k : κ) (entries : List (κ × α)) :
    (remove k entries).map Prod.fst = (entries.map Prod.fst).filter (fun j => j ≠ k) := by
  induction entries with
  | nil => rfl
  | cons e rest ih =>
    by_cases h : e.1 = k
    · simpa [remove, h] using ih
    · simpa [remove, h] using ih

omit [DecidableEq κ] in
theorem map_fst_mapEntries (f : α → β) (entries : List (κ × α)) :
    (mapEntries f entries).map Prod.fst = entries.map Prod.fst := by
  simp [mapEntries]

theorem nodup_put (k : κ) (a : α) {entries : List (κ × α)}
    (h : (entries.map Prod.fst).Nodup) : ((put k a entries).map Prod.fst).Nodup := by
  rw [map_fst_put]
  exact nodup_pushDistinct k h

theorem nodup_remove (k : κ) {entries : List (κ × α)}
    (h : (entries.map Prod.fst).Nodup) : ((remove k entries).map Prod.fst).Nodup := by
  rw [map_fst_remove]
  exact h.filter _

/-! ## Operations on maps -/

/-- The value at `k`, if there is one. -/
def get? (m : OrderedMap κ α) (k : κ) : Option α := lookup k m.entries

/-- The map with `a` at `k`: a key that is present keeps its place, a new one
goes last. -/
def insert (m : OrderedMap κ α) (k : κ) (a : α) : OrderedMap κ α :=
  ⟨put k a m.entries, nodup_put k a m.nodup_keys⟩

/-- The map without an entry for `k`. -/
def erase (m : OrderedMap κ α) (k : κ) : OrderedMap κ α :=
  ⟨remove k m.entries, nodup_remove k m.nodup_keys⟩

omit [DecidableEq κ] in
/-- The map with `f` applied to every value. -/
def mapValues (f : α → β) (m : OrderedMap κ α) : OrderedMap κ β :=
  ⟨mapEntries f m.entries, by rw [map_fst_mapEntries]; exact m.nodup_keys⟩

/-- The map with `f` applied to the value at `k`, and unchanged where there is none. -/
def modify (m : OrderedMap κ α) (k : κ) (f : α → α) : OrderedMap κ α :=
  match m.get? k with
  | none => m
  | some a => m.insert k (f a)

/-- The map that arises from inserting the pairs one after the other. -/
def ofList (pairs : List (κ × α)) : OrderedMap κ α :=
  pairs.foldl (fun m p => m.insert p.1 p.2) empty

/-! ## Look-up -/

theorem lookup_put (k j : κ) (a : α) (entries : List (κ × α)) :
    lookup j (put k a entries) = if k = j then some a else lookup j entries := by
  induction entries with
  | nil => simp [put, lookup]
  | cons e rest ih =>
    obtain ⟨i, b⟩ := e
    by_cases hik : i = k <;> by_cases hkj : k = j <;> by_cases hij : i = j <;>
      simp_all [put, lookup]

theorem lookup_remove (k j : κ) (entries : List (κ × α)) :
    lookup j (remove k entries) = if k = j then none else lookup j entries := by
  induction entries with
  | nil => simp [remove, lookup]
  | cons e rest ih =>
    obtain ⟨i, b⟩ := e
    by_cases hik : i = k <;> by_cases hkj : k = j <;> by_cases hij : i = j <;>
      simp_all [remove, lookup]

theorem lookup_mapEntries (f : α → β) (k : κ) (entries : List (κ × α)) :
    lookup k (mapEntries f entries) = (lookup k entries).map f := by
  induction entries with
  | nil => rfl
  | cons e rest ih =>
    obtain ⟨i, b⟩ := e
    by_cases h : i = k
    · simp [mapEntries, lookup, h]
    · simpa [mapEntries, lookup, h] using ih

theorem lookup_eq_none_iff (k : κ) (entries : List (κ × α)) :
    lookup k entries = none ↔ k ∉ entries.map Prod.fst := by
  induction entries with
  | nil => simp [lookup]
  | cons e rest ih =>
    obtain ⟨i, b⟩ := e
    by_cases h : i = k
    · simp [lookup, h]
    · have h' : ¬ k = i := fun e => h e.symm
      simpa [lookup, h, h'] using ih

/-- Reading after writing. -/
@[simp] theorem get?_insert (m : OrderedMap κ α) (k j : κ) (a : α) :
    (m.insert k a).get? j = if k = j then some a else m.get? j :=
  lookup_put k j a m.entries

/-- Reading after erasing. -/
@[simp] theorem get?_erase (m : OrderedMap κ α) (k j : κ) :
    (m.erase k).get? j = if k = j then none else m.get? j :=
  lookup_remove k j m.entries

/-- Reading a map whose values were all replaced. -/
@[simp] theorem get?_mapValues (f : α → β) (m : OrderedMap κ α) (k : κ) :
    (m.mapValues f).get? k = (m.get? k).map f :=
  lookup_mapEntries f k m.entries

/-- A key without a value is one that is absent. -/
theorem get?_eq_none_iff (m : OrderedMap κ α) (k : κ) : m.get? k = none ↔ k ∉ m :=
  lookup_eq_none_iff k m.entries

/-- Reading after changing a value. -/
@[simp] theorem get?_modify (m : OrderedMap κ α) (k j : κ) (f : α → α) :
    (m.modify k f).get? j = if k = j then (m.get? j).map f else m.get? j := by
  unfold modify
  split
  · rename_i h
    split
    · rename_i hkj
      rw [← hkj, h]
      rfl
    · rfl
  · rename_i a h
    rw [get?_insert]
    split
    · rename_i hkj
      rw [← hkj, h]
      rfl
    · rfl

theorem get?_foldl_insert (pairs : List (κ × α)) (m : OrderedMap κ α) (k : κ) :
    (pairs.foldl (fun m p => m.insert p.1 p.2) m).get? k =
      (lookup k pairs.reverse).or (m.get? k) := by
  induction pairs generalizing m with
  | nil => simp [lookup]
  | cons p rest ih =>
    have hlast : ∀ front : List (κ × α), lookup k (front ++ [p]) =
        (lookup k front).or (if p.1 = k then some p.2 else none) := by
      intro front
      induction front with
      | nil =>
        obtain ⟨j, a⟩ := p
        simp [lookup]
      | cons e front ihf =>
        obtain ⟨j, a⟩ := e
        by_cases h : j = k
        · simp [lookup, h]
        · simpa [lookup, h] using ihf
    rw [List.foldl_cons, ih, List.reverse_cons, hlast, get?_insert]
    cases lookup k rest.reverse with
    | some a => simp
    | none => by_cases h : p.1 = k <;> simp [h]

/-- Of several values for a key the last one stays. -/
theorem get?_ofList (pairs : List (κ × α)) (k : κ) :
    (ofList pairs).get? k = lookup k pairs.reverse := by
  have h := get?_foldl_insert pairs (empty : OrderedMap κ α) k
  have he : (empty : OrderedMap κ α).get? k = none := rfl
  rw [he, Option.or_none] at h
  exact h

/-! ## Order -/

/-- Writing moves no key, and a new key goes last. -/
@[simp] theorem keys_insert (m : OrderedMap κ α) (k : κ) (a : α) :
    (m.insert k a).keys = pushDistinct m.keys k :=
  map_fst_put k a m.entries

/-- Erasing a key leaves the others in their order. -/
@[simp] theorem keys_erase (m : OrderedMap κ α) (k : κ) :
    (m.erase k).keys = m.keys.filter (fun j => j ≠ k) :=
  map_fst_remove k m.entries

omit [DecidableEq κ] in
/-- Replacing values moves no key. -/
@[simp] theorem keys_mapValues (f : α → β) (m : OrderedMap κ α) :
    (m.mapValues f).keys = m.keys :=
  map_fst_mapEntries f m.entries

omit [DecidableEq κ] in
theorem mem_iff_mem_keys (m : OrderedMap κ α) (k : κ) : k ∈ m ↔ k ∈ m.keys := Iff.rfl

theorem keys_foldl_insert (pairs : List (κ × α)) (m : OrderedMap κ α) :
    (pairs.foldl (fun m p => m.insert p.1 p.2) m).keys =
      appendDistinct m.keys (pairs.map Prod.fst) := by
  induction pairs generalizing m with
  | nil => rfl
  | cons p rest ih => rw [List.foldl_cons, ih, keys_insert, List.map_cons, appendDistinct_cons]

/-- Every key stands where it was first given. -/
theorem keys_ofList (pairs : List (κ × α)) :
    (ofList pairs).keys = appendDistinct [] (pairs.map Prod.fst) :=
  keys_foldl_insert pairs empty

end OrderedMap

end LRTables
