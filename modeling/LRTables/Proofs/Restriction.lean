import LRTables.Proofs.Entries

/-!
# Maps restricted to some of their keys

Leaving out the entries of some keys changes nothing for the others: they are looked up as before
and stand in the order in which they stood, and it does not matter whether something is written
before or after the restriction.

* `OrderedMap.restrict` — the map with the entries of the keys that are kept.
* `OrderedMap.get?_restrict`, `OrderedMap.keys_restrict` — looking up, and the order.
* `OrderedMap.restrict_modify`, `OrderedMap.restrict_ofList` — writing.
-/

namespace LRTables.OrderedMap

variable {κ α : Type}

/-- The map with the entries of the keys that are kept, in their order. -/
def restrict (keep : κ → Bool) (m : OrderedMap κ α) : OrderedMap κ α :=
  ⟨m.entries.filter fun e => keep e.1,
    List.Nodup.sublist (List.Sublist.map Prod.fst List.filter_sublist) m.nodup_keys⟩

variable {keep : κ → Bool}

/-- What is kept stands in the order in which it stood. -/
@[simp] theorem keys_restrict (m : OrderedMap κ α) :
    (m.restrict keep).keys = m.keys.filter keep := by
  rw [keys, keys, restrict, List.filter_map]
  rfl

variable [DecidableEq κ]

theorem lookup_filter (entries : List (κ × α)) (k : κ) :
    lookup k (entries.filter fun e => keep e.1) = if keep k then lookup k entries else none := by
  induction entries with
  | nil => simp [lookup]
  | cons e rest ih =>
    obtain ⟨j, a⟩ := e
    by_cases hj : keep j = true
    · by_cases hjk : j = k
      · subst hjk
        simp [lookup, hj]
      · simp [lookup, hj, hjk, ih]
    · by_cases hjk : j = k
      · subst hjk
        simp [hj, ih]
      · simp [lookup, hj, hjk, ih]

/-- What is kept is looked up as before. -/
theorem get?_restrict (m : OrderedMap κ α) (k : κ) :
    (m.restrict keep).get? k = if keep k then m.get? k else none :=
  lookup_filter m.entries k

theorem filter_put_of_keep {k : κ} (hk : keep k = true) (a : α) (entries : List (κ × α)) :
    (put k a entries).filter (fun e => keep e.1) =
      put k a (entries.filter fun e => keep e.1) := by
  induction entries with
  | nil => simp [put, hk]
  | cons e rest ih =>
    obtain ⟨j, b⟩ := e
    by_cases hjk : j = k
    · subst hjk
      simp [put, hk]
    · by_cases hj : keep j = true
      · simp [put, hjk, hj, ih]
      · simp [put, hjk, hj, ih]

theorem filter_put_of_not_keep {k : κ} (hk : keep k = false) (a : α) (entries : List (κ × α)) :
    (put k a entries).filter (fun e => keep e.1) = entries.filter fun e => keep e.1 := by
  induction entries with
  | nil => simp [put, hk]
  | cons e rest ih =>
    obtain ⟨j, b⟩ := e
    by_cases hjk : j = k
    · subst hjk
      simp [put, hk]
    · simp [put, hjk, List.filter_cons, ih]

/-- Writing at a key is kept with the key. -/
theorem restrict_insert (m : OrderedMap κ α) (k : κ) (a : α) :
    (m.insert k a).restrict keep =
      if keep k then (m.restrict keep).insert k a else m.restrict keep := by
  split
  · rename_i hk
    exact eq_of_entries_eq (filter_put_of_keep hk a m.entries)
  · rename_i hk
    exact eq_of_entries_eq (filter_put_of_not_keep (by simpa using hk) a m.entries)

/-- Changing the value of a key is kept with the key. -/
theorem restrict_modify (m : OrderedMap κ α) (k : κ) (f : α → α) :
    (m.modify k f).restrict keep =
      if keep k then (m.restrict keep).modify k f else m.restrict keep := by
  cases hget : m.get? k with
  | none =>
    have hget' : (m.restrict keep).get? k = none := by
      rw [get?_restrict, hget, ite_self]
    rw [modify_of_none hget, modify_of_none hget', ite_self]
  | some a =>
    rw [modify_of_some hget, restrict_insert]
    split
    · rename_i hk
      have hget' : (m.restrict keep).get? k = some a := by
        rw [get?_restrict, if_pos hk, hget]
      rw [modify_of_some hget']
    · rfl

theorem restrict_foldl_insert (pairs : List (κ × α)) (m : OrderedMap κ α) :
    (pairs.foldl (fun m p => m.insert p.1 p.2) m).restrict keep =
      (pairs.filter fun p => keep p.1).foldl (fun m p => m.insert p.1 p.2) (m.restrict keep) := by
  induction pairs generalizing m with
  | nil => rfl
  | cons p rest ih =>
    rw [List.foldl_cons, ih, restrict_insert]
    by_cases hp : keep p.1 = true
    · simp only [hp, if_true, List.filter_cons, List.foldl_cons]
    · simp only [hp, if_false, List.filter_cons, Bool.false_eq_true]

/-- Pairs may be left out before they are written. -/
theorem restrict_ofList (pairs : List (κ × α)) :
    (ofList pairs).restrict keep = ofList (pairs.filter fun p => keep p.1) :=
  restrict_foldl_insert pairs empty

end LRTables.OrderedMap
