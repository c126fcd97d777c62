import Mathlib.Tactic.Common

/-!
# Computations that go through

Reading and building give a result or a fault.  Where it is known of every part that it
goes through, so does the whole, and a result that can be computed can be checked.

* `exists_mapM` — a function that goes through on every element goes through on the list.
* `map_eq_of_mapM` — what the results have of the elements, they have in the same order.
* `mapM_congr` — functions that agree on the elements give the same results.
* `exists_ok_of_any` — a check of a result that is there.
* `mapM_map_eq_some`, `mapM_flatMap_eq_some` — what was written for each element is read back.
-/

namespace LRTables

variable {α β ε : Type}

/-- What is made of a result is there if the result is. -/
theorem map_eq_ok_iff {f : α → β} {e : Except ε α} {b : β} :
    f <$> e = .ok b ↔ ∃ a, e = .ok a ∧ b = f a := by
  cases e with
  | error e => simp [Functor.map, Except.map]
  | ok a => simp [Functor.map, Except.map, eq_comm]

/-- What is done with a result has a result if the first one is there and the second follows. -/
theorem bind_eq_ok_iff {e : Except ε α} {f : α → Except ε β} {b : β} :
    (e >>= f) = .ok b ↔ ∃ a, e = .ok a ∧ f a = .ok b := by
  cases e with
  | error e => simp [bind, Except.bind]
  | ok a => simp [bind, Except.bind]

/-- What is made of a result is not there exactly if the result is not. -/
theorem map_eq_error_iff {f : α → β} {e : Except ε α} {fault : ε} :
    f <$> e = .error fault ↔ e = .error fault := by
  cases e with
  | error e => simp [Functor.map, Except.map]
  | ok a => simp [Functor.map, Except.map]

/-- What is done with a result fails if the first one is not there or the second does not follow. -/
theorem bind_eq_error_iff {e : Except ε α} {f : α → Except ε β} {fault : ε} :
    (e >>= f) = .error fault ↔ e = .error fault ∨ ∃ a, e = .ok a ∧ f a = .error fault := by
  cases e with
  | error e => simp [bind, Except.bind]
  | ok a => simp [bind, Except.bind]

/-- A function that goes through on every element of a list goes through on the list. -/
theorem exists_mapM {f : α → Except ε β} {P : α → β → Prop} (xs : List α)
    (h : ∀ x ∈ xs, ∃ y, f x = .ok y ∧ P x y) :
    ∃ ys, xs.mapM f = .ok ys ∧ ys.length = xs.length ∧ (∀ y ∈ ys, ∃ x ∈ xs, P x y) ∧
      ∀ x ∈ xs, ∃ y ∈ ys, P x y := by
  induction xs with
  | nil => exact ⟨[], rfl, rfl, by simp, by simp⟩
  | cons x xs ih =>
    obtain ⟨y, hy, hP⟩ := h x (List.mem_cons_self ..)
    obtain ⟨ys, hys, hlen, hright, hleft⟩ := ih fun z hz => h z (List.mem_cons_of_mem _ hz)
    refine ⟨y :: ys, ?_, by simp [hlen], fun z hz => ?_, fun z hz => ?_⟩
    · simp [List.mapM_cons, hy, hys, bind, Except.bind, pure, Except.pure]
    · rcases List.mem_cons.1 hz with rfl | hz
      · exact ⟨x, List.mem_cons_self .., hP⟩
      · obtain ⟨w, hw, hPw⟩ := hright z hz
        exact ⟨w, List.mem_cons_of_mem _ hw, hPw⟩
    · rcases List.mem_cons.1 hz with rfl | hz
      · exact ⟨y, List.mem_cons_self .., hP⟩
      · obtain ⟨w, hw, hPw⟩ := hleft z hz
        exact ⟨w, List.mem_cons_of_mem _ hw, hPw⟩

/-- What every result has of its element, the results have of the elements, in their order. -/
theorem map_eq_of_mapM {γ : Type} {f : α → Except ε β} {key : β → γ} {key' : α → γ}
    (h : ∀ x y, f x = .ok y → key y = key' x) {xs : List α} {ys : List β}
    (hmap : xs.mapM f = .ok ys) : ys.map key = xs.map key' := by
  induction xs generalizing ys with
  | nil =>
    obtain rfl := Except.ok.inj hmap
    rfl
  | cons x xs ih =>
    rw [List.mapM_cons] at hmap
    obtain ⟨y, hx, hrest⟩ := bind_eq_ok_iff.1 hmap
    obtain ⟨zs, hxs, hcons⟩ := bind_eq_ok_iff.1 hrest
    obtain rfl := Except.ok.inj hcons
    rw [List.map_cons, List.map_cons, h x y hx, ih hxs]

/-- Functions that agree on the elements of a list give the same results. -/
theorem mapM_congr {f f' : α → Except ε β} {xs : List α}
    (h : ∀ x ∈ xs, f x = f' x) : xs.mapM f = xs.mapM f' := by
  induction xs with
  | nil => rfl
  | cons x xs ih =>
    rw [List.mapM_cons, List.mapM_cons, h x (List.mem_cons_self ..),
      ih fun y hy => h y (List.mem_cons_of_mem _ hy)]

/-- Every result is that of an element. -/
theorem exists_of_mem_mapM {f : α → Except ε β} {xs : List α} {ys : List β}
    (hmap : xs.mapM f = .ok ys) : ∀ y ∈ ys, ∃ x ∈ xs, f x = .ok y := by
  have hkeys : ys.map Except.ok = xs.map f :=
    map_eq_of_mapM (fun x y hxy => hxy.symm) hmap
  intro y hy
  have hmem : (Except.ok y : Except ε β) ∈ xs.map f := by
    rw [← hkeys]
    exact List.mem_map_of_mem hy
  exact List.mem_map.1 hmem

/-- A check that holds of the result shows that the result is there. -/
theorem exists_ok_of_any {e : Except ε α} {P : α → Bool} (h : e.toOption.any P = true) :
    ∃ a, e = .ok a ∧ P a = true := by
  cases e with
  | error e => simp [Except.toOption] at h
  | ok a => exact ⟨a, rfl, h⟩

/-! ## Reading lists back -/

section Reading

variable {ι α β : Type} {f : α → Option β}

/-- What was written for each element is read back. -/
theorem mapM_map_eq_some {write : ι → α} {value : ι → β} {xs : List ι}
    (h : ∀ x ∈ xs, f (write x) = some (value x)) : (xs.map write).mapM f = some (xs.map value) := by
  induction xs with
  | nil => rfl
  | cons x xs ih =>
    rw [List.map_cons, List.mapM_cons, h x (List.mem_cons_self ..),
      ih fun y hy => h y (List.mem_cons_of_mem _ hy)]
    rfl

/-- So are the lists that were written for each. -/
theorem mapM_flatMap_eq_some {write : ι → List α} {values : ι → List β} {xs : List ι}
    (h : ∀ x ∈ xs, (write x).mapM f = some (values x)) :
    (xs.flatMap write).mapM f = some (xs.flatMap values) := by
  induction xs with
  | nil => rfl
  | cons x xs ih =>
    rw [List.flatMap_cons, List.mapM_append, h x (List.mem_cons_self ..),
      ih fun y hy => h y (List.mem_cons_of_mem _ hy)]
    rfl

end Reading

end LRTables
