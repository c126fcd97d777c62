/-!
# Lists without repetitions

Adding elements to the end of a list, those that are there already left out.  Names are
gathered in this way, in the order of their first occurrence.

* `mem_appendDistinct` — the elements are those of both lists.
* `nodup_appendDistinct` — what has no repetition keeps having none.
* `prefix_appendDistinct` — what was there stays where it was.
-/

namespace LRTables

variable {α : Type} [DecidableEq α]

/-- The list with an element at its end, unless it is there already. -/
def pushDistinct (elements : List α) (a : α) : List α :=
  if a ∈ elements then elements else elements ++ [a]

/-- The list with elements added one after the other. -/
def appendDistinct (elements new : List α) : List α := new.foldl pushDistinct elements

@[simp] theorem appendDistinct_nil (elements : List α) :
    appendDistinct elements [] = elements := rfl

@[simp] theorem appendDistinct_cons (elements new : List α) (a : α) :
    appendDistinct elements (a :: new) = appendDistinct (pushDistinct elements a) new := rfl

theorem mem_pushDistinct {elements : List α} {a x : α} :
    x ∈ pushDistinct elements a ↔ x ∈ elements ∨ x = a := by
  unfold pushDistinct
  split
  · rename_i h
    refine ⟨Or.inl, ?_⟩
    rintro (hx | rfl)
    · exact hx
    · exact h
  · rw [List.mem_append, List.mem_singleton]

theorem nodup_pushDistinct {elements : List α} (a : α) (h : elements.Nodup) :
    (pushDistinct elements a).Nodup := by
  unfold pushDistinct
  split
  · exact h
  · rename_i ha
    refine List.nodup_append.2 ⟨h, by simp, ?_⟩
    intro x hx y hy
    rw [List.mem_singleton] at hy
    subst hy
    rintro rfl
    exact ha hx

theorem prefix_pushDistinct (elements : List α) (a : α) : elements <+: pushDistinct elements a := by
  unfold pushDistinct
  split
  · exact List.prefix_refl elements
  · exact List.prefix_append elements [a]

/-- The elements are those of both lists. -/
theorem mem_appendDistinct {elements new : List α} {x : α} :
    x ∈ appendDistinct elements new ↔ x ∈ elements ∨ x ∈ new := by
  induction new generalizing elements with
  | nil => simp
  | cons a rest ih => rw [appendDistinct_cons, ih, mem_pushDistinct, List.mem_cons, or_assoc]

/-- A list without repetitions stays without. -/
theorem nodup_appendDistinct {elements : List α} (new : List α) (h : elements.Nodup) :
    (appendDistinct elements new).Nodup := by
  induction new generalizing elements with
  | nil => exact h
  | cons a rest ih => exact ih (nodup_pushDistinct a h)

/-- What was there stays where it was. -/
theorem prefix_appendDistinct (elements new : List α) :
    elements <+: appendDistinct elements new := by
  induction new generalizing elements with
  | nil => exact List.prefix_refl elements
  | cons a rest ih => exact (prefix_pushDistinct elements a).trans (ih _)

end LRTables
