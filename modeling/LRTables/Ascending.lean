/-!
# Ascending lists

Sorting by insertion, where an element that occurs several times is kept once.
-/

namespace LRTables

variable {α : Type} [LT α] [DecidableLT α] [DecidableEq α]

/-- The element in its place among ascending ones, unless it is there already. -/
def insertAscending (a : α) : List α → List α
  | [] => [a]
  | b :: rest =>
    if a < b then a :: b :: rest
    else if a = b then b :: rest
    else b :: insertAscending a rest

/-- The elements in ascending order, each once. -/
def ascending (elements : List α) : List α := elements.foldr insertAscending []

theorem mem_insertAscending {a x : α} {elements : List α} :
    x ∈ insertAscending a elements ↔ x = a ∨ x ∈ elements := by
  induction elements with
  | nil => simp [insertAscending]
  | cons b rest ih =>
    unfold insertAscending
    split
    · simp
    · split
      · rename_i h
        subst h
        simp
      · simp [ih, or_left_comm]

/-- No element is lost and none is added. -/
theorem mem_ascending {x : α} {elements : List α} : x ∈ ascending elements ↔ x ∈ elements := by
  induction elements with
  | nil => simp [ascending]
  | cons b rest ih =>
    have : ascending (b :: rest) = insertAscending b (ascending rest) := rfl
    rw [this, mem_insertAscending, ih, List.mem_cons]

end LRTables
