import LRTables.Ascending
import LRTables.Distinct
import Mathlib.Data.List.Basic
import Mathlib.Data.List.Induction
import Mathlib.Order.Defs.Unbundled

/-!
# The order of listings

Names that are sorted rise strictly, so that each of them is listed once.  Names that are gathered
stand in the order in which they occur first.

* `pairwise_ascending` — sorting gives rising elements.
* `pairwise_idxOf_appendDistinct` — gathering keeps the order of first occurrence.
-/

namespace LRTables

variable {α : Type} [DecidableEq α]

section Ascending

variable [LT α] [DecidableLT α] [IsStrictTotalOrder α (· < ·)]

theorem pairwise_insertAscending (a : α) {elements : List α} (h : elements.Pairwise (· < ·)) :
    (insertAscending a elements).Pairwise (· < ·) := by
  induction elements with
  | nil => exact List.pairwise_singleton ..
  | cons b rest ih =>
    obtain ⟨hb, hrest⟩ := List.pairwise_cons.1 h
    unfold insertAscending
    split
    · rename_i hab
      refine List.pairwise_cons.2 ⟨fun x hx => ?_, h⟩
      rcases List.mem_cons.1 hx with rfl | hx
      · exact hab
      · exact IsTrans.trans _ _ _ hab (hb x hx)
    · split
      · exact h
      · rename_i hnot hne
        refine List.pairwise_cons.2 ⟨fun x hx => ?_, ih hrest⟩
        rcases mem_insertAscending.1 hx with rfl | hx
        · exact ((trichotomous_of (· < ·) x b).resolve_left hnot).resolve_left hne
        · exact hb x hx

/-- **Sorting gives rising elements.** -/
theorem pairwise_ascending (elements : List α) : (ascending elements).Pairwise (· < ·) := by
  induction elements with
  | nil => exact List.Pairwise.nil
  | cons a rest ih => exact pairwise_insertAscending a ih

end Ascending

/-- **Gathering keeps the order of first occurrence.** -/
theorem pairwise_idxOf_appendDistinct (elements : List α) :
    (appendDistinct [] elements).Pairwise fun x y => elements.idxOf x < elements.idxOf y := by
  induction elements using List.reverseRecOn with
  | nil => exact List.Pairwise.nil
  | append_singleton front a ih =>
    -- what was gathered before occurs first where it did
    have hfront : (appendDistinct [] front).Pairwise fun x y =>
        (front ++ [a]).idxOf x < (front ++ [a]).idxOf y := by
      refine ih.imp_of_mem fun hx hy hlt => ?_
      have hx := (mem_appendDistinct.1 hx).resolve_left (by simp)
      have hy := (mem_appendDistinct.1 hy).resolve_left (by simp)
      rwa [List.idxOf_append_of_mem hx, List.idxOf_append_of_mem hy]
    have happend : appendDistinct [] (front ++ [a]) = pushDistinct (appendDistinct [] front) a :=
      List.foldl_append ..
    rw [happend, pushDistinct]
    split
    · exact hfront
    · rename_i hnew
      refine List.pairwise_append.2 ⟨hfront, List.pairwise_singleton .., fun x hx y hy => ?_⟩
      have hx := (mem_appendDistinct.1 hx).resolve_left (by simp)
      have ha : a ∉ front := fun h => hnew (mem_appendDistinct.2 (Or.inr h))
      rw [List.mem_singleton.1 hy, List.idxOf_append_of_mem hx, List.idxOf_append_of_notMem ha]
      exact Nat.lt_add_right _ (List.idxOf_lt_length_of_mem hx)

end LRTables
