import LRTables.Text.Blank
import LRTables.Text.Lines
import Mathlib.Data.List.Basic
import Mathlib.Data.List.TakeWhile

/-!
# Fields of a text

What was put together with separators is cut at them again, also where blanks were added around the
fields or trimmed off the end of the text.

* `Text.mem_intercalate`, `Text.join_eq_intercalate`, `Text.intercalate_append` — fields put
  together.
* `Text.trim_append_of_blank`, `Text.trim_eq_self` — what trimming does to the ends of a text.
* `Text.Trimmed`, `Text.trimmed_intercalate` — texts with no blanks at their ends.
* `Text.map_trim_split_intercalate` — cutting at bars with blanks around them.
* `Text.splitLines_unlines` — the lines of a text that was put together from them.
-/

namespace LRTables.Text

/-! ## Putting together -/

/-- What is put together holds the separator and the elements of the fields. -/
theorem mem_intercalate {α : Type} {sep : List α} {ls : List (List α)} {a : α}
    (h : a ∈ sep.intercalate ls) : a ∈ sep ∨ ∃ l ∈ ls, a ∈ l := by
  induction ls with
  | nil => simp at h
  | cons l ls ih =>
    cases ls with
    | nil =>
      rw [List.intercalate_singleton] at h
      exact Or.inr ⟨l, List.mem_cons_self .., h⟩
    | cons m ls =>
      rw [List.intercalate_cons_cons, List.append_assoc] at h
      rcases List.mem_append.1 h with h | h
      · exact Or.inr ⟨l, List.mem_cons_self .., h⟩
      · rcases List.mem_append.1 h with h | h
        · exact Or.inl h
        · refine (ih h).imp_right ?_
          rintro ⟨n, hn, ha⟩
          exact ⟨n, List.mem_cons_of_mem _ hn, ha⟩

/-- Fields put together are interspersed with their separator. -/
theorem join_eq_intercalate (sep : Char) (fields : List (List Char)) :
    join sep fields = [sep].intercalate fields := by
  induction fields with
  | nil => rfl
  | cons field rest ih =>
    cases rest with
    | nil => simp [join]
    | cons next more => simp [join, ih, List.intercalate_cons_cons]

theorem intercalate_cons_head {α : Type} (sep : List α) (a : α) (as : List α)
    (rest : List (List α)) :
    sep.intercalate ((a :: as) :: rest) = a :: sep.intercalate (as :: rest) := by
  cases rest with
  | nil => simp
  | cons bs rest => simp [List.intercalate_cons_cons]

/-- Fields can be put together in two parts. -/
theorem intercalate_append {α : Type} (sep : List α) {front back : List (List α)}
    (hfront : front ≠ []) (hback : back ≠ []) :
    sep.intercalate (front ++ back) = sep.intercalate front ++ sep ++ sep.intercalate back := by
  obtain ⟨b, back, rfl⟩ := List.exists_cons_of_ne_nil hback
  induction front with
  | nil => exact absurd rfl hfront
  | cons l front ih =>
    cases front with
    | nil => simp [List.intercalate_cons_cons]
    | cons m front =>
      have hrest := ih (by simp)
      simp only [List.cons_append, List.intercalate_cons_cons, List.append_assoc] at hrest ⊢
      rw [hrest]

/-! ## Trimming -/

theorem isBlank_of_mem_spaces (n : Nat) : ∀ b ∈ List.replicate n ' ', isBlank b = true := by
  intro b hb
  rw [List.eq_of_mem_replicate hb]
  decide

/-- Only blanks are trimmed off the end. -/
theorem exists_trimEnd_append (cs : List Char) :
    ∃ blanks, trimEnd cs ++ blanks = cs ∧ ∀ b ∈ blanks, isBlank b = true := by
  refine ⟨(cs.reverse.takeWhile isBlank).reverse, ?_, ?_⟩
  · rw [trimEnd, trimStart, ← List.reverse_append, List.takeWhile_append_dropWhile,
      List.reverse_reverse]
  · intro b hb
    exact List.mem_takeWhile_imp (List.mem_reverse.1 hb)

/-- Blanks at the end go, however many. -/
theorem trimEnd_append_of_blank (cs : List Char) {bs : List Char}
    (h : ∀ b ∈ bs, isBlank b = true) : trimEnd (cs ++ bs) = trimEnd cs := by
  rw [trimEnd, trimStart, List.reverse_append,
    List.dropWhile_append_of_pos fun b hb => h b (List.mem_reverse.1 hb)]
  rfl

/-- Trimming the end twice is trimming it once. -/
theorem trimEnd_idem (cs : List Char) : trimEnd (trimEnd cs) = trimEnd cs := by
  obtain ⟨blanks, hcs, hblanks⟩ := exists_trimEnd_append cs
  rw [← trimEnd_append_of_blank (trimEnd cs) hblanks, hcs]

/-- Trimming takes blanks off the end. -/
theorem trim_append_of_blank (cs : List Char) {bs : List Char}
    (h : ∀ b ∈ bs, isBlank b = true) : trim (cs ++ bs) = trim cs := by
  rw [trim, trim, trimStart, trimStart, List.dropWhile_append]
  split
  · rename_i hempty
    rw [List.isEmpty_iff] at hempty
    rw [hempty, List.dropWhile_eq_nil_iff.2 h]
  · exact trimEnd_append_of_blank _ h

/-- Trimming takes a blank off the start. -/
theorem trim_cons_of_blank {b : Char} (cs : List Char) (h : isBlank b = true) :
    trim (b :: cs) = trim cs := by
  rw [trim, trim, trimStart, trimStart, List.dropWhile_cons_of_pos h]

/-- A text with no blank at either end stays as it is. -/
theorem trim_eq_self {cs : List Char} (hhead : ∀ c, cs.head? = some c → isBlank c = false)
    (hlast : ∀ c, cs.getLast? = some c → isBlank c = false) : trim cs = cs := by
  have hstart : trimStart cs = cs := by
    cases cs with
    | nil => rfl
    | cons c rest => exact List.dropWhile_cons_of_neg (by simp [hhead c rfl])
  rw [trim, hstart]
  rcases List.eq_nil_or_concat' cs with rfl | ⟨front, c, rfl⟩
  · rfl
  · exact trimEnd_concat front (hlast c (by simp))

/-- Is there a character, and no blank at either end? -/
structure Trimmed (cs : List Char) : Prop where
  /-- There is a character. -/
  ne_nil : cs ≠ []
  /-- The first one is no blank, -/
  head : ∀ c, cs.head? = some c → isBlank c = false
  /-- nor is the last one. -/
  last : ∀ c, cs.getLast? = some c → isBlank c = false

/-- What is put together has no blanks at its ends if the first field and the last one have none. -/
theorem trimmed_intercalate {sep first : List Char} {rest : List (List Char)}
    (hfirst : Trimmed first) (hlast : ∀ field, rest.getLast? = some field → Trimmed field) :
    Trimmed (sep.intercalate (first :: rest)) := by
  rcases List.eq_nil_or_concat' rest with rfl | ⟨front, last, rfl⟩
  · rwa [List.intercalate_singleton]
  · have hlast := hlast last (by simp)
    have hline : sep.intercalate (first :: (front ++ [last])) =
        sep.intercalate (first :: front) ++ sep ++ last := by
      rw [← List.cons_append, intercalate_append sep (by simp) (by simp),
        List.intercalate_singleton]
    have hhead : ∃ tail, sep.intercalate (first :: front) = first ++ tail := by
      cases front with
      | nil => exact ⟨[], by simp⟩
      | cons m front => exact ⟨_, by rw [List.intercalate_cons_cons, List.append_assoc]⟩
    obtain ⟨tail, htail⟩ := hhead
    refine ⟨by simp [hline, hlast.ne_nil], fun c hc => ?_, fun c hc => ?_⟩
    · rw [hline, htail, List.append_assoc, List.append_assoc,
        List.head?_append_of_ne_nil _ hfirst.ne_nil] at hc
      exact hfirst.head c hc
    · rw [hline, List.getLast?_append_of_ne_nil _ hlast.ne_nil] at hc
      exact hlast.last c hc

/-! ## Fields -/

variable {sep : Char}

/-- What is added behind a text without a separator is added to its last field. -/
theorem exists_split_append {bs : List Char} (h : sep ∉ bs) (cs : List Char) :
    ∃ front last, split sep cs = front ++ [last] ∧ split sep (cs ++ bs) = front ++ [last ++ bs] := by
  induction cs with
  | nil => exact ⟨[], [], rfl, split_of_not_mem h⟩
  | cons c cs ih =>
    obtain ⟨front, last, hfields, hadded⟩ := ih
    by_cases hc : c = sep
    · refine ⟨[] :: front, last, ?_, ?_⟩
      · rw [split, if_pos hc, hfields]
        rfl
      · rw [List.cons_append, split, if_pos hc, hadded]
        rfl
    · cases front with
      | nil =>
        refine ⟨[], c :: last, ?_, ?_⟩
        · rw [split, if_neg hc, hfields]
          rfl
        · rw [List.cons_append, split, if_neg hc, hadded]
          rfl
      | cons field front =>
        refine ⟨(c :: field) :: front, last, ?_, ?_⟩
        · rw [split, if_neg hc, hfields]
          rfl
        · rw [List.cons_append, split, if_neg hc, hadded]
          rfl

/-- Blanks at the end of a text do not show in its trimmed fields. -/
theorem map_trim_split_append (cs : List Char) {bs : List Char} (h : sep ∉ bs)
    (hblank : ∀ b ∈ bs, isBlank b = true) :
    (split sep (cs ++ bs)).map trim = (split sep cs).map trim := by
  obtain ⟨front, last, hfields, hadded⟩ := exists_split_append h cs
  rw [hfields, hadded, List.map_append, List.map_append, List.map_singleton, List.map_singleton,
    trim_append_of_blank last hblank]

/-- Nor does a blank at the start. -/
theorem map_trim_split_cons {b : Char} (h : b ≠ sep) (hblank : isBlank b = true)
    (cs : List Char) : (split sep (b :: cs)).map trim = (split sep cs).map trim := by
  rw [split, if_neg h]
  cases hfields : split sep cs with
  | nil => exact absurd hfields (split_ne_nil sep cs)
  | cons field fields =>
    change trim (b :: field) :: fields.map trim = trim field :: fields.map trim
    rw [trim_cons_of_blank field hblank]

/-- Cutting at bars what was put together with blanks around them gives the fields back, up to
blanks at their ends. -/
theorem map_trim_split_intercalate {cells : List (List Char)} (hne : cells ≠ [])
    (h : ∀ cell ∈ cells, '|' ∉ cell) :
    (split '|' ([' ', '|', ' '].intercalate cells)).map trim = cells.map trim := by
  induction cells with
  | nil => exact absurd rfl hne
  | cons cell rest ih =>
    have hcell : '|' ∉ cell := h cell (List.mem_cons_self ..)
    cases rest with
    | nil => rw [List.intercalate_singleton, split_of_not_mem hcell]
    | cons next rest =>
      have hfield : '|' ∉ cell ++ [' '] := by simpa using hcell
      have htrim : trim (cell ++ [' ']) = trim cell :=
        trim_append_of_blank cell (isBlank_of_mem_spaces 1)
      have hline : [' ', '|', ' '].intercalate (cell :: next :: rest) =
          (cell ++ [' ']) ++ '|' :: (' ' :: [' ', '|', ' '].intercalate (next :: rest)) := by
        simp [List.intercalate_cons_cons]
      rw [hline, split_append hfield, List.map_cons, List.map_cons,
        map_trim_split_cons (by decide) (by decide),
        ih (by simp) fun c hc => h c (List.mem_cons_of_mem _ hc), htrim]

/-! ## Lines -/

/-- The text of some lines has these lines, and an empty one behind the last line feed. -/
theorem splitLines_unlines {lines : List String} (h : ∀ line ∈ lines, '\n' ∉ line.toList) :
    splitLines (unlines lines).toList = lines.map String.toList ++ [[]] := by
  rw [splitLines, unlines]
  induction lines with
  | nil => rfl
  | cons line rest ih =>
    have hline : '\n' ∉ line.toList := h line (List.mem_cons_self ..)
    have htext : (String.join ((line :: rest).map (· ++ "\n"))).toList =
        line.toList ++ '\n' :: (String.join (rest.map (· ++ "\n"))).toList := by
      rw [List.map_cons, String.join_cons, String.toList_append, String.toList_append,
        List.append_assoc]
      rfl
    rw [htext, split_append hline, ih fun l hl => h l (List.mem_cons_of_mem _ hl)]
    rfl

end LRTables.Text
