/-!
# Fields

Cutting a text at every occurrence of a separator, and putting the fields together
again.  A text has one field more than it has separators.

* `join_split` — cutting a text loses nothing.
* `split_join` — fields without separators come back as they were put together.
-/

namespace LRTables.Text

/-- The fields of a text: what stands between the separators. -/
def split (sep : Char) : List Char → List (List Char)
  | [] => [[]]
  | c :: rest =>
    if c = sep then [] :: split sep rest
    else match split sep rest with
      | [] => [[c]]
      | field :: fields => (c :: field) :: fields

/-- The fields with a separator between neighbours. -/
def join (sep : Char) : List (List Char) → List Char
  | [] => []
  | [field] => field
  | field :: fields => field ++ sep :: join sep fields

/-- There is always a first field. -/
theorem split_ne_nil (sep : Char) (cs : List Char) : split sep cs ≠ [] := by
  cases cs with
  | nil => simp [split]
  | cons c rest =>
    unfold split
    split
    · simp
    · split <;> simp

/-- Cutting a text loses nothing. -/
theorem join_split (sep : Char) (cs : List Char) : join sep (split sep cs) = cs := by
  induction cs with
  | nil => rfl
  | cons c rest ih =>
    unfold split
    split
    · rename_i h
      subst h
      cases hs : split c rest with
      | nil => exact absurd hs (split_ne_nil c rest)
      | cons field fields => simpa [join, hs] using ih
    · cases hs : split sep rest with
      | nil => exact absurd hs (split_ne_nil sep rest)
      | cons field fields =>
        rw [hs] at ih
        cases fields with
        | nil => simpa [join] using ih
        | cons f fs => simpa [join] using ih

/-- A text without separators is its only field. -/
theorem split_of_not_mem {sep : Char} {field : List Char} (h : sep ∉ field) :
    split sep field = [field] := by
  induction field with
  | nil => rfl
  | cons c rest ih =>
    rw [List.mem_cons, not_or] at h
    rw [split, if_neg (Ne.symm h.1), ih h.2]

/-- A field and a separator in front of a text are a field in front of its fields. -/
theorem split_append {sep : Char} {field : List Char} (h : sep ∉ field) (rest : List Char) :
    split sep (field ++ sep :: rest) = field :: split sep rest := by
  induction field with
  | nil => rw [List.nil_append, split, if_pos rfl]
  | cons c cs ih =>
    rw [List.mem_cons, not_or] at h
    rw [List.cons_append, split, if_neg (Ne.symm h.1), ih h.2]

/-- Fields without separators come back as they were put together. -/
theorem split_join {sep : Char} {fields : List (List Char)} (ne : fields ≠ [])
    (h : ∀ field ∈ fields, sep ∉ field) : split sep (join sep fields) = fields := by
  induction fields with
  | nil => exact absurd rfl ne
  | cons field rest ih =>
    cases rest with
    | nil => exact split_of_not_mem (h field List.mem_cons_self)
    | cons next more =>
      have hrest : ∀ f ∈ next :: more, sep ∉ f := fun f hf => h f (List.mem_cons_of_mem _ hf)
      have hjoin : join sep (field :: next :: more) = field ++ sep :: join sep (next :: more) := rfl
      rw [hjoin, split_append (h field List.mem_cons_self), ih (by simp) hrest]

/-- No field holds a separator. -/
theorem not_mem_of_mem_split {sep : Char} {cs field : List Char} (h : field ∈ split sep cs) :
    sep ∉ field := by
  induction cs generalizing field with
  | nil => simp_all [split]
  | cons c rest ih =>
    unfold split at h
    split at h
    · rcases List.mem_cons.1 h with rfl | h
      · simp
      · exact ih h
    · rename_i hc
      cases hs : split sep rest with
      | nil => exact absurd hs (split_ne_nil sep rest)
      | cons f fs =>
        rw [hs] at h ih
        rcases List.mem_cons.1 h with rfl | h
        · have hc' : ¬ sep = c := fun e => hc e.symm
          simpa [hc'] using ih List.mem_cons_self
        · exact ih (List.mem_cons_of_mem _ h)

end LRTables.Text
