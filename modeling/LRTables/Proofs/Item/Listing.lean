import LRTables.Item.Basic
import LRTables.Proofs.Grammar.Names
import LRTables.Proofs.Outcome
import Mathlib.Data.List.TakeDrop

/-!
# Items on lines

The line of an item is its left side, an arrow, the right side with a dot in it, and the look-ahead,
with a blank between neighbours and four in front of the look-ahead.  Where all names are solid the
line can be cut at its blanks, and no name is mistaken for the dot.

* `Item.names`, `Item.Printable` — the names of an item, and when they can be told apart.
* `Item.read?`, `Item.Printable.read?_toText` — one item is read back from its line.
* `Item.readListing?_listing` — the items of a state are read back from their lines.
-/

namespace LRTables

namespace Item

/-- What the line of an item shows: the names, and where the dot stands. -/
structure Names where
  /-- The name on the left. -/
  lhs : String
  /-- The names on the right. -/
  rhs : List String
  /-- How many of them stand before the dot. -/
  dot : Nat
  /-- The name that may follow. -/
  look : String
  deriving DecidableEq, Repr

/-- The names of an item. -/
def names (i : Item) : Names := ⟨i.lhs, i.rhsNames, i.dot, i.look⟩

/-- Can the names of the item be told apart on its line, and its dot among them? -/
structure Printable (i : Item) : Prop where
  /-- The name on the left is solid. -/
  lhs : Text.Solid i.lhs.toList
  /-- Those on the right are, -/
  rhs : ∀ n ∈ i.rhsNames, Text.Solid n.toList
  /-- and the look-ahead is. -/
  look : Text.Solid i.look.toList
  /-- The dot is not beyond the end. -/
  dot_le : i.dot ≤ i.rhs.length

/-- The right side as it is shown, with its dot. -/
def shown (i : Item) : List (List Char) :=
  ((i.rhsNames.take i.dot ++ "." :: i.rhsNames.drop i.dot)).map String.toList

/-- What stands between the blanks of an item's line. -/
def fields (i : Item) : List (List Char) :=
  i.lhs.toList :: "--->".toList :: (i.shown ++ [[], [], [], i.look.toList])

/-- The names that some fields show. -/
def ofFields? : List (List Char) → Option Names
  | lhs :: _ :: rest =>
    match rest.span (· ≠ []) with
    | (shown, [_, _, _, look]) =>
      some ⟨.ofList lhs, (shown.erase ['.']).map .ofList, shown.idxOf ['.'], .ofList look⟩
    | _ => none
  | _ => none

/-- The names that the line of an item shows. -/
def read? (line : List Char) : Option Names := ofFields? (Text.split ' ' line)

theorem toList_toText (i : Item) : i.toText.toList = [' '].intercalate i.fields := by
  have hshown : i.shown ≠ [] := by simp [shown]
  have hfields : i.fields =
      [i.lhs.toList, "--->".toList] ++ (i.shown ++ [[], [], [], i.look.toList]) := rfl
  rw [hfields, Text.intercalate_append _ (by simp) (by simp),
    Text.intercalate_append _ hshown (by simp), toText]
  simp [shown, String.toList_intercalate, List.intercalate_cons_cons]

variable {i : Item}

/-- What is shown on the right side are words. -/
theorem Printable.mem_shown (h : i.Printable) {field : List Char} (hfield : field ∈ i.shown) :
    field ≠ [] ∧ ∀ c ∈ field, Text.isBlank c = false := by
  obtain ⟨n, hn, rfl⟩ := List.mem_map.1 hfield
  have hword : ∀ n ∈ i.rhsNames, n.toList ≠ [] ∧ ∀ c ∈ n.toList, Text.isBlank c = false :=
    fun n hn => ⟨(h.rhs n hn).1, fun c hc => ((h.rhs n hn).2 c hc).1⟩
  rcases List.mem_append.1 hn with hn | hn
  · exact hword n (List.mem_of_mem_take hn)
  · rcases List.mem_cons.1 hn with rfl | hn
    · refine ⟨by decide, fun c hc => ?_⟩
      rw [List.mem_singleton.1 hc]
      decide
    · exact hword n (List.mem_of_mem_drop hn)

theorem Printable.not_blank (h : i.Printable) {field : List Char} (hfield : field ∈ i.fields) :
    ∀ c ∈ field, Text.isBlank c = false := by
  have harrow : Text.Solid "--->".toList := by decide
  simp only [fields, List.mem_cons, List.mem_append, List.not_mem_nil, or_false] at hfield
  rcases hfield with rfl | rfl | hshown | rfl | rfl | rfl | rfl
  · exact fun c hc => (h.lhs.2 c hc).1
  · exact fun c hc => (harrow.2 c hc).1
  · exact (h.mem_shown hshown).2
  · simp
  · simp
  · simp
  · exact fun c hc => (h.look.2 c hc).1

/-- The line of an item is cut into its fields. -/
theorem Printable.split_toText (h : i.Printable) : Text.split ' ' i.toText.toList = i.fields := by
  rw [toList_toText, ← Text.join_eq_intercalate, Text.split_join (by simp [fields])]
  intro field hfield hmem
  exact absurd (h.not_blank hfield ' ' hmem) (by decide)

/-- It is a single line, -/
theorem Printable.feed_not_mem (h : i.Printable) : '\n' ∉ i.toText.toList := by
  rw [toList_toText]
  intro hmem
  rcases Text.mem_intercalate hmem with hmem | ⟨field, hfield, hmem⟩
  · exact absurd hmem (by decide)
  · exact absurd (h.not_blank hfield '\n' hmem) (by decide)

/-- with no blanks at its ends. -/
theorem Printable.trimmed_toText (h : i.Printable) : Text.Trimmed i.toText.toList := by
  rw [toList_toText, fields]
  refine Text.trimmed_intercalate h.lhs.trimmed fun field hfield => ?_
  have hlast : ("--->".toList :: (i.shown ++ [[], [], [], i.look.toList])).getLast? =
      some i.look.toList := by
    rw [List.getLast?_cons, List.getLast?_append]
    rfl
  obtain rfl := Option.some.inj (hlast.symm.trans hfield)
  exact h.look.trimmed

/-- **The names of an item are read back from its line.** -/
theorem Printable.read?_toText (h : i.Printable) : read? i.toText.toList = some i.names := by
  have hspan : (i.shown ++ [[], [], [], i.look.toList]).span (· ≠ []) =
      (i.shown, [[], [], [], i.look.toList]) := by
    have hne : ∀ field ∈ i.shown, decide (field ≠ []) = true := fun field hfield =>
      decide_eq_true (h.mem_shown hfield).1
    rw [List.span_eq_takeWhile_dropWhile, List.takeWhile_append_of_pos hne,
      List.dropWhile_append_of_pos hne]
    simp
  -- no name is a dot
  have hdot : ['.'] ∉ (i.rhsNames.take i.dot).map String.toList := by
    intro hmem
    obtain ⟨n, hn, hname⟩ := List.mem_map.1 hmem
    have hsolid := h.rhs n (List.mem_of_mem_take hn)
    rw [hname] at hsolid
    exact absurd hsolid (by decide)
  have hshown : i.shown = (i.rhsNames.take i.dot).map String.toList ++
      ['.'] :: (i.rhsNames.drop i.dot).map String.toList := by
    rw [shown, List.map_append, List.map_cons]
    rfl
  have herase : i.shown.erase ['.'] = i.rhsNames.map String.toList := by
    rw [hshown, List.erase_append_right _ hdot, List.erase_cons_head, ← List.map_append,
      List.take_append_drop]
  have hidx : i.shown.idxOf ['.'] = i.dot := by
    rw [hshown, List.idxOf_append_of_notMem hdot, List.idxOf_cons_self, List.length_map,
      List.length_take, Nat.add_zero, rhsNames, List.length_map, Nat.min_eq_left h.dot_le]
  have hnames : (i.rhsNames.map String.toList).map String.ofList = i.rhsNames := by simp
  rw [read?, h.split_toText, fields, ofFields?, hspan]
  simp only [herase, hidx, hnames, String.ofList_toList, names]

/-! ## Listings -/

/-- The names of the items on the lines that are not empty. -/
def readListing? (lines : List (List Char)) : Option (List Names) :=
  (lines.filter (· ≠ [])).mapM read?

/-- The lines of a listing are those of the items, if there are any. -/
theorem splitLines_listing {items : List Item} (hne : items ≠ []) (h : ∀ i ∈ items, i.Printable) :
    Text.splitLines (listing items).toList = items.map fun i => i.toText.toList := by
  have hlines : ("\n".intercalate (items.map toText)).toList =
      ['\n'].intercalate (items.map fun i => i.toText.toList) := by
    rw [String.toList_intercalate, List.map_map]
    rfl
  have htrimmed : Text.Trimmed (['\n'].intercalate (items.map fun i => i.toText.toList)) := by
    obtain ⟨i, rest, rfl⟩ := List.exists_cons_of_ne_nil hne
    refine Text.trimmed_intercalate (h i (List.mem_cons_self ..)).trimmed_toText ?_
    intro field hfield
    obtain ⟨j, hj, rfl⟩ := List.mem_map.1 (List.mem_of_getLast? hfield)
    exact (h j (List.mem_cons_of_mem _ hj)).trimmed_toText
  rw [listing, String.toList_ofList, hlines, Text.trim_eq_self htrimmed.head htrimmed.last,
    Text.splitLines, ← Text.join_eq_intercalate, Text.split_join (by simpa using hne)]
  intro line hline
  obtain ⟨i, hi, rfl⟩ := List.mem_map.1 hline
  exact (h i hi).feed_not_mem

/-- **The names of items are read back from the lines of their listing.** -/
theorem readListing?_listing {items : List Item} (h : ∀ i ∈ items, i.Printable) :
    readListing? (Text.splitLines (listing items).toList) = some (items.map names) := by
  by_cases hne : items = []
  · subst hne
    rfl
  have hfilter : (items.map fun i => i.toText.toList).filter (· ≠ []) =
      items.map fun i => i.toText.toList := by
    refine List.filter_eq_self.2 fun line hline => decide_eq_true ?_
    obtain ⟨i, hi, rfl⟩ := List.mem_map.1 hline
    exact (h i hi).trimmed_toText.ne_nil
  rw [readListing?, splitLines_listing hne h, hfilter]
  exact mapM_map_eq_some fun i hi => (h i hi).read?_toText

end Item

end LRTables
