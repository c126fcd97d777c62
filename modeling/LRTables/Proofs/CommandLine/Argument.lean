import LRTables.CommandLine.Argument
import LRTables.Proofs.Outcome

/-!
# What single arguments say

An option of the list is found by each of its spellings and with a value behind an equals sign.
Whatever else an argument may look like, only options of the list are ever read.

* `classify_of_mem_spellings`, `classify_assign` — arguments that are options.
* `mem_of_classify`, `Cluster.Within.of_cluster` — options that are read are of the list.
-/

namespace LRTables.CommandLine

variable {flags : List Flag} {f : Flag}

/-! ## Spellings -/

/-- No two options share a spelling. -/
theorem Flag.eq_of_mem_spellings (f g : Flag) : ∀ s ∈ f.spellings, s ∈ g.spellings → f = g := by
  cases f <;> cases g <;> decide

/-- A spelling begins with a dash, behind which there is something, is not the two dashes alone, and
has no equals sign. -/
theorem Flag.spellings_shape (f : Flag) :
    ∀ s ∈ f.spellings, s.toList.head? = some '-' ∧ s.toList.tail ≠ [] ∧ s ≠ "--" ∧
      '=' ∉ s.toList := by
  cases f <;> decide

theorem Flag.long_mem_spellings (f : Flag) : f.long ∈ f.spellings := by simp [Flag.spellings]

theorem spelled?_cons (s : String) :
    spelled? (f :: flags) s =
      if s ∈ f.spellings then some (f, decide (f.short? = some s)) else spelled? flags s := by
  have hmem : s ∈ f.spellings ↔ f.short? = some s ∨ f.long = s := by
    simp [Flag.spellings, eq_comm]
  rw [spelled?, List.findSome?_cons]
  by_cases hshort : f.short? = some s
  · simp [hmem, hshort]
  · by_cases hlong : f.long = s
    · simp [hmem, hshort, hlong]
    · simp only [hmem, hshort, hlong, or_self, if_false]
      rfl

/-- An option of the list is found by its spellings. -/
theorem spelled?_of_mem {s : String} (hf : f ∈ flags) (hs : s ∈ f.spellings) :
    spelled? flags s = some (f, decide (f.short? = some s)) := by
  induction flags with
  | nil => cases hf
  | cons e rest ih =>
    rw [spelled?_cons]
    by_cases he : s ∈ e.spellings
    · rw [if_pos he, Flag.eq_of_mem_spellings e f s he hs]
    · have hne : f ≠ e := by
        rintro rfl
        exact he hs
      rw [if_neg he]
      exact ih ((List.mem_cons.1 hf).resolve_left hne)

theorem spelled?_eq_none {s : String} (hs : ∀ e : Flag, s ∉ e.spellings) :
    spelled? flags s = none := by
  induction flags with
  | nil => rfl
  | cons e rest ih => rw [spelled?_cons, if_neg (hs e), ih]

/-- The spelling of an option, with nothing attached. -/
theorem classify_of_mem_spellings {s : String} (hf : f ∈ flags) (hs : s ∈ f.spellings) :
    ∃ isShort, classify flags s = .ok (.flag f isShort .none) := by
  obtain ⟨hhead, htail, -, -⟩ := f.spellings_shape s hs
  obtain ⟨second, rest, hcs⟩ : ∃ second rest, s.toList = '-' :: second :: rest := by
    match hlist : s.toList with
    | [] => simp [hlist] at hhead
    | [_] => simp [hlist] at htail
    | c :: second :: rest =>
      obtain rfl : c = '-' := by simpa [hlist] using hhead
      exact ⟨second, rest, rfl⟩
  refine ⟨decide (f.short? = some s), ?_⟩
  simp only [classify, hcs, spelled?_of_mem hf hs]

/-- An option with its value behind an equals sign, in one argument. -/
def Flag.assign (f : Flag) (value : String) : String := f.long ++ "=" ++ value

theorem splitAssigned_append {cs : List Char} (hcs : '=' ∉ cs) (value : List Char) :
    splitAssigned (cs ++ '=' :: value) = (cs, .assigned value) := by
  have hne : ∀ c ∈ cs, decide (c ≠ '=') = true := fun c hc =>
    decide_eq_true fun heq => hcs (heq ▸ hc)
  have hdrop : (cs ++ '=' :: value).dropWhile (· ≠ '=') = '=' :: value := by
    rw [List.dropWhile_append_of_pos hne]
    simp
  have htake : (cs ++ '=' :: value).takeWhile (· ≠ '=') = cs := by
    rw [List.takeWhile_append_of_pos hne]
    simp
  rw [splitAssigned, hdrop, htake]

theorem toList_assign (f : Flag) (value : String) :
    (f.assign value).toList = '-' :: '-' :: (f.word.toList ++ '=' :: value.toList) := by
  simp [Flag.assign, Flag.long, String.toList_append]

theorem classify_assign (hf : f ∈ flags) (value : String) :
    classify flags (f.assign value) = .ok (.flag f false (.assigned value.toList)) := by
  have hlong := f.spellings_shape f.long f.long_mem_spellings
  have hsplit : splitAssigned (f.assign value).toList =
      (f.long.toList, .assigned value.toList) := by
    rw [Flag.assign, String.append_assoc, String.toList_append, String.toList_append]
    exact splitAssigned_append hlong.2.2.2 value.toList
  have hnone : spelled? flags (f.assign value) = none := by
    refine spelled?_eq_none fun e he => (e.spellings_shape _ he).2.2.2 ?_
    simp [toList_assign]
  have hsome : spelled? flags f.long = some (f, false) := by
    rw [spelled?_of_mem hf f.long_mem_spellings]
    cases f <;> rfl
  rw [toList_assign] at hsplit
  simp only [classify, toList_assign, hsplit, hnone, String.ofList_toList, hsome]

/-! ## Options of the list -/

theorem mem_of_spelled? {s : String} {isShort : Bool} (h : spelled? flags s = some (f, isShort)) :
    f ∈ flags := by
  induction flags with
  | nil => cases h
  | cons e rest ih =>
    rw [spelled?_cons] at h
    by_cases he : s ∈ e.spellings
    · rw [if_pos he] at h
      cases h
      exact List.mem_cons_self ..
    · rw [if_neg he] at h
      exact List.mem_cons_of_mem _ (ih h)

/-- **An option that an argument is found to be** is of the list. -/
theorem mem_of_classify {argument : String} {isShort : Bool} {attached : Attached}
    (h : classify flags argument = .ok (.flag f isShort attached)) : f ∈ flags := by
  unfold classify at h
  simp only at h
  split at h
  · rename_i second rest hcs
    split at h
    · rename_i e short hspelled
      cases h
      exact mem_of_spelled? hspelled
    · rename_i e short hspelled
      cases h
      exact mem_of_spelled? hspelled
    · split at h
      -- A word that is cut short, or a letter.
      · split at h
        · split at h <;> cases h
        · rename_i e hfilter
          cases h
          exact (List.mem_filter.1 (hfilter ▸ List.mem_singleton_self _)).1
        · cases h
      · split at h
        · rename_i e hfind
          cases h
          exact List.mem_of_find?_eq_some hfind
        · split at h <;> cases h
  · cases h

/-- Is an argument that is an option one of the list? -/
def Classified.Within (flags : List Flag) (c : Classified) : Prop :=
  ∀ f isShort attached, c = .flag f isShort attached → f ∈ flags

theorem Classified.Within.of_classifyAll {arguments : List String} {cs : List Classified}
    (h : classifyAll flags arguments = .ok cs) : ∀ c ∈ cs, c.Within flags := by
  induction arguments generalizing cs with
  | nil =>
    cases h
    exact fun c hc => absurd hc (List.not_mem_nil)
  | cons argument rest ih =>
    rw [classifyAll] at h
    split at h
    · cases h
      intro c hc f isShort attached hflag
      rw [hflag] at hc
      simp at hc
    · obtain ⟨c, hc, hrest⟩ := bind_eq_ok_iff.1 h
      obtain ⟨cs', hcs', hcons⟩ := bind_eq_ok_iff.1 hrest
      cases hcons
      refine List.forall_mem_cons.2 ⟨?_, ih hcs'⟩
      rintro f isShort attached rfl
      exact mem_of_classify hc

/-! ## Clusters -/

/-- Are the options of a cluster, with or without a value, those of the list? -/
structure Cluster.Within (flags : List Flag) (c : Cluster) : Prop where
  /-- The options that are complete. -/
  given : ∀ x ∈ c.given, x.1 ∈ flags
  /-- The option that lacks its value. -/
  awaiting : ∀ f, c.awaiting? = some f → f ∈ flags

namespace Cluster.Within

theorem alone (hf : f ∈ flags) : (alone f).Within flags := by
  unfold CommandLine.alone
  split
  · exact ⟨by simp, by simp [hf]⟩
  · exact ⟨by simp [hf], by simp⟩

theorem one (hf : f ∈ flags) (value leftover : Option String) :
    Cluster.Within flags { given := [(f, value)], leftover? := leftover } :=
  ⟨by simp [hf], by simp⟩

theorem cons {c : Cluster} (hc : c.Within flags) (hf : f ∈ flags) : (c.cons f).Within flags :=
  ⟨List.forall_mem_cons.2 ⟨hf, hc.given⟩, hc.awaiting⟩

theorem of_letters {cs : List Char} {c : Cluster} (hf : f ∈ flags)
    (h : letters flags f cs = .ok c) : c.Within flags := by
  fun_induction letters flags f cs generalizing c with
  | case1 => cases h; exact .alone hf
  | case2 => cases h; exact .one hf _ none
  | case3 => cases h
  | case4 => cases h; exact .one hf none _
  | case5 f _ _ _ e hfind =>
    cases h
    exact (Within.one (List.mem_of_find?_eq_some hfind) _ none).cons hf
  | case6 => cases h
  | case7 f c rest _ _ e hfind _ ih =>
    obtain ⟨c', hc', rfl⟩ := map_eq_ok_iff.1 h
    exact (ih (List.mem_of_find?_eq_some hfind) hc').cons hf

/-- **The options that one argument spells** are of the list. -/
theorem of_cluster {isShort : Bool} {attached : Attached} {c : Cluster} (hf : f ∈ flags)
    (h : cluster flags f isShort attached = .ok c) : c.Within flags := by
  unfold cluster at h
  split at h
  · cases h
    exact .alone hf
  · split at h
    · cases h
      exact .one hf _ none
    · cases h
  · split at h
    · exact of_letters hf h
    · cases h

end Cluster.Within

end LRTables.CommandLine
