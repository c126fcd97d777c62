import LRTables.CommandLine.Disk

/-!
# Writing and reading back

Whether a text can be written depends on the path and the disk alone.  What was written is read back
from the same path: the file stands at the end of the way, and every place on the way is a
directory, so that no way leads past it that was not there before.

* `Disk.Writable` — can a file be written at the end of a path?
* `Disk.exists_save_iff` — the paths that a text is saved to.
* `Disk.read_of_save` — what is read of a text that was saved.
-/

namespace LRTables.CommandLine

theorem Path.hasNull_eq_false_iff {p : Path} :
    p.hasNull = false ↔ ∀ name ∈ p.parts, '\x00' ∉ name.toList := by
  simp [Path.hasNull, String.contains_char_eq]

namespace Disk

variable {d d' : Disk} {p : Path} {place last : Place}

/-! ## Files at places -/

/-- The disk with a file at a place. -/
def withFile (d : Disk) (place : Place) (octets : List UInt8) : Disk :=
  { d with nodes := d.nodes.insert place (.file octets) }

/-- The root is a directory. -/
@[simp] theorem node?_nil (d : Disk) : d.node? [] = some .directory := rfl

theorem node?_withFile_self (hplace : place ≠ []) (octets : List UInt8) :
    (d.withFile place octets).node? place = some (.file octets) := by
  simp [node?, withFile, hplace]

theorem node?_withFile_of_ne (hne : place ≠ last) (octets : List UInt8) :
    (d.withFile last octets).node? place = d.node? place := by
  simp [node?, withFile, Ne.symm hne]

/-- A file at the end of a way, where there was no directory, leaves the way as it is. -/
theorem follow_withFile {names : List String} (h : d.follow place names = .ok last)
    (hlast : d.node? last ≠ some .directory) (octets : List UInt8) :
    (d.withFile last octets).follow place names = .ok last := by
  induction names generalizing place with
  | nil => exact h
  | cons name rest ih =>
    rw [follow] at h ⊢
    cases hnode : d.node? place with
    | none => simp [hnode] at h
    | some n =>
      cases n with
      | file o => simp [hnode] at h
      | directory =>
        -- The way leads on from here, so this is a directory and not where the file is.
        have hne : place ≠ last := fun heq => hlast (heq ▸ hnode)
        rw [node?_withFile_of_ne hne, hnode]
        simp only [hnode] at h
        simp only
        by_cases hup : name = ".."
        · rw [if_pos hup] at h ⊢
          exact ih h
        · rw [if_neg hup] at h ⊢
          by_cases hlong : maxName < name.utf8ByteSize
          · simp [hlong] at h
          · rw [if_neg hlong] at h ⊢
            exact ih h

theorem locate_withFile (h : d.locate p = .ok last) (hlast : d.node? last ≠ some .directory)
    (octets : List UInt8) : (d.withFile last octets).locate p = .ok last := by
  rw [locate] at h ⊢
  by_cases hlong : maxPath < p.toText.utf8ByteSize
  · simp [hlong] at h
  · rw [if_neg hlong] at h ⊢
    exact follow_withFile h hlast octets

/-! ## Writing -/

/-- What a file is written to: a path without a null character, which leads somewhere but not to a
directory. -/
theorem write_eq_ok_iff {octets : List UInt8} :
    d.write p octets = .ok d' ↔
      p.hasNull = false ∧
        ∃ place, d.locate p = .ok place ∧ d.node? place ≠ some .directory ∧
          d' = d.withFile place octets := by
  unfold write
  cases hnull : p.hasNull with
  | true => simp
  | false =>
    cases hlocate : d.locate p with
    | error cause => simp
    | ok place =>
      cases hnode : d.node? place with
      | none => simp [hnode, withFile, eq_comm]
      | some n => cases n <;> simp [hnode, withFile, eq_comm]

/-- What is read: a path without a null character, which leads to a file. -/
theorem read_eq_ok_iff {octets : List UInt8} :
    d.read p = .ok octets ↔ p.hasNull = false ∧ d.lookup p = .ok (.file octets) := by
  unfold read
  cases p.hasNull with
  | true => simp
  | false =>
    cases d.lookup p with
    | error cause => simp
    | ok n => cases n <;> simp

/-- What was written is read. -/
theorem read_of_write {octets : List UInt8} (h : d.write p octets = .ok d') :
    d'.read p = .ok octets := by
  obtain ⟨hnull, place, hlocate, hnode, rfl⟩ := write_eq_ok_iff.1 h
  have hplace : place ≠ [] := fun heq => hnode (heq ▸ d.node?_nil)
  refine read_eq_ok_iff.2 ⟨hnull, ?_⟩
  simp only [lookup, locate_withFile hlocate hnode octets, bind, Except.bind,
    node?_withFile_self hplace]

/-! ## Saving -/

/-- **Can a file be written at the end of a path?**  The directories above it are there or can be
made, and then it does not lead to a directory. -/
structure Writable (d : Disk) (p : Path) : Prop where
  /-- The path can lead somewhere. -/
  hasNull : p.hasNull = false
  /-- The directories can be made, and the path leads to no directory. -/
  above : ∃ d' place, d.makeDirectories p.parent = .ok d' ∧ d'.locate p = .ok place ∧
    d'.node? place ≠ some .directory

/-- **The paths that a text is saved to** do not depend on the text. -/
theorem exists_save_iff (text : String) : (∃ d', d.save p text = (d', .ok ())) ↔ d.Writable p := by
  constructor
  · rintro ⟨d', h⟩
    unfold save at h
    split at h
    · simp at h
    · rename_i above habove
      split at h
      · simp at h
      · rename_i d'' hwrite
        obtain ⟨hnull, place, hlocate, hnode, -⟩ := write_eq_ok_iff.1 hwrite
        exact ⟨hnull, above, place, habove, hlocate, hnode⟩
  · rintro ⟨hnull, above, place, habove, hlocate, hnode⟩
    have hwrite :
        above.write p text.toUTF8.toList = .ok (above.withFile place text.toUTF8.toList) :=
      write_eq_ok_iff.2 ⟨hnull, place, hlocate, hnode, rfl⟩
    exact ⟨above.withFile place text.toUTF8.toList, by simp only [save, habove, hwrite]⟩

/-- **What was saved is read.** -/
theorem read_of_save {text : String} (h : d.save p text = (d', .ok ())) :
    d'.read p = .ok text.toUTF8.toList := by
  unfold save at h
  split at h
  · simp at h
  · split at h
    · simp at h
    · rename_i d'' hwrite
      rw [← show d'' = d' from congrArg Prod.fst h]
      exact read_of_write hwrite

end Disk

end LRTables.CommandLine
