import LRTables.Proofs.Text.Replace
import LRTables.Text.Lines

/-!
# Line ends

Lines can be put together with any of the three line ends between neighbours, a different one at
each place.  Normalizing the text gives the lines with line feeds between them, as long as the line
ends can be told apart: a carriage return and a line feed with nothing but an empty line between
them look like one line end.

* `Text.joinWith` — lines put together with a choice of line ends.
* `Text.Separable` — can the line ends be told apart?
* `Text.normalizeNewlines_joinWith` — line ends do not matter.
* `Text.normalizeNewlines_eq_replaceNewlines` — normalizing is replacing twice.
-/

namespace LRTables.Text

/-- A line end. -/
inductive LineEnd where
  /-- A line feed. -/
  | lf
  /-- A carriage return and a line feed. -/
  | crlf
  /-- A carriage return. -/
  | cr
  deriving DecidableEq, Repr

/-- The characters of a line end. -/
def LineEnd.toChars : LineEnd → List Char
  | .lf => ['\n']
  | .crlf => ['\r', '\n']
  | .cr => ['\r']

/-- Lines with a line end behind each but the last, chosen by the index of the line. -/
def joinWith (ends : Nat → LineEnd) : List (List Char) → List Char
  | [] => []
  | [line] => line
  | line :: next :: rest =>
    line ++ ((ends 0).toChars ++ joinWith (fun k => ends (k + 1)) (next :: rest))

/-- Can the line ends be told apart?  Between a carriage return and a line feed there has to be
more than an empty line. -/
def Separable (ends : Nat → LineEnd) (lines : List (List Char)) : Prop :=
  ∀ k, k + 2 < lines.length → ends k = .cr → lines[k + 1]? = some [] → ends (k + 1) ≠ .lf

instance (ends : Nat → LineEnd) (lines : List (List Char)) : Decidable (Separable ends lines) :=
  decidable_of_iff (∀ k < lines.length - 2, ends k = .cr → lines[k + 1]? = some [] →
      ends (k + 1) ≠ .lf)
    (forall_congr' fun _ => by rw [Nat.lt_sub_iff_add_lt])

/-- Line feeds can always be told apart. -/
theorem separable_lf (lines : List (List Char)) : Separable (fun _ => .lf) lines :=
  fun _ _ hcr => absurd hcr (by simp)

theorem Separable.tail {ends : Nat → LineEnd} {line : List Char} {rest : List (List Char)}
    (h : Separable ends (line :: rest)) : Separable (fun k => ends (k + 1)) rest := by
  intro k hk hcr hempty
  exact h (k + 1) (by rw [List.length_cons]; omega) hcr (by simpa using hempty)

/-! ## Normalizing -/

/-- What holds no carriage return stays in front. -/
theorem normalizeNewlines_append {line : List Char} (h : '\r' ∉ line) (rest : List Char) :
    normalizeNewlines (line ++ rest) = line ++ normalizeNewlines rest := by
  induction line with
  | nil => rfl
  | cons c cs ih =>
    rw [List.mem_cons, not_or] at h
    rw [List.cons_append, List.cons_append, ← ih h.2]
    have hc : c ≠ '\r' := Ne.symm h.1
    rw [normalizeNewlines]
    · exact fun _ e _ => hc e
    · exact fun e => hc e

/-- A carriage return is a line end of its own if no line feed follows. -/
theorem normalizeNewlines_cr {rest : List Char} (h : rest.head? ≠ some '\n') :
    normalizeNewlines ('\r' :: rest) = '\n' :: normalizeNewlines rest := by
  rw [normalizeNewlines]
  rintro more rfl
  exact h rfl

/-- Where the line ends can be told apart, no line feed follows a carriage return. -/
theorem Separable.head?_joinWith {ends : Nat → LineEnd} {line next : List Char}
    {rest : List (List Char)} (h : Separable ends (line :: next :: rest)) (hcr : ends 0 = .cr)
    (hnext : '\n' ∉ next) :
    (joinWith (fun k => ends (k + 1)) (next :: rest)).head? ≠ some '\n' := by
  cases next with
  | cons c cs =>
    have hc : c ≠ '\n' := fun e => hnext (e ▸ List.mem_cons_self ..)
    cases rest with
    | nil => simpa [joinWith] using hc
    | cons third rest => simpa [joinWith] using hc
  | nil =>
    cases rest with
    | nil => simp [joinWith]
    | cons third rest =>
      -- the line end behind the empty line does not begin with a line feed
      have hne : ends 1 ≠ .lf := h 0 (by simp) hcr rfl
      cases hend : ends 1 with
      | lf => exact absurd hend hne
      | crlf => simp [joinWith, hend, LineEnd.toChars]
      | cr => simp [joinWith, hend, LineEnd.toChars]

/-- **Line ends do not matter** where they can be told apart: normalizing makes line feeds of
all of them. -/
theorem normalizeNewlines_joinWith {ends : Nat → LineEnd} {lines : List (List Char)}
    (hfree : ∀ line ∈ lines, '\r' ∉ line ∧ '\n' ∉ line) (h : Separable ends lines) :
    normalizeNewlines (joinWith ends lines) = joinLines lines := by
  induction lines generalizing ends with
  | nil => rfl
  | cons line lines ih =>
    have hline := (hfree line (List.mem_cons_self ..)).1
    cases lines with
    | nil => exact normalizeNewlines_of_not_mem hline
    | cons next rest =>
      have hrest : ∀ l ∈ next :: rest, '\r' ∉ l ∧ '\n' ∉ l :=
        fun l hl => hfree l (List.mem_cons_of_mem _ hl)
      have ih := ih hrest h.tail
      have hjoin : joinLines (line :: next :: rest) = line ++ '\n' :: joinLines (next :: rest) :=
        rfl
      rw [joinWith, normalizeNewlines_append hline, hjoin, ← ih]
      congr 1
      cases hend : ends 0 with
      | lf =>
        have hfeed : '\r' ∉ ['\n'] := by decide
        exact normalizeNewlines_append hfeed _
      | crlf => rfl
      | cr =>
        have hhead := h.head?_joinWith hend (hrest next (List.mem_cons_self ..)).2
        exact normalizeNewlines_cr hhead

/-! ## Replacing twice -/

/-- Line feeds for the pairs of a carriage return and a line feed, and then for the carriage
returns that are left. -/
def replaceNewlines (cs : List Char) : List Char :=
  replaceAll ['\r'] ['\n'] (replaceAll ['\r', '\n'] ['\n'] cs)

/-- **Normalizing is replacing twice.**  No carriage return that the first replacement leaves is
taken for a part of a line end that it made. -/
theorem normalizeNewlines_eq_replaceNewlines (cs : List Char) :
    normalizeNewlines cs = replaceNewlines cs := by
  rw [replaceNewlines, replaceAll_singleton]
  fun_induction normalizeNewlines cs with
  | case1 rest ih =>
    rw [ih]
    rfl
  | case2 rest hne ih =>
    have hnot : ['\r', '\n'].isPrefixOf ('\r' :: rest) = false := by
      cases rest with
      | nil => rfl
      | cons c cs =>
        have hc : ¬ '\n' = c := fun e => hne cs (by rw [e])
        simp [List.isPrefixOf, hc]
    rw [ih, replaceAll, replaceAll, replaceFrom, hnot]
    rfl
  | case3 c rest hpair hcr ih =>
    have hc : ¬ '\r' = c := fun e => hcr e.symm
    have hnot : ['\r', '\n'].isPrefixOf (c :: rest) = false := by simp [List.isPrefixOf, hc]
    rw [ih, replaceAll, replaceAll, replaceFrom, hnot]
    have hc' : ¬ c = '\r' := hcr
    simp [hc']
  | case4 => rfl

end LRTables.Text
