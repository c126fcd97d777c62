import LRTables.Automaton.Dot
import LRTables.Proofs.Text.Replace
import Mathlib.Data.List.Basic
import Mathlib.Data.List.TakeWhile

/-!
# Labels between double quotes

What stands between the double quotes of a graph is a text with its backslashes, double quotes and
line feeds escaped.  The escapes can be undone, and a text in which they can be undone has no line
feed in it and no double quote that would end it early.

* `Dot.unescape`, `Dot.unescape_escape` — the text that was escaped.
* `Dot.WellQuoted`, `Dot.wellQuoted_of_unescape` — nothing ends the quoted text early.
* `Dot.escape_eq_replaceEscaped` — escaping is three replacements, backslashes first.
* `Dot.labelled_statement` — the labels of statements.
-/

namespace LRTables.Dot

/-! ## Undoing the escapes -/

/-- The text whose escaped form is given: a backslash is followed by what it stands for, and double
quotes and line feeds stand nowhere else. -/
def unescape : List Char → Option (List Char)
  | [] => some []
  | ['\\'] => none
  | '\\' :: c :: rest =>
    if c = '\\' ∨ c = '\x22' then (c :: ·) <$> unescape rest
    else if c = 'n' then ('\n' :: ·) <$> unescape rest
    else none
  | c :: rest => if c = '\x22' ∨ c = '\n' then none else (c :: ·) <$> unescape rest

theorem unescape_cons {c : Char} (hslash : c ≠ '\\') (hquote : c ≠ '\x22') (hfeed : c ≠ '\n')
    (rest : List Char) : unescape (c :: rest) = (c :: ·) <$> unescape rest := by
  rw [unescape, if_neg (not_or.2 ⟨hquote, hfeed⟩)]
  · exact fun h _ => hslash h
  · exact fun _ _ h _ => hslash h

/-- The escapes are undone exactly. -/
theorem unescape_flatMap (cs : List Char) : unescape (cs.flatMap escapeChar) = some cs := by
  induction cs with
  | nil => rfl
  | cons c cs ih =>
    rw [List.flatMap_cons]
    by_cases hslash : c = '\\'
    · subst hslash
      simp [escapeChar, unescape, ih]
    by_cases hquote : c = '\x22'
    · subst hquote
      simp [escapeChar, unescape, ih]
    by_cases hfeed : c = '\n'
    · subst hfeed
      simp [escapeChar, unescape, ih]
    have hchar : escapeChar c = [c] := by simp [escapeChar, hslash, hquote, hfeed]
    rw [hchar, List.singleton_append, unescape_cons hslash hquote hfeed, ih]
    rfl

/-- **The text of a label is read back.** -/
theorem unescape_escape (s : String) : unescape (escape s).toList = some s.toList := by
  rw [escape, String.toList_ofList, unescape_flatMap]

/-! ## Staying between the quotes -/

/-- How many backslashes a text ends in. -/
def backslashes (cs : List Char) : Nat := (cs.reverse.takeWhile (· = '\\')).length

/-- Is there no line feed, and an odd number of backslashes right before every double quote? -/
def WellQuoted (cs : List Char) : Prop :=
  '\n' ∉ cs ∧ ∀ before after, cs = before ++ '\x22' :: after → backslashes before % 2 = 1

theorem backslashes_append (front cs : List Char) :
    backslashes (front ++ cs) =
      if backslashes cs = cs.length then cs.length + backslashes front else backslashes cs := by
  unfold backslashes
  rw [List.reverse_append, List.takeWhile_append, List.length_reverse, apply_ite List.length,
    List.length_append, List.length_reverse]

theorem backslashes_cons {c : Char} (h : c ≠ '\\') (cs : List Char) :
    backslashes (c :: cs) = backslashes cs := by
  have hfront : backslashes [c] = 0 := by simp [backslashes, h]
  rw [← List.singleton_append, backslashes_append, hfront]
  split <;> omega

/-- A backslash and what it escapes do not make an odd number even. -/
theorem backslashes_escaped (c : Char) (cs : List Char) :
    backslashes ('\\' :: c :: cs) % 2 = backslashes cs % 2 := by
  have hfront : backslashes ['\\', c] % 2 = 0 := by
    by_cases h : c = '\\' <;> simp [backslashes, h]
  have happend := backslashes_append ['\\', c] cs
  rw [List.cons_append, List.singleton_append] at happend
  rw [happend]
  split <;> omega

variable {cs : List Char} {c : Char}

/-- A character that need not be escaped can be put in front, -/
theorem WellQuoted.cons (h : WellQuoted cs) (hslash : c ≠ '\\') (hquote : c ≠ '\x22')
    (hfeed : c ≠ '\n') : WellQuoted (c :: cs) := by
  refine ⟨by simp [h.1, hfeed.symm], fun before after hcs => ?_⟩
  cases before with
  | nil => exact absurd (List.cons.inj hcs).1 hquote
  | cons d before =>
    obtain ⟨rfl, hrest⟩ := List.cons.inj hcs
    rw [backslashes_cons hslash]
    exact h.2 before after hrest

/-- and so can a backslash with a character behind it. -/
theorem WellQuoted.escaped (h : WellQuoted cs) (hfeed : c ≠ '\n') :
    WellQuoted ('\\' :: c :: cs) := by
  refine ⟨by simp [h.1, hfeed.symm], fun before after hcs => ?_⟩
  match before with
  | [] => exact absurd (List.cons.inj hcs).1 (by decide)
  | [d] =>
    obtain ⟨rfl, -⟩ := List.cons.inj hcs
    rfl
  | d :: e :: before =>
    obtain ⟨rfl, htail⟩ := List.cons.inj hcs
    obtain ⟨rfl, hrest⟩ := List.cons.inj htail
    rw [backslashes_escaped]
    exact h.2 before after hrest

/-- **A text in which the escapes can be undone is well quoted.** -/
theorem wellQuoted_of_unescape {raw : List Char} (h : unescape cs = some raw) : WellQuoted cs := by
  induction cs using unescape.induct generalizing raw with
  | case1 => exact ⟨List.not_mem_nil, by simp⟩
  | case2 => simp [unescape] at h
  | case3 c rest hc ih =>
    rw [unescape, if_pos hc] at h
    obtain ⟨raw, hrest, -⟩ := Option.map_eq_some_iff.1 h
    exact (ih hrest).escaped (by rcases hc with rfl | rfl <;> decide)
  | case4 rest hn ih =>
    rw [unescape, if_neg hn, if_pos rfl] at h
    obtain ⟨raw, hrest, -⟩ := Option.map_eq_some_iff.1 h
    exact (ih hrest).escaped (by decide)
  | case5 c rest hc hn => simp [unescape, hc, hn] at h
  | case6 c rest hlone hslash hc => simp [unescape, hc] at h
  | case7 c rest hlone hslash hc ih =>
    have hne : c ≠ '\\' := by
      rintro rfl
      cases rest with
      | nil => exact hlone rfl rfl
      | cons d rest => exact hslash d rest rfl rfl
    rw [not_or] at hc
    rw [unescape_cons hne hc.1 hc.2] at h
    obtain ⟨raw, hrest, -⟩ := Option.map_eq_some_iff.1 h
    exact (ih hrest).cons hne hc.1 hc.2

/-! ## Escaping by replacing -/

/-- The text with its backslashes doubled, then a backslash in front of its double quotes, and then
a backslash and a letter in the place of its line feeds. -/
def replaceEscaped (cs : List Char) : List Char :=
  Text.replaceAll ['\n'] ['\\', 'n'] (Text.replaceAll ['\x22'] ['\\', '\x22']
    (Text.replaceAll ['\\'] ['\\', '\\'] cs))

/-- **Escaping is replacing three times.**  The later replacements leave the backslashes alone that
the earlier ones put in. -/
theorem escape_eq_replaceEscaped (s : String) : (escape s).toList = replaceEscaped s.toList := by
  rw [escape, String.toList_ofList, replaceEscaped, Text.replaceAll_singleton,
    Text.replaceAll_singleton, Text.replaceAll_singleton, List.flatMap_assoc, List.flatMap_assoc]
  refine List.flatMap_congr fun c _ => ?_
  by_cases hslash : c = '\\'
  · subst hslash
    rfl
  by_cases hquote : c = '\x22'
  · subst hquote
    rfl
  by_cases hfeed : c = '\n'
  · subst hfeed
    rfl
  simp [escapeChar, hslash, hquote, hfeed]

/-! ## Statements -/

/-- Is the line a statement about the subject with the text as its label?  Between the quotes stands
the text after the replacements, it is well quoted, and the text can be read from it. -/
def Labelled (subject text line : String) : Prop :=
  ∃ label, line = "    " ++ subject ++ " [ label=\"" ++ label ++ "\" ]" ∧
    label.toList = replaceEscaped text.toList ∧ WellQuoted label.toList ∧
    unescape label.toList = some text.toList

/-- **Statements are labelled with their texts**, whatever these hold. -/
theorem labelled_statement (subject text : String) :
    Labelled subject text (statement subject text) :=
  ⟨escape text, rfl, escape_eq_replaceEscaped text, wellQuoted_of_unescape (unescape_escape text),
    unescape_escape text⟩

end LRTables.Dot
