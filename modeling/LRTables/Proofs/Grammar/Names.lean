import LRTables.Proofs.Grammar.Document
import LRTables.Proofs.Text.Columns

/-!
# Names in texts

The names of a grammar, its end marker and the numbers of states are texts without blanks, bars and
dots.  They can be put between those and found again.

* `Text.Solid` — a text without blanks, bars and dots.
* `Grammar.solid_of_runOf`, `Text.solid_toString` — names and numbers are solid.
* `Text.number?_toString` — numbers are read back.
-/

namespace LRTables

namespace Text

/-- Is there a character, and no blank, bar or dot? -/
def Solid (cs : List Char) : Prop :=
  cs ≠ [] ∧ ∀ c ∈ cs, isBlank c = false ∧ c ≠ '|' ∧ c ≠ '.'

instance (cs : List Char) : Decidable (Solid cs) :=
  @instDecidableAnd _ _ _
    (List.decidableBAll (fun c => isBlank c = false ∧ c ≠ '|' ∧ c ≠ '.') cs)

variable {cs : List Char}

theorem Solid.append {ds : List Char} (hcs : Solid cs) (hds : Solid ds) : Solid (cs ++ ds) :=
  ⟨by simp [hcs.1], fun c hc => (List.mem_append.1 hc).elim (hcs.2 c) (hds.2 c)⟩

theorem Solid.not_mem (h : Solid cs) {c : Char} (hc : isBlank c = true) : c ∉ cs := by
  intro hmem
  rw [(h.2 c hmem).1] at hc
  exact absurd hc (by simp)

theorem Solid.trimmed (h : Solid cs) : Trimmed cs where
  ne_nil := h.1
  head := fun c hc => (h.2 c (List.mem_of_mem_head? hc)).1
  last := fun c hc => (h.2 c (List.mem_of_getLast? hc)).1

/-- A solid text can stand in a column. -/
theorem Solid.isCell (h : Solid cs) : IsCell cs :=
  ⟨fun c hc => ⟨(h.2 c hc).2.1, fun hblank => absurd hc (h.not_mem hblank)⟩,
    h.trimmed.head, h.trimmed.last⟩

/-- What is printed in ASCII, and is no bar and no dot, is solid. -/
theorem solid_of_graphic (hne : cs ≠ [])
    (h : ∀ c ∈ cs, ('!' ≤ c ∧ c ≤ '~') ∧ c ≠ '|' ∧ c ≠ '.') : Solid cs := by
  refine ⟨hne, fun c hc => ?_⟩
  obtain ⟨hgraphic, hbar, hdot⟩ := h c hc
  exact ⟨(Grammar.isWordChar_of_graphic hgraphic hbar).2, hbar, hdot⟩

/-! ## Numbers -/

theorem toList_toString (n : Nat) : (toString n).toList = Nat.toDigits 10 n := by
  change n.repr.toList = _
  rw [Nat.repr_eq_ofList_toDigits, String.toList_ofList]

theorem isDigit_of_mem_toString {n : Nat} {c : Char} (hc : c ∈ (toString n).toList) :
    c.isDigit = true := by
  rw [toList_toString] at hc
  exact Nat.isDigit_of_mem_toDigits (by decide) (by decide) hc

/-- The number that some digits spell. -/
def number? (cs : List Char) : Option Nat :=
  if cs ≠ [] ∧ cs.all Char.isDigit then some (Nat.ofDigitChars 10 cs 0) else none

/-- Numbers are read back. -/
@[simp] theorem number?_toString (n : Nat) : number? (toString n).toList = some n := by
  have hdigits : (toString n).toList.all Char.isDigit = true :=
    List.all_eq_true.2 fun _ => isDigit_of_mem_toString
  have hne : (toString n).toList ≠ [] := by
    rw [toList_toString]
    exact Nat.toDigits_ne_nil
  rw [number?, if_pos ⟨hne, hdigits⟩, toList_toString, Nat.ofDigitChars_ten_toDigits]

theorem toString_injective : Function.Injective (toString : Nat → String) := by
  intro m n h
  have hread := number?_toString m
  rw [h, number?_toString] at hread
  exact (Option.some.inj hread).symm

/-- Numbers are solid. -/
theorem solid_toString (n : Nat) : Solid (toString n).toList := by
  refine solid_of_graphic (by rw [toList_toString]; exact Nat.toDigits_ne_nil) fun c hc => ?_
  have hdigit := isDigit_of_mem_toString hc
  simp only [Char.isDigit, Bool.and_eq_true, decide_eq_true_eq] at hdigit
  have hlow : '0' ≤ c := hdigit.1
  have hhigh : c ≤ '9' := hdigit.2
  refine ⟨⟨Char.le_trans (by decide) hlow, Char.le_trans hhigh (by decide)⟩, ?_, ?_⟩
  · rintro rfl
    exact absurd hhigh (by decide)
  · rintro rfl
    exact absurd hlow (by decide)

end Text

/-! ## Names -/

namespace Grammar

/-- A run of letters is solid. -/
theorem solid_of_runOf {low high : Char} {w : String} (h : RunOf low high w) (hlow : 'A' ≤ low)
    (hhigh : high ≤ 'z') : Text.Solid w.toList := by
  refine Text.solid_of_graphic h.1 fun c hc => ?_
  obtain ⟨hgraphic, hbar⟩ := graphic_of_runOf h (Char.le_trans (by decide) hlow) hhigh c hc
  refine ⟨hgraphic, hbar, ?_⟩
  rintro rfl
  exact absurd (Char.le_trans hlow (h.2 _ hc).1) (by decide)

theorem solid_endMarker : Text.Solid endMarker.toList := by decide

/-- The name of a symbol is solid. -/
theorem solid_name {x : Symbol} (h : x.WellNamed) : Text.Solid x.name.toList := by
  rcases wellNamed_cases h with ⟨n, rfl, hn⟩ | ⟨n, rfl, hn⟩ | rfl
  · exact solid_of_runOf hn (by decide) (by decide)
  · exact solid_of_runOf hn (by decide) (by decide)
  · decide

variable {g : Grammar}

/-- So are the names on both sides of a production. -/
theorem WellFormed.solid_of_mem (hg : g.WellFormed) {p : Production} (hp : p ∈ g) :
    Text.Solid p.lhs.toList ∧ ∀ n ∈ p.rhsNames, Text.Solid n.toList := by
  refine ⟨solid_of_runOf ((isNonterminalName_iff _).1 (hg.lhs p hp)) (by decide) (by decide), ?_⟩
  intro n hn
  obtain ⟨x, hx, rfl⟩ := List.mem_map.1 hn
  exact solid_name (hg.wellNamed p hp x hx)

/-- And those of the new start symbol and its production. -/
theorem WellFormed.solid_of_mem_augmented (hg : g.WellFormed) {p : Production}
    (hp : p ∈ g.augmented) :
    Text.Solid p.lhs.toList ∧ ∀ n ∈ p.rhsNames, Text.Solid n.toList := by
  rcases List.mem_cons.1 hp with rfl | hp
  · obtain ⟨q, hq, hstart⟩ := hg.exists_start
    have hsolid : Text.Solid g.start.toList := hstart ▸ (hg.solid_of_mem hq).1
    refine ⟨?_, fun n hn => ?_⟩
    · rw [startProduction, String.toList_append]
      exact hsolid.append (by decide)
    · rw [List.mem_singleton.1 hn]
      exact hsolid
  · exact hg.solid_of_mem hp

theorem WellFormed.solid_terminal (hg : g.WellFormed) {n : String} (hn : n ∈ g.terminals) :
    Text.Solid n.toList := by
  obtain ⟨p, hp, hname⟩ := List.mem_flatMap.1 hn
  obtain ⟨x, hx, rfl⟩ := List.mem_map.1 hname
  exact solid_name (hg.wellNamed p hp x (List.mem_filter.1 hx).1)

theorem WellFormed.solid_nonterminal (hg : g.WellFormed) {n : String}
    (hn : n ∈ g.nonterminals) : Text.Solid n.toList := by
  obtain ⟨p, hp, rfl⟩ := hg.exists_production hn
  exact (hg.solid_of_mem hp).1

end Grammar

end LRTables
