import LRTables.Proofs.Grammar.WellFormed
import LRTables.Proofs.Outcome
import Mathlib.Data.List.Forall2

/-!
# Valid grammars

What a grammar that was read has to do with the lines of its text.  Reading lines is reading those
that say something, one after the other, each under its own number, and so the numbers of the
productions rise with the lines that they stand on.

* `Grammar.readLines_iff` — the rules of a text are those of the lines that are not skipped.
* `Grammar.Valid` — a grammar that can be worked with, and where its productions stand.
* `Grammar.valid_of_parse` — every grammar that is read is valid.
-/

namespace LRTables.Grammar

/-! ## Names as runs of characters -/

/-- Is the word one or more characters from `low` to `high`, and nothing else? -/
def RunOf (low high : Char) (word : String) : Prop :=
  word.toList ≠ [] ∧ ∀ c ∈ word.toList, low ≤ c ∧ c ≤ high

instance (low high : Char) (word : String) : Decidable (RunOf low high word) :=
  @instDecidableAnd _ _ _ (List.decidableBAll (fun c => low ≤ c ∧ c ≤ high) word.toList)

theorem isNonterminalName_iff (word : String) :
    isNonterminalName word = true ↔ RunOf 'a' 'z' word := by
  simp [isNonterminalName, RunOf]

theorem isTerminalName_iff (word : String) : isTerminalName word = true ↔ RunOf 'A' 'Z' word := by
  simp [isTerminalName, RunOf]

/-! ## Lines that say something -/

/-- Is the line one that says something: neither blank nor a comment? -/
def Speaks (line : List Char) : Prop :=
  line.head? ≠ some '#' ∧ ∃ c ∈ line, Text.isBlank c = false

theorem isSkipped_eq_false_iff (line : List Char) : isSkipped line = false ↔ Speaks line := by
  simp [isSkipped, Speaks]

/-- Some lines with their numbers, those that are skipped left out. -/
def speaking (number : Nat) (lines : List (List Char)) : List (List Char × Nat) :=
  (lines.zipIdx number).filter fun e => !isSkipped e.1

theorem speaking_cons_of_skipped {text : List Char} (number : Nat) (rest : List (List Char))
    (h : isSkipped text = true) : speaking number (text :: rest) = speaking (number + 1) rest := by
  simp [speaking, h]

theorem speaking_cons_of_speaks {text : List Char} (number : Nat) (rest : List (List Char))
    (h : isSkipped text = false) :
    speaking number (text :: rest) = (text, number) :: speaking (number + 1) rest := by
  simp [speaking, h]

/-- **Reading lines is reading those that say something**, each under its number. -/
theorem readLines_iff {lines : List (List Char)} {number : Nat} {rules : List RuleLine} :
    readLines number lines = .ok rules ↔
      List.Forall₂ (fun e r => RuleLine.read e.2 e.1 = .ok r) (speaking number lines) rules := by
  induction lines generalizing number rules with
  | nil => simp [readLines, speaking, eq_comm]
  | cons text rest ih =>
    by_cases hskip : isSkipped text = true
    · rw [readLines, if_pos hskip, speaking_cons_of_skipped number rest hskip]
      exact ih
    · rw [Bool.not_eq_true] at hskip
      rw [readLines, hskip, speaking_cons_of_speaks number rest hskip, List.forall₂_cons_left_iff]
      simp only [Bool.false_eq_true, if_false]
      cases hread : RuleLine.read number text with
      | error e => simp
      | ok r =>
        constructor
        · intro h
          obtain ⟨others, hrest, rfl⟩ := map_eq_ok_iff.1 h
          exact ⟨r, others, rfl, ih.1 hrest, rfl⟩
        · rintro ⟨r', others, hr', hothers, rfl⟩
          rw [ih.2 hothers, Except.ok.inj hr']
          rfl

/-- A line with its number is one of those that say something. -/
theorem mem_speaking_iff {number : Nat} {lines : List (List Char)} {e : List Char × Nat} :
    e ∈ speaking number lines ↔ e ∈ lines.zipIdx number ∧ Speaks e.1 := by
  simp [speaking, List.mem_filter, isSkipped_eq_false_iff]

/-- Every rule that is read stands on its line, and every line that says something is read. -/
theorem mem_of_readLines {lines : List (List Char)} {number : Nat} {rules : List RuleLine}
    (h : readLines number lines = .ok rules) :
    (∀ r ∈ rules, ∃ cs, (cs, r.number) ∈ lines.zipIdx number ∧ Speaks cs ∧
      RuleLine.read r.number cs = .ok r) ∧
    ∀ e ∈ lines.zipIdx number, Speaks e.1 → ∃ r ∈ rules, RuleLine.read e.2 e.1 = .ok r := by
  have hmem : (∀ r ∈ rules, ∃ e ∈ speaking number lines, RuleLine.read e.2 e.1 = .ok r) ∧
      ∀ e ∈ speaking number lines, ∃ r ∈ rules, RuleLine.read e.2 e.1 = .ok r := by
    have hread := readLines_iff.1 h
    clear h
    generalize speaking number lines = said at hread
    induction hread with
    | nil => simp
    | cons hr _ ih =>
      refine ⟨List.forall_mem_cons.2 ⟨⟨_, List.mem_cons_self .., hr⟩, fun r hmem => ?_⟩,
        List.forall_mem_cons.2 ⟨⟨_, List.mem_cons_self .., hr⟩, fun e he => ?_⟩⟩
      · obtain ⟨e, he, hread⟩ := ih.1 r hmem
        exact ⟨e, List.mem_cons_of_mem _ he, hread⟩
      · obtain ⟨r, hmem, hread⟩ := ih.2 e he
        exact ⟨r, List.mem_cons_of_mem _ hmem, hread⟩
  refine ⟨fun r hr => ?_, fun e he hs => hmem.2 e (mem_speaking_iff.2 ⟨he, hs⟩)⟩
  obtain ⟨⟨cs, n⟩, he, hread⟩ := hmem.1 r hr
  obtain ⟨hzip, hspeaks⟩ := mem_speaking_iff.1 he
  obtain rfl : r.number = n := (RuleLine.read_ok hread).1
  exact ⟨cs, hzip, hspeaks, hread⟩

/-- Every line that says something is read, under some number. -/
theorem exists_read_of_mem {lines : List (List Char)} {number : Nat} {rules : List RuleLine}
    (h : readLines number lines = .ok rules) {cs : List Char} (hcs : cs ∈ lines)
    (hs : Speaks cs) : ∃ k, ∃ r ∈ rules, RuleLine.read k cs = .ok r := by
  rw [← List.zipIdx_map_fst number lines] at hcs
  obtain ⟨e, he, rfl⟩ := List.mem_map.1 hcs
  exact ⟨e.2, (mem_of_readLines h).2 e he hs⟩

/-- The numbers of the rules are those of their lines, and so they rise. -/
theorem pairwise_numbers {lines : List (List Char)} {number : Nat} {rules : List RuleLine}
    (h : readLines number lines = .ok rules) :
    (rules.map RuleLine.number).Pairwise (· < ·) := by
  have hnumbers : rules.map RuleLine.number = (speaking number lines).map Prod.snd := by
    have hread := readLines_iff.1 h
    clear h
    generalize speaking number lines = said at hread
    induction hread with
    | nil => rfl
    | cons hr _ ih => rw [List.map_cons, List.map_cons, (RuleLine.read_ok hr).1, ih]
  have hrise : ((lines.zipIdx number).map Prod.snd).Pairwise (· < ·) := by
    rw [List.zipIdx_map_snd]
    exact List.pairwise_lt_range'
  rw [hnumbers]
  exact hrise.sublist (List.filter_sublist.map _)

/-! ## The numbers of productions -/

/-- The number of the line of each production of some rules. -/
def productionNumbers (rules : List RuleLine) : List Nat :=
  rules.flatMap fun r => r.alternatives.map fun _ => r.number

theorem map_line_productions (rules : List RuleLine) :
    (rules.flatMap RuleLine.productions).map Production.line =
      (productionNumbers rules).map some := by
  simp only [productionNumbers, RuleLine.productions, List.map_flatMap, List.map_map,
    Function.comp_def]

/-- Rules in the order of their lines have productions in the order of their lines. -/
theorem pairwise_productionNumbers {rules : List RuleLine}
    (h : (rules.map RuleLine.number).Pairwise (· < ·)) :
    (productionNumbers rules).Pairwise (· ≤ ·) := by
  rw [productionNumbers, List.pairwise_flatMap]
  constructor
  · -- the alternatives of one rule stand on one line
    intro r _
    rw [List.pairwise_map]
    exact List.pairwise_of_forall fun _ _ => Nat.le_refl _
  · refine (List.pairwise_map.1 h).imp fun hlt n hn m hm => ?_
    obtain ⟨-, -, rfl⟩ := List.mem_map.1 hn
    obtain ⟨-, -, rfl⟩ := List.mem_map.1 hm
    exact Nat.le_of_lt hlt

/-! ## Validity -/

/-- **A valid grammar**, read from the given lines. -/
structure Valid (lines : List (List Char)) (g : Grammar) : Prop where
  /-- There is a production. -/
  ne_nil : g ≠ []
  /-- Left sides are runs of small letters. -/
  lhs : ∀ p ∈ g, RunOf 'a' 'z' p.lhs
  /-- Right sides hold something. -/
  rhs_ne_nil : ∀ p ∈ g, p.rhs ≠ []
  /-- A symbol on a right side is a non-terminal in small letters, a terminal in capitals, or the
  terminal that stands for the empty string. -/
  symbols : ∀ p ∈ g, ∀ x ∈ p.rhs, (∃ n, x = .nonterminal n ∧ RunOf 'a' 'z' n) ∨
    (∃ n, x = .terminal n ∧ RunOf 'A' 'Z' n) ∨ x = .terminal epsilon
  /-- The name of the empty string has no company. -/
  epsilon_alone : ∀ p ∈ g, ∀ x ∈ p.rhs, x.name = epsilon → p.rhs = [x]
  /-- Every non-terminal on a right side is on some left side. -/
  defined : ∀ p ∈ g, ∀ n, .nonterminal n ∈ p.rhs → ∃ q ∈ g, q.lhs = n
  /-- Every production has the number of a line that says something, counted from one on, and the
  numbers never fall. -/
  numbered : ∃ numbers : List Nat, g.map Production.line = numbers.map some ∧
    numbers.Pairwise (· ≤ ·) ∧
    ∀ n ∈ numbers, ∃ k line, n = k + 1 ∧ lines[k]? = some line ∧ Speaks line

/-- A name of its class is a run of letters or that of the empty string. -/
theorem wellNamed_cases {x : Symbol} (h : x.WellNamed) :
    (∃ n, x = .nonterminal n ∧ RunOf 'a' 'z' n) ∨ (∃ n, x = .terminal n ∧ RunOf 'A' 'Z' n) ∨
      x = .terminal epsilon := by
  cases x with
  | nonterminal n => exact Or.inl ⟨n, rfl, (isNonterminalName_iff n).1 h⟩
  | terminal n =>
    rcases h with rfl | h
    · exact Or.inr (Or.inr rfl)
    · exact Or.inr (Or.inl ⟨n, rfl, (isTerminalName_iff n).1 h⟩)

/-- Only the terminal that stands for the empty string has its name. -/
theorem eq_epsilon_of_name {x : Symbol} (h : x.WellNamed) (hname : x.name = epsilon) :
    x = .terminal epsilon :=
  h.eq_of_name_eq (y := .terminal epsilon) (Or.inl rfl) hname

/-- Every production has the number of a line that says something. -/
theorem exists_line_of_mem {lines : List (List Char)} {rules : List RuleLine}
    (h : readLines 1 lines = .ok rules) {n : Nat} (hn : n ∈ productionNumbers rules) :
    ∃ k line, n = k + 1 ∧ lines[k]? = some line ∧ Speaks line := by
  obtain ⟨r, hr, hnr⟩ := List.mem_flatMap.1 hn
  obtain ⟨-, -, rfl⟩ := List.mem_map.1 hnr
  obtain ⟨line, hzip, hspeaks, -⟩ := (mem_of_readLines h).1 r hr
  obtain ⟨hle, hget⟩ := List.mem_zipIdx_iff_le_and_getElem?_sub.1 hzip
  exact ⟨r.number - 1, line, (Nat.sub_add_cancel hle).symm, hget, hspeaks⟩

/-- **Every grammar that is read is valid**, and its productions have the numbers of the lines
that they stand on. -/
theorem valid_of_parse {text : String} {g : Grammar} (h : parse text = .ok g) :
    g.Valid (Text.splitLines (Text.normalizeNewlines text.toList)) := by
  have hg := wellFormed_of_parse h
  refine ⟨hg.ne_nil, fun p hp => (isNonterminalName_iff _).1 (hg.lhs p hp), hg.rhs_ne_nil,
    fun p hp x hx => wellNamed_cases (hg.wellNamed p hp x hx), ?_, hg.defined, ?_⟩
  · intro p hp x hx hname
    obtain rfl := eq_epsilon_of_name (hg.wellNamed p hp x hx) hname
    exact hg.epsilon_alone p hp hx
  · obtain ⟨rules, hread, -, -, rfl⟩ := ofLines_ok h
    exact ⟨productionNumbers rules, map_line_productions rules,
      pairwise_productionNumbers (pairwise_numbers hread),
      fun n hn => exists_line_of_mem hread hn⟩

/-- A comment, a blank line and a line of a tab and an information separator count as lines, and
so does each of the three line ends. -/
theorem valid_of_parse_of_comments :
    ∃ g, parse "# two rules\r\n\ns ---> a B | C\r\t\x1c\na ---> * | A" = .ok g ∧
      g.Valid ["# two rules".toList, [], "s ---> a B | C".toList, ['\t', '\x1c'],
        "a ---> * | A".toList] ∧
      g.map Production.line = [some 3, some 3, some 5, some 5] := by
  obtain ⟨g, hparse, hlines⟩ := exists_ok_of_any
    (e := parse "# two rules\r\n\ns ---> a B | C\r\t\x1c\na ---> * | A")
    (P := fun g : Grammar => decide (g.map Production.line = [some 3, some 3, some 5, some 5]))
    (by decide +kernel)
  have hvalid := valid_of_parse hparse
  have htext : Text.splitLines (Text.normalizeNewlines
      "# two rules\r\n\ns ---> a B | C\r\t\x1c\na ---> * | A".toList) =
      ["# two rules".toList, [], "s ---> a B | C".toList, ['\t', '\x1c'],
        "a ---> * | A".toList] := by decide +kernel
  rw [htext] at hvalid
  exact ⟨g, hparse, hvalid, of_decide_eq_true hlines⟩

end LRTables.Grammar
