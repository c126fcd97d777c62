import LRTables.Proofs.Grammar.Scan
import LRTables.Proofs.Grammar.Valid
import LRTables.Proofs.Text.Fields

/-!
# Documents

A document lists what stands on each line of a grammar text: a rule in some layout, or something
that says nothing.  Its text is read back as it was written: a production for each alternative of
each rule, in order, under the number of its line, whatever the layout.

* `Grammar.Rule`, `Grammar.SourceLine` — rules, and what stands on a line.
* `Grammar.Document.Proper` — the documents that can be read.
* `Grammar.parse_document` — reading a document gives its productions.
-/

namespace LRTables.Grammar

/-! ## Rules -/

/-- Is it a symbol other than the empty string, under a name of its class? -/
def Named : Symbol → Prop
  | .nonterminal n => RunOf 'a' 'z' n
  | .terminal n => RunOf 'A' 'Z' n

instance : DecidablePred Named
  | .nonterminal n => inferInstanceAs (Decidable (RunOf 'a' 'z' n))
  | .terminal n => inferInstanceAs (Decidable (RunOf 'A' 'Z' n))

/-- Is it the empty string alone, or one or more named symbols? -/
def IsAlternative (alt : List Symbol) : Prop :=
  alt = [.terminal epsilon] ∨ alt ≠ [] ∧ ∀ x ∈ alt, Named x

instance (alt : List Symbol) : Decidable (IsAlternative alt) :=
  inferInstanceAs (Decidable (_ ∨ _))

/-- A rule, without its place. -/
structure Rule where
  /-- The non-terminal on the left. -/
  lhs : String
  /-- The alternatives on the right. -/
  alternatives : List (List Symbol)
  deriving DecidableEq, Repr

/-- The words of an alternative. -/
def words (alt : List Symbol) : List Lexeme := alt.map fun x => .word x.name

namespace Rule

/-- Is it a rule that can be written down? -/
structure Proper (r : Rule) : Prop where
  /-- The left side is a name in small letters. -/
  lhs : RunOf 'a' 'z' r.lhs
  /-- There is an alternative. -/
  ne_nil : r.alternatives ≠ []
  /-- Every alternative is one. -/
  alternatives : ∀ alt ∈ r.alternatives, IsAlternative alt

theorem proper_iff (r : Rule) : r.Proper ↔ RunOf 'a' 'z' r.lhs ∧ r.alternatives ≠ [] ∧
    ∀ alt ∈ r.alternatives, IsAlternative alt :=
  ⟨fun h => ⟨h.lhs, h.ne_nil, h.alternatives⟩, fun h => ⟨h.1, h.2.1, h.2.2⟩⟩

instance (r : Rule) : Decidable r.Proper := decidable_of_iff' _ r.proper_iff

/-- What stands on the line of a rule: the left side, the arrow, and the alternatives with bars
between them. -/
def lexemes (r : Rule) : List Lexeme :=
  .word r.lhs :: .word arrow :: [Lexeme.bar].intercalate (r.alternatives.map words)

/-- The productions of a rule on the line of a number. -/
def productions (r : Rule) (number : Nat) : List Production :=
  r.alternatives.map fun alt => ⟨r.lhs, alt, some number⟩

end Rule

/-! ## Documents -/

/-- What stands on a line. -/
inductive SourceLine where
  /-- A rule in some layout. -/
  | rule (r : Rule) (layout : Layout)
  /-- Something that says nothing. -/
  | silent (text : List Char)
  deriving DecidableEq, Repr

namespace SourceLine

/-- The characters of the line. -/
def text : SourceLine → List Char
  | .rule _ layout => layout.text
  | .silent text => text

/-- Is the rule laid out properly, or the line blank or a comment? -/
def Proper : SourceLine → Prop
  | .rule r layout => r.Proper ∧ layout.Proper ∧ layout.lexemes = r.lexemes
  | .silent text => (text.head? = some '#' ∨ ∀ c ∈ text, Text.isBlank c = true) ∧
      '\n' ∉ text ∧ '\r' ∉ text

instance : DecidablePred SourceLine.Proper
  | .rule _ _ => inferInstanceAs (Decidable (_ ∧ _))
  | .silent text => @instDecidableAnd _ _
      (@instDecidableOr _ _ _ (List.decidableBAll (fun c => Text.isBlank c = true) text)) _

end SourceLine

namespace Document

/-- The rules of a document, each with the number of its line. -/
def numbered : Nat → List SourceLine → List (Rule × Nat)
  | _, [] => []
  | number, .rule r _ :: rest => (r, number) :: numbered (number + 1) rest
  | number, .silent _ :: rest => numbered (number + 1) rest

/-- The rules of a document. -/
def rules (document : List SourceLine) : List Rule := (numbered 1 document).map Prod.fst

/-- The productions of a document, under the numbers of their lines. -/
def productions (document : List SourceLine) : Grammar :=
  (numbered 1 document).flatMap fun e => e.1.productions e.2

/-- The text of a document: its lines, a line feed between neighbours. -/
def text (document : List SourceLine) : List Char :=
  Text.joinLines (document.map SourceLine.text)

/-- **Is it a document that can be read?** -/
structure Proper (document : List SourceLine) : Prop where
  /-- Every line is one. -/
  lines : ∀ line ∈ document, line.Proper
  /-- There is a rule. -/
  ne_nil : rules document ≠ []
  /-- Every non-terminal on a right side is the left side of some rule. -/
  defined : ∀ r ∈ rules document, ∀ alt ∈ r.alternatives, ∀ n, .nonterminal n ∈ alt →
    ∃ s ∈ rules document, s.lhs = n

theorem proper_iff (document : List SourceLine) : Proper document ↔
    (∀ line ∈ document, line.Proper) ∧ rules document ≠ [] ∧
      ∀ r ∈ rules document, ∀ alt ∈ r.alternatives, ∀ x ∈ alt,
        x.isTerminal = true ∨ ∃ s ∈ rules document, .nonterminal s.lhs = x := by
  constructor
  · refine fun h => ⟨h.lines, h.ne_nil, fun r hr alt halt x hx => ?_⟩
    cases x with
    | terminal n => exact Or.inl rfl
    | nonterminal n =>
      obtain ⟨s, hs, rfl⟩ := h.defined r hr alt halt n hx
      exact Or.inr ⟨s, hs, rfl⟩
  · refine fun h => ⟨h.1, h.2.1, fun r hr alt halt n hn => ?_⟩
    rcases h.2.2 r hr alt halt _ hn with hterminal | ⟨s, hs, heq⟩
    · exact absurd hterminal (by simp [Symbol.isTerminal])
    · exact ⟨s, hs, Symbol.nonterminal.inj heq⟩

instance (document : List SourceLine) : Decidable (Proper document) :=
  decidable_of_iff' _ (proper_iff document)

end Document

/-! ## Characters -/

/-- What is printed in ASCII and is no bar can stand in a word. -/
theorem isWordChar_of_graphic {c : Char} (h : '!' ≤ c ∧ c ≤ '~') (hbar : c ≠ '|') :
    Token.isWordChar c = true ∧ Text.isBlank c = false := by
  have hlow : 33 ≤ c.toNat := h.1
  have hhigh : c.toNat ≤ 126 := h.2
  have hwhite : Text.isWhiteSpace c = false := by
    rw [Text.isWhiteSpace, Bool.eq_false_iff, ne_eq, Text.CharClass.contains_iff]
    simp only [Text.whiteSpace, List.mem_cons, List.not_mem_nil, or_false]
    rintro ⟨r, hr, hle⟩
    rcases hr with rfl | rfl | rfl | rfl | rfl | rfl | rfl | rfl | rfl | rfl <;> simp at hle <;> omega
  refine ⟨by simp [Token.isWordChar, hbar, hwhite], ?_⟩
  rw [Text.isBlank, hwhite, Bool.false_or, Bool.eq_false_iff, ne_eq, Text.CharClass.contains_iff]
  simp only [Text.informationSeparator, List.mem_singleton]
  rintro ⟨r, rfl, hle⟩
  simp at hle
  omega

/-- A character of a name is printed in ASCII and is no bar. -/
theorem graphic_of_runOf {low high : Char} {w : String} (h : RunOf low high w) (hlow : '!' ≤ low)
    (hhigh : high ≤ 'z') : ∀ c ∈ w.toList, ('!' ≤ c ∧ c ≤ '~') ∧ c ≠ '|' := by
  intro c hc
  obtain ⟨hle, hge⟩ := h.2 c hc
  refine ⟨⟨Char.le_trans hlow hle, Char.le_trans (Char.le_trans hge hhigh) (by decide)⟩, ?_⟩
  rintro rfl
  exact absurd (Char.le_trans hge hhigh) (by decide)

theorem isWord_of_runOf {low high : Char} {w : String} (h : RunOf low high w) (hlow : '!' ≤ low)
    (hhigh : high ≤ 'z') : Token.IsWord w.toList :=
  ⟨h.1, fun c hc =>
    (isWordChar_of_graphic (graphic_of_runOf h hlow hhigh c hc).1
      (graphic_of_runOf h hlow hhigh c hc).2).1⟩

/-- A symbol of an alternative is read back from its name, which can stand in a word. -/
theorem symbolOf?_name {alt : List Symbol} (h : IsAlternative alt) {x : Symbol} (hx : x ∈ alt) :
    symbolOf? x.name = some x ∧ Token.IsWord x.name.toList := by
  rcases h with rfl | ⟨-, hnamed⟩
  · obtain rfl := List.mem_singleton.1 hx
    exact ⟨by decide, by decide⟩
  · have hx := hnamed x hx
    cases x with
    | nonterminal n =>
      refine ⟨?_, isWord_of_runOf hx (by decide) (by decide)⟩
      have hn := (isNonterminalName_iff n).2 hx
      rw [Symbol.name_nonterminal, symbolOf?, if_neg (ne_epsilon_of_isNonterminalName hn),
        if_pos hn]
    | terminal n =>
      refine ⟨?_, isWord_of_runOf hx (by decide) (by decide)⟩
      have hn := (isTerminalName_iff n).2 hx
      have hnot : isNonterminalName n = false := by
        by_contra hn'
        rw [not_isTerminalName_of_isNonterminalName (by simpa using hn')] at hn
        exact absurd hn (by simp)
      have hne : n ≠ epsilon := by
        rintro rfl
        exact absurd hn (by decide)
      rw [Symbol.name_terminal, symbolOf?, if_neg hne, hnot, if_neg (by simp), if_pos hn]

/-- Only the empty string alone has its name. -/
theorem length_le_one_of_epsilon {alt : List Symbol} (h : IsAlternative alt) {x : Symbol}
    (hx : x ∈ alt) (hname : x.name = epsilon) : alt.length ≤ 1 := by
  rcases h with rfl | ⟨-, hnamed⟩
  · simp
  · have hx := hnamed x hx
    have hc : '*' ∈ x.name.toList := by
      rw [hname]
      decide
    cases x with
    | nonterminal n => exact absurd (hx.2 _ hc) (by decide)
    | terminal n => exact absurd (hx.2 _ hc) (by decide)

/-! ## Reading a rule -/

/-- **Alternatives are read back**, behind the part of the first one that was read before. -/
theorem exists_readAlternatives {tokens : List Token} {alt : List Symbol}
    {others : List (List Symbol)} {pending : List Occurrence}
    (hread : ∀ a ∈ alt :: others, ∀ x ∈ a, symbolOf? x.name = some x)
    (hne : pending ≠ [] ∨ alt ≠ []) (hothers : ∀ a ∈ others, a ≠ [])
    (htokens : tokens.map Token.toLexeme =
      [Lexeme.bar].intercalate ((alt :: others).map words)) (last : Nat) :
    ∃ alternatives, readAlternatives pending last tokens = .ok alternatives ∧
      alternatives.map (List.map Prod.fst) = (pending.reverse.map Prod.fst ++ alt) :: others := by
  induction tokens generalizing alt others pending last with
  | nil =>
    -- nothing is left of the first alternative, and there is no other
    obtain ⟨rfl, rfl⟩ : alt = [] ∧ others = [] := by
      cases alt with
      | nil =>
        cases others with
        | nil => exact ⟨rfl, rfl⟩
        | cons a rest => simp [words, List.intercalate_cons_cons] at htokens
      | cons x xs =>
        rw [List.map_cons, words, List.map_cons, Text.intercalate_cons_head] at htokens
        simp at htokens
    have hpending : pending.isEmpty = false := by simpa using hne
    exact ⟨[pending.reverse], by simp [readAlternatives, hpending], by simp⟩
  | cons t rest ih =>
    cases alt with
    | cons x xs =>
      rw [List.map_cons, List.map_cons, words, List.map_cons, Text.intercalate_cons_head,
        List.cons.injEq] at htokens
      obtain ⟨hkind, hlexeme⟩ := (t.toLexeme_eq_word_iff x.name).1 htokens.1
      have hx : symbolOf? x.name = some x :=
        hread _ (List.mem_cons_self ..) x (List.mem_cons_self ..)
      obtain ⟨alternatives, hok, hmap⟩ := @ih xs others
        ((x, t.column) :: pending) (by
          intro a ha y hy
          rcases List.mem_cons.1 ha with rfl | ha
          · exact hread _ (List.mem_cons_self ..) y (List.mem_cons_of_mem _ hy)
          · exact hread a (List.mem_cons_of_mem _ ha) y hy)
        (Or.inl (by simp)) hothers htokens.2 t.column
      refine ⟨alternatives, ?_, by simpa using hmap⟩
      simp only [readAlternatives, hkind, hlexeme, hx]
      exact hok
    | nil =>
      cases others with
      | nil => simp [words] at htokens
      | cons a others =>
        simp only [List.map_cons, words, List.map_nil, List.intercalate_cons_cons,
          List.nil_append, List.singleton_append, List.cons.injEq] at htokens
        have hkind := t.toLexeme_eq_bar_iff.1 htokens.1
        have hpending : pending.isEmpty = false := by simpa using hne
        obtain ⟨alternatives, hok, hmap⟩ := @ih a others []
          (fun b hb => hread b (List.mem_cons_of_mem _ hb))
          (Or.inr (hothers a (List.mem_cons_self ..)))
          (fun b hb => hothers b (List.mem_cons_of_mem _ hb)) htokens.2 t.column
        refine ⟨pending.reverse :: alternatives, ?_, by simpa using hmap⟩
        simp only [readAlternatives, hkind, hpending, Bool.false_eq_true, if_false, hok]
        rfl

/-- No empty string of a proper rule is out of place. -/
theorem misplacedEpsilon?_eq_none {alternatives : List (List Occurrence)}
    (h : ∀ alt ∈ alternatives, IsAlternative (alt.map Prod.fst)) :
    misplacedEpsilon? alternatives = none := by
  rw [misplacedEpsilon?, List.findSome?_eq_none_iff]
  intro alt halt
  split
  · rfl
  · rename_i hlong
    rw [List.findSome?_eq_none_iff]
    intro o ho
    rw [if_neg]
    intro hname
    have hle := length_le_one_of_epsilon (h alt halt) (List.mem_map_of_mem ho) hname
    rw [List.length_map] at hle
    exact hlong hle

namespace Rule

variable {r : Rule}

theorem Proper.symbolOf? (h : r.Proper) : ∀ alt ∈ r.alternatives, ∀ x ∈ alt,
    Grammar.symbolOf? x.name = some x :=
  fun alt halt _ hx => (symbolOf?_name (h.alternatives alt halt) hx).1

/-- An alternative holds something. -/
theorem Proper.alternative_ne_nil (h : r.Proper) : ∀ alt ∈ r.alternatives, alt ≠ [] := by
  intro alt halt
  rcases h.alternatives alt halt with rfl | ⟨hne, -⟩
  · simp
  · exact hne

/-- **A rule is read back** from tokens that spell it. -/
theorem Proper.exists_readRule (h : r.Proper) {tokens : List Token}
    (htokens : tokens.map Token.toLexeme = r.lexemes) :
    ∃ alternatives, readRule tokens = .ok (r.lhs, alternatives) ∧
      alternatives.map (List.map Prod.fst) = r.alternatives := by
  obtain ⟨alt, others, halts⟩ := List.exists_cons_of_ne_nil h.ne_nil
  have hread := h.symbolOf?
  have hne := h.alternative_ne_nil
  rw [halts] at hread hne
  obtain ⟨x, xs, rfl⟩ := List.exists_cons_of_ne_nil (hne alt (List.mem_cons_self ..))
  -- there is a left side, an arrow and at least one symbol
  rw [lexemes, halts] at htokens
  obtain ⟨head, tokens, rfl, hhead, htokens⟩ := List.map_eq_cons_iff.1 htokens
  obtain ⟨second, tokens, rfl, hsecond, htokens⟩ := List.map_eq_cons_iff.1 htokens
  have hthird := htokens
  rw [List.map_cons, words, List.map_cons, Text.intercalate_cons_head] at hthird
  obtain ⟨third, rest, rfl, -, -⟩ := List.map_eq_cons_iff.1 hthird
  obtain ⟨hkind, hlhs⟩ := (head.toLexeme_eq_word_iff _).1 hhead
  obtain ⟨-, harrow⟩ := (second.toLexeme_eq_word_iff _).1 hsecond
  obtain ⟨alternatives, hok, hmap⟩ := @exists_readAlternatives _ _ _ [] hread
    (Or.inr (by simp)) (fun a ha => hne a (List.mem_cons_of_mem _ ha)) htokens second.column
  rw [List.reverse_nil, List.map_nil, List.nil_append, ← halts] at hmap
  refine ⟨alternatives, ?_, hmap⟩
  have hmisplaced : misplacedEpsilon? alternatives = none := by
    refine misplacedEpsilon?_eq_none fun alt halt => h.alternatives _ ?_
    rw [← hmap]
    exact List.mem_map_of_mem halt
  have hname : isNonterminalName head.lexeme = true := by
    rw [hlhs]
    exact (isNonterminalName_iff _).2 h.lhs
  have hleft : ¬ (head.kind = .bar ∨ isNonterminalName head.lexeme = false) := by
    simp [hkind, hname]
  rw [readRule, if_neg hleft, if_neg (not_not.2 harrow), hok]
  simp only [bind, Except.bind, hmisplaced, hlhs]

/-- Every word of a rule is one. -/
theorem Proper.isWord (h : r.Proper) : ∀ w, .word w ∈ r.lexemes → Token.IsWord w.toList := by
  intro w hw
  rcases List.mem_cons.1 hw with hw | hw
  · obtain rfl := Lexeme.word.inj hw
    exact isWord_of_runOf h.lhs (by decide) (by decide)
  · rcases List.mem_cons.1 hw with hw | hw
    · obtain rfl := Lexeme.word.inj hw
      decide
    · rcases Text.mem_intercalate hw with hbar | ⟨l, hl, hw⟩
      · exact absurd (List.mem_singleton.1 hbar) (by simp)
      · obtain ⟨alt, halt, rfl⟩ := List.mem_map.1 hl
        obtain ⟨x, hx, hxw⟩ := List.mem_map.1 hw
        obtain rfl := Lexeme.word.inj hxw
        exact (symbolOf?_name (h.alternatives alt halt) hx).2

/-- The line of a rule says something. -/
theorem Proper.isSkipped_eq_false (h : r.Proper) {l : Layout} (hl : l.Proper)
    (hlexemes : l.lexemes = r.lexemes) : isSkipped l.text = false := by
  obtain ⟨p, rest, hpieces, hp, -⟩ := List.map_eq_cons_iff.1 hlexemes
  obtain ⟨c, cs, hcs⟩ := List.exists_cons_of_ne_nil h.lhs.1
  have htext : ∃ more, l.text = p.gap ++ c :: more := by
    refine ⟨cs ++ (rest.flatMap Piece.text ++ l.last), ?_⟩
    rw [Layout.text, hpieces, List.flatMap_cons, Piece.text, hp, Lexeme.toChars_word, hcs]
    simp
  obtain ⟨more, htext⟩ := htext
  have hc : c ∈ r.lhs.toList := by
    rw [hcs]
    exact List.mem_cons_self ..
  have hblank : Text.isBlank c = false :=
    (isWordChar_of_graphic (graphic_of_runOf h.lhs (by decide) (by decide) c hc).1
      (graphic_of_runOf h.lhs (by decide) (by decide) c hc).2).2
  rw [isSkipped_eq_false_iff, htext]
  refine ⟨?_, c, by simp, hblank⟩
  have hgap : IsGap p.gap := hl.gaps p (by rw [hpieces]; exact List.mem_cons_self ..)
  cases hpg : p.gap with
  | nil =>
    intro hhash
    obtain rfl : c = '#' := Option.some.inj hhash
    exact absurd (h.lhs.2 _ hc) (by decide)
  | cons d ds =>
    intro hhash
    obtain rfl : d = '#' := Option.some.inj hhash
    rw [hpg] at hgap
    exact absurd (hgap _ (List.mem_cons_self ..)) (by decide)

/-- A rule is laid out with its words. -/
theorem Proper.spells (h : r.Proper) {l : Layout} (hl : l.Proper) (hlexemes : l.lexemes = r.lexemes) :
    l.Spells l.text := by
  refine ⟨hl, ?_, rfl⟩
  rw [hlexemes]
  exact h.isWord

/-- The line of a rule holds no line end. -/
theorem Proper.not_mem_text (h : r.Proper) {l : Layout} (hl : l.Proper)
    (hlexemes : l.lexemes = r.lexemes) : '\n' ∉ l.text ∧ '\r' ∉ l.text := by
  have hfits := (h.spells hl hlexemes).fits
  exact ⟨fun hc => absurd (hfits _ hc) (by decide), fun hc => absurd (hfits _ hc) (by decide)⟩

end Rule

/-! ## Reading a document -/

/-- Is it the rule, on the line of the number? -/
def RuleLine.Reads (e : Rule × Nat) (r : RuleLine) : Prop :=
  r.number = e.2 ∧ r.lhs = e.1.lhs ∧ r.alternatives.map (List.map Prod.fst) = e.1.alternatives

theorem RuleLine.Reads.productions {e : Rule × Nat} {r : RuleLine} (h : RuleLine.Reads e r) :
    r.productions = e.1.productions e.2 := by
  obtain ⟨hnumber, hlhs, halts⟩ := h
  rw [RuleLine.productions, Rule.productions, ← halts, hnumber, hlhs, List.map_map]
  rfl

/-- The line of a rule is read as the rule. -/
theorem exists_read {r : Rule} {l : Layout} (hr : r.Proper) (hl : l.Proper)
    (hlexemes : l.lexemes = r.lexemes) (number : Nat) :
    ∃ line, RuleLine.read number l.text = .ok line ∧ RuleLine.Reads (r, number) line := by
  have hscan := (hr.spells hl hlexemes).scan number
  obtain ⟨alternatives, hrule, hmap⟩ :=
    hr.exists_readRule ((Layout.map_toLexeme_tokens number l).trans hlexemes)
  refine ⟨⟨number, l.text, r.lhs, alternatives⟩, ?_, rfl, rfl, hmap⟩
  simp only [RuleLine.read, scanLine, hscan, bind, Except.bind, hrule, pure, Except.pure]

namespace Document

variable {document : List SourceLine}

/-- **The lines of a document are read as its rules.** -/
theorem exists_readLines (h : ∀ line ∈ document, line.Proper) (number : Nat) :
    ∃ lines, readLines number (document.map SourceLine.text) = .ok lines ∧
      List.Forall₂ RuleLine.Reads (numbered number document) lines := by
  induction document generalizing number with
  | nil => exact ⟨[], rfl, List.Forall₂.nil⟩
  | cons line document ih =>
    obtain ⟨lines, hlines, hreads⟩ := ih (fun l hl => h l (List.mem_cons_of_mem _ hl)) (number + 1)
    have hline := h line (List.mem_cons_self ..)
    cases line with
    | silent text =>
      have hskip : isSkipped text = true := by
        rw [isSkipped, Bool.or_eq_true, List.all_eq_true, beq_iff_eq]
        exact hline.1
      refine ⟨lines, ?_, hreads⟩
      rw [List.map_cons, SourceLine.text, readLines, if_pos hskip, hlines]
    | rule r l =>
      obtain ⟨hr, hl, hlexemes⟩ := hline
      obtain ⟨first, hfirst, hread⟩ := exists_read hr hl hlexemes number
      refine ⟨first :: lines, ?_, List.Forall₂.cons hread hreads⟩
      rw [List.map_cons, SourceLine.text, readLines, hr.isSkipped_eq_false hl hlexemes,
        if_neg (by simp), hfirst, hlines]
      rfl

/-- No line of a document holds a line end. -/
theorem not_mem_line (h : ∀ line ∈ document, line.Proper) :
    ∀ cs ∈ document.map SourceLine.text, '\n' ∉ cs ∧ '\r' ∉ cs := by
  intro cs hcs
  obtain ⟨line, hline, rfl⟩ := List.mem_map.1 hcs
  have hproper := h line hline
  cases line with
  | silent text => exact hproper.2
  | rule r l =>
    obtain ⟨hr, hl, hlexemes⟩ := hproper
    exact hr.not_mem_text hl hlexemes

/-- The text of a document has its lines. -/
theorem splitLines_text (h : ∀ line ∈ document, line.Proper) (hne : document ≠ []) :
    Text.splitLines (text document) = document.map SourceLine.text :=
  Text.split_join (by simpa using hne) fun cs hcs => (not_mem_line h cs hcs).1

/-- There is no carriage return in the text of a document. -/
theorem normalizeNewlines_text (h : ∀ line ∈ document, line.Proper) :
    Text.normalizeNewlines (text document) = text document := by
  refine Text.normalizeNewlines_of_not_mem fun hr => ?_
  rw [text, Text.joinLines, Text.join_eq_intercalate] at hr
  rcases Text.mem_intercalate hr with hsep | ⟨cs, hcs, hr⟩
  · exact absurd (List.mem_singleton.1 hsep) (by decide)
  · exact (not_mem_line h cs hcs).2 hr

theorem Proper.document_ne_nil (h : Proper document) : document ≠ [] := by
  rintro rfl
  exact h.ne_nil rfl

/-- What was read of the rules of a document. -/
theorem map_of_reads {numbered : List (Rule × Nat)} {lines : List RuleLine}
    (h : List.Forall₂ RuleLine.Reads numbered lines) :
    lines.flatMap RuleLine.productions = numbered.flatMap (fun e => e.1.productions e.2) ∧
      lines.map RuleLine.lhs = (numbered.map Prod.fst).map Rule.lhs ∧
      ∀ line ∈ lines, ∃ e ∈ numbered, RuleLine.Reads e line := by
  induction h with
  | nil => simp
  | cons hread _ ih =>
    obtain ⟨hproductions, hlhs, hmem⟩ := ih
    refine ⟨?_, ?_, ?_⟩
    · rw [List.flatMap_cons, List.flatMap_cons, hread.productions, hproductions]
    · rw [List.map_cons, List.map_cons, List.map_cons, hread.2.1, hlhs]
    · intro line hline
      rcases List.mem_cons.1 hline with rfl | hline
      · exact ⟨_, List.mem_cons_self .., hread⟩
      · obtain ⟨e, he, hr⟩ := hmem line hline
        exact ⟨e, List.mem_cons_of_mem _ he, hr⟩

/-- The lines of a document are its grammar. -/
theorem ofLines_text (h : Proper document) :
    ofLines (document.map SourceLine.text) = .ok (productions document) := by
  obtain ⟨lines, hlines, hreads⟩ := exists_readLines h.lines 1
  obtain ⟨hproductions, hlhs, hmem⟩ := map_of_reads hreads
  have hne : lines.isEmpty = false := by
    rw [List.isEmpty_eq_false_iff]
    rintro rfl
    exact h.ne_nil (List.map_eq_nil_iff.1 hlhs.symm ▸ rfl)
  have hresolved : unresolved? (lines.map RuleLine.lhs) lines = none := by
    simp only [unresolved?, List.findSome?_eq_none_iff]
    intro line hline alt halt o ho
    obtain ⟨e, he, -, -, halts⟩ := hmem line hline
    cases ho1 : o.1 with
    | terminal n => rfl
    | nonterminal n =>
      have halt' : alt.map Prod.fst ∈ e.1.alternatives := by
        rw [← halts]
        exact List.mem_map_of_mem halt
      have hn : .nonterminal n ∈ alt.map Prod.fst := by
        rw [← ho1]
        exact List.mem_map_of_mem ho
      obtain ⟨s, hs, hsn⟩ := h.defined e.1 (List.mem_map_of_mem he) _ halt' n hn
      have hdefined : n ∈ lines.map RuleLine.lhs := by
        rw [hlhs, ← hsn]
        exact List.mem_map_of_mem hs
      simp [hdefined]
  simp only [ofLines, hlines, bind, Except.bind, hne, hresolved, Bool.false_eq_true, if_false,
    hproductions, pure, Except.pure]
  rfl

end Document

/-- **Documents are read back in every layout**: reading the text of a document gives a production
for each alternative of each of its rules, in order, under the number of its line.  It does not
matter which of the three line ends the lines are put together with. -/
theorem parse_document {document : List SourceLine} (h : Document.Proper document) :
    parse (String.ofList (Document.text document)) = .ok (Document.productions document) ∧
      ∀ text : String, Text.normalizeNewlines text.toList = Document.text document →
        parse text = .ok (Document.productions document) := by
  have key : ∀ text : String, Text.normalizeNewlines text.toList = Document.text document →
      parse text = .ok (Document.productions document) := by
    intro text htext
    rw [parse, parseChars, htext, Document.splitLines_text h.lines h.document_ne_nil]
    exact Document.ofLines_text h
  refine ⟨key _ ?_, key⟩
  rw [String.toList_ofList]
  exact Document.normalizeNewlines_text h.lines

/-- A comment and a line of a blank and an information separator stand between rules with tabs,
form feeds and no gap in them, two of them for one non-terminal. -/
theorem parse_document_of_gaps :
    Document.Proper [.silent "# a grammar".toList,
      .rule ⟨"s", [[.nonterminal "a", .terminal "B"], [.terminal "C"]]⟩
        ⟨[⟨['\t'], .word "s"⟩, ⟨[' ', ' '], .word arrow⟩, ⟨['\x0c'], .word "a"⟩,
          ⟨[' '], .word "B"⟩, ⟨[], .bar⟩, ⟨[], .word "C"⟩], [' ']⟩,
      .silent [' ', '\x1c'],
      .rule ⟨"a", [[.terminal epsilon], [.nonterminal "s"]]⟩
        ⟨[⟨[], .word "a"⟩, ⟨['\t'], .word arrow⟩, ⟨[' '], .word "*"⟩, ⟨[' '], .bar⟩,
          ⟨['\x0c', ' '], .word "s"⟩], []⟩,
      .rule ⟨"s", [[.terminal "D"]]⟩
        ⟨[⟨[], .word "s"⟩, ⟨[' '], .word arrow⟩, ⟨[' '], .word "D"⟩], []⟩] ∧
    parse "# a grammar\n\ts  --->\x0ca B|C \n \x1c\na\t---> * |\x0c s\ns ---> D" =
      .ok [⟨"s", [.nonterminal "a", .terminal "B"], some 2⟩, ⟨"s", [.terminal "C"], some 2⟩,
        ⟨"a", [.terminal epsilon], some 4⟩, ⟨"a", [.nonterminal "s"], some 4⟩,
        ⟨"s", [.terminal "D"], some 5⟩] := by
  refine ⟨?proper, (parse_document ?proper).2 _ ?text⟩
  case proper => decide +kernel
  case text => decide +kernel

end LRTables.Grammar
