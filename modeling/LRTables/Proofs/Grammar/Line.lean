import LRTables.Proofs.Grammar.Document

/-!
# What a line says

A line is read exactly when it is a rule in some layout, and what is read of it is the rule, with
the columns where its symbols stand.  If it is none, reading it tells of a place on the line; and
if some character of the line fits nowhere, then of the first such.

* `Grammar.Rule.StandsOn` — the lines that are rules.
* `Grammar.Defines`, `Grammar.Mentions` — what is on the left and on the right side of a line.
* `Grammar.exists_standsOn` — only rules are read.
* `Grammar.mentions_iff`, `Grammar.defines_iff` — what is read of them.
* `Grammar.read_error` — where the fault of a line is.
-/

namespace LRTables.Grammar

/-! ## Rules on lines -/

/-- **Is the line the rule**, laid out in the given way? -/
def Rule.StandsOn (r : Rule) (l : Layout) (cs : List Char) : Prop :=
  (SourceLine.rule r l).Proper ∧ l.text = cs

/-- Is the line a rule in some layout? -/
def IsRule (cs : List Char) : Prop := ∃ r l, Rule.StandsOn r l cs

/-- Is the non-terminal on the left side of the rule on the line? -/
def Defines (cs : List Char) (n : String) : Prop := ∃ r l, Rule.StandsOn r l cs ∧ r.lhs = n

/-- Does the non-terminal stand at the column, on the right side of the rule on the line? -/
def Mentions (cs : List Char) (n : String) (column : Nat) : Prop :=
  ∃ r l, Rule.StandsOn r l cs ∧ RunOf 'a' 'z' n ∧ (.word n, column) ∈ l.placed.drop 2

theorem Rule.StandsOn.spells {r : Rule} {l : Layout} {cs : List Char} (h : r.StandsOn l cs) :
    l.Spells cs := by
  obtain ⟨⟨hr, hl, hlexemes⟩, rfl⟩ := h
  exact hr.spells hl hlexemes

/-- The line of a rule says something. -/
theorem IsRule.speaks {cs : List Char} (h : IsRule cs) : Speaks cs := by
  obtain ⟨r, l, ⟨hr, hl, hlexemes⟩, rfl⟩ := h
  exact (isSkipped_eq_false_iff _).1 (hr.isSkipped_eq_false hl hlexemes)

/-! ## Symbols and their columns -/

/-- What a token on a right side says: the symbol of a word, and where it stands. -/
def occurrence? (t : Token) : Option Occurrence :=
  match t.kind with
  | .bar => none
  | .word => (symbolOf? t.lexeme).map fun x => (x, t.column)

theorem column_of_occurrence? {t : Token} {o : Occurrence} (h : occurrence? t = some o) :
    o.2 = t.column := by
  unfold occurrence? at h
  split at h
  · exact absurd h (by simp)
  · obtain ⟨x, -, rfl⟩ := Option.map_eq_some_iff.1 h
    rfl

theorem name_of_symbolOf? {word : String} {x : Symbol} (h : symbolOf? word = some x) :
    x.name = word := by
  unfold symbolOf? at h
  split at h
  · rename_i heps
    rw [← Option.some.inj h, heps]
    rfl
  · split at h
    · rw [← Option.some.inj h]
      rfl
    · split at h
      · rw [← Option.some.inj h]
        rfl
      · exact absurd h (by simp)

/-- A word stands for a non-terminal exactly when it is a name in small letters. -/
theorem symbolOf?_eq_nonterminal_iff (word n : String) :
    symbolOf? word = some (.nonterminal n) ↔ word = n ∧ RunOf 'a' 'z' n := by
  constructor
  · intro h
    have hword : n = word := name_of_symbolOf? h
    have hnamed : isNonterminalName n = true := wellNamed_of_symbolOf? h
    exact ⟨hword.symm, (isNonterminalName_iff n).1 hnamed⟩
  · rintro ⟨rfl, h⟩
    have hname := (isNonterminalName_iff word).2 h
    rw [symbolOf?, if_neg (ne_epsilon_of_isNonterminalName hname), if_pos hname]

/-- **The alternatives that are read are those that the tokens spell**, behind the part of the
first one that was read before; and their symbols are those of the words. -/
theorem exists_of_readAlternatives {tokens : List Token} {pending : List Occurrence} {last : Nat}
    {alternatives : List (List Occurrence)}
    (h : readAlternatives pending last tokens = .ok alternatives) :
    ∃ alt others, alternatives = (pending.reverse ++ alt) :: others ∧
      tokens.map Token.toLexeme =
        [Lexeme.bar].intercalate ((alt :: others).map fun a => words (a.map Prod.fst)) ∧
      tokens.filterMap occurrence? = (alt :: others).flatten := by
  induction tokens generalizing pending last alternatives with
  | nil =>
    simp only [readAlternatives] at h
    split at h
    · exact absurd h (by simp)
    · obtain rfl := Except.ok.inj h
      exact ⟨[], [], by simp, by simp [words], rfl⟩
  | cons t rest ih =>
    simp only [readAlternatives] at h
    split at h
    · rename_i hkind
      split at h
      · exact absurd h (by simp)
      · obtain ⟨behind, hrest, rfl⟩ := map_eq_ok_iff.1 h
        obtain ⟨alt, others, rfl, hlexemes, hsymbols⟩ := ih hrest
        refine ⟨[], alt :: others, by simp, ?_, ?_⟩
        · rw [List.map_cons, (t.toLexeme_eq_bar_iff).2 hkind, hlexemes]
          simp [words, List.intercalate_cons_cons]
        · rw [List.filterMap_cons_none (by simp [occurrence?, hkind]), hsymbols]
          rfl
    · rename_i hkind
      split at h
      · exact absurd h (by simp)
      · rename_i x hx
        obtain ⟨alt, others, rfl, hlexemes, hsymbols⟩ := ih h
        refine ⟨(x, t.column) :: alt, others, by simp, ?_, ?_⟩
        · have hword := (t.toLexeme_eq_word_iff _).2 ⟨hkind, (name_of_symbolOf? hx).symm⟩
          rw [List.map_cons, hword, hlexemes]
          exact (Text.intercalate_cons_head _ _ _ _).symm
        · have hsymbol : occurrence? t = some (x, t.column) := by
            simp [occurrence?, hkind, hx]
          rw [List.filterMap_cons_some hsymbol, hsymbols]
          rfl

/-- Symbols under names of their classes, the empty string only alone, are an alternative. -/
theorem isAlternative_of_wellNamed {alt : List Symbol} (hne : alt ≠ [])
    (hnamed : ∀ x ∈ alt, x.WellNamed) (halone : ∀ x ∈ alt, x.name = epsilon → alt.length ≤ 1) :
    IsAlternative alt := by
  by_cases h : ∃ x ∈ alt, x.name = epsilon
  · obtain ⟨x, hx, hname⟩ := h
    have hlen : alt.length = 1 :=
      Nat.le_antisymm (halone x hx hname) (List.length_pos_iff.2 hne)
    obtain ⟨y, rfl⟩ := List.length_eq_one_iff.1 hlen
    obtain rfl := List.mem_singleton.1 hx
    refine Or.inl (congrArg (fun y => [y]) ?_)
    exact (hnamed x (List.mem_singleton_self x)).eq_of_name_eq (Or.inl rfl) hname
  · refine Or.inr ⟨hne, fun x hx => ?_⟩
    have hx' := hnamed x hx
    cases x with
    | nonterminal n => exact (isNonterminalName_iff n).1 hx'
    | terminal n =>
      rcases hx' with rfl | hname
      · exact absurd ⟨_, hx, rfl⟩ h
      · exact (isTerminalName_iff n).1 hname

/-! ## Reading a line -/

/-- The sides that tokens say are those of a rule. -/
theorem proper_of_readRule {tokens : List Token} {lhs : String}
    {alternatives : List (List Occurrence)} (h : readRule tokens = .ok (lhs, alternatives)) :
    (Rule.mk lhs (alternatives.map (List.map Prod.fst))).Proper := by
  obtain ⟨hname, hne, halts, heps⟩ := readRule_ok h
  refine ⟨(isNonterminalName_iff _).1 hname, by simpa using hne, ?_⟩
  intro a ha
  obtain ⟨alt, halt, rfl⟩ := List.mem_map.1 ha
  obtain ⟨hne, hnamed⟩ := halts alt halt
  refine isAlternative_of_wellNamed (by simpa using hne) ?_ ?_
  · intro x hx
    obtain ⟨o, ho, rfl⟩ := List.mem_map.1 hx
    exact hnamed o ho
  · intro x hx hxname
    obtain ⟨o, ho, rfl⟩ := List.mem_map.1 hx
    rw [List.length_map]
    exact length_le_one_of_misplacedEpsilon? heps halt ho hxname

/-- Tokens that say a rule spell it, if only bars are spelled like one; and the symbols are those of
the words behind the arrow. -/
theorem lexemes_of_readRule {tokens : List Token} (hbars : ∀ t ∈ tokens, t.lexeme ≠ "|" →
    t.kind = .word) {lhs : String} {alternatives : List (List Occurrence)}
    (h : readRule tokens = .ok (lhs, alternatives)) :
    tokens.map Token.toLexeme = (Rule.mk lhs (alternatives.map (List.map Prod.fst))).lexemes ∧
      alternatives.flatten = (tokens.drop 2).filterMap occurrence? := by
  obtain ⟨head, second, rest, rfl, ⟨hkind, hhead, -⟩, harrow, hread, -⟩ := exists_of_readRule h
  obtain ⟨alt, others, halternatives, hlexemes, hsymbols⟩ := exists_of_readAlternatives hread
  rw [List.reverse_nil, List.nil_append] at halternatives
  have hsecond : second.kind = .word := by
    refine hbars second (by simp) ?_
    rw [harrow]
    decide
  have hfirst := (head.toLexeme_eq_word_iff _).2 ⟨hkind, hhead⟩
  have hnext := (second.toLexeme_eq_word_iff _).2 ⟨hsecond, harrow⟩
  constructor
  · rw [List.map_cons, List.map_cons, hfirst, hnext, hlexemes, Rule.lexemes, halternatives,
      List.map_map]
    rfl
  · rw [halternatives]
    exact hsymbols.symm

/-- Only bars are spelled like one. -/
theorem kind_of_mem_tokens {l : Layout} {number : Nat} {t : Token} (h : t ∈ l.tokens number)
    (hbar : t.lexeme ≠ "|") : t.kind = .word := by
  obtain ⟨⟨x, column⟩, -, rfl⟩ := List.mem_map.1 h
  cases x with
  | bar => exact absurd rfl hbar
  | word w => rfl

/-- **Only rules are read.** -/
theorem exists_standsOn {number : Nat} {cs : List Char} {line : RuleLine}
    (h : RuleLine.read number cs = .ok line) :
    ∃ r l, Rule.StandsOn r l cs ∧ RuleLine.Reads (r, number) line ∧
      line.alternatives.flatten = ((l.tokens number).drop 2).filterMap occurrence? := by
  obtain ⟨hnumber, -, tokens, hscan, hrule⟩ := RuleLine.read_ok h
  rcases Token.scan_cases number cs with ⟨l, hl, htokens⟩ | ⟨before, c, after, -, -, -, herror⟩
  · obtain rfl : tokens = l.tokens number := Except.ok.inj (hscan.symm.trans htokens)
    obtain ⟨hlexemes, hsymbols⟩ := lexemes_of_readRule (fun t ht => kind_of_mem_tokens ht) hrule
    rw [Layout.map_toLexeme_tokens] at hlexemes
    exact ⟨_, l, ⟨⟨proper_of_readRule hrule, hl.proper, hlexemes⟩, hl.text⟩,
      ⟨hnumber, rfl, rfl⟩, hsymbols⟩
  · rw [hscan] at herror
    exact absurd herror (by simp)

theorem isRule_of_read {number : Nat} {cs : List Char} {line : RuleLine}
    (h : RuleLine.read number cs = .ok line) : IsRule cs := by
  obtain ⟨r, l, hstands, -⟩ := exists_standsOn h
  exact ⟨r, l, hstands⟩

/-- What is read of a line does not depend on how it is taken to be laid out. -/
theorem tokens_eq {l l' : Layout} {cs : List Char} (h : l.Spells cs) (h' : l'.Spells cs)
    (number : Nat) : l.tokens number = l'.tokens number :=
  Except.ok.inj ((h.scan number).symm.trans (h'.scan number))

/-- The symbols of a line and their columns, in whatever layout. -/
theorem flatten_of_read {number : Nat} {cs : List Char} {line : RuleLine}
    (h : RuleLine.read number cs = .ok line) {l : Layout} (hl : l.Spells cs) :
    line.alternatives.flatten =
      (l.placed.drop 2).filterMap fun e => occurrence? (e.1.toToken number e.2) := by
  obtain ⟨r, l', hstands, -, hflatten⟩ := exists_standsOn h
  rw [hflatten, tokens_eq hstands.spells hl, Layout.tokens, ← List.map_drop, List.filterMap_map]
  rfl

/-- **The non-terminals on a right side** are those that are read, at their columns. -/
theorem mentions_iff {number : Nat} {cs : List Char} {line : RuleLine}
    (h : RuleLine.read number cs = .ok line) (n : String) (column : Nat) :
    Mentions cs n column ↔ (.nonterminal n, column) ∈ line.alternatives.flatten := by
  have key : ∀ l : Layout, l.Spells cs →
      ((.nonterminal n, column) ∈ line.alternatives.flatten ↔
        RunOf 'a' 'z' n ∧ (.word n, column) ∈ l.placed.drop 2) := by
    intro l hl
    rw [flatten_of_read h hl, List.mem_filterMap]
    constructor
    · rintro ⟨⟨x, k⟩, hx, ho⟩
      cases x with
      | bar => exact absurd ho (by simp [occurrence?, Lexeme.toToken])
      | word w =>
        obtain ⟨x, hsymbol, hpair⟩ := Option.map_eq_some_iff.1 ho
        obtain ⟨rfl, rfl⟩ := Prod.mk.inj hpair
        obtain ⟨rfl, hrun⟩ := (symbolOf?_eq_nonterminal_iff w n).1 hsymbol
        exact ⟨hrun, hx⟩
    · rintro ⟨hrun, hx⟩
      refine ⟨(.word n, column), hx, ?_⟩
      simp [occurrence?, Lexeme.toToken, (symbolOf?_eq_nonterminal_iff n n).2 ⟨rfl, hrun⟩]
  constructor
  · rintro ⟨r, l, hstands, hrun, hmem⟩
    exact (key l hstands.spells).2 ⟨hrun, hmem⟩
  · intro hmem
    obtain ⟨r, l, hstands, -, -⟩ := exists_standsOn h
    exact ⟨r, l, hstands, (key l hstands.spells).1 hmem⟩

/-- **The left side** is the one that is read. -/
theorem defines_iff {number : Nat} {cs : List Char} {line : RuleLine}
    (h : RuleLine.read number cs = .ok line) (n : String) : Defines cs n ↔ line.lhs = n := by
  constructor
  · rintro ⟨r, l, ⟨⟨hr, hl, hlexemes⟩, rfl⟩, rfl⟩
    obtain ⟨line', hline', -, hlhs, -⟩ := exists_read hr hl hlexemes number
    rw [Except.ok.inj (h.symm.trans hline')]
    exact hlhs
  · rintro rfl
    obtain ⟨r, l, hstands, ⟨-, hlhs, -⟩, -⟩ := exists_standsOn h
    exact ⟨r, l, hstands, hlhs.symm⟩

/-- The columns of the symbols rise. -/
theorem pairwise_flatten {number : Nat} {cs : List Char} {line : RuleLine}
    (h : RuleLine.read number cs = .ok line) :
    line.alternatives.flatten.Pairwise fun a b => a.2 < b.2 := by
  obtain ⟨r, l, hstands, -, -⟩ := exists_standsOn h
  have hl := hstands.spells
  rw [flatten_of_read h hl]
  refine List.Pairwise.filterMap _ ?_ (hl.pairwise_placed.sublist (List.drop_sublist 2 _))
  intro a b hlt o ho o' ho'
  rw [column_of_occurrence? ho, column_of_occurrence? ho', Lexeme.column_toToken,
    Lexeme.column_toToken]
  exact hlt

/-! ## Faults of a line -/

/-- Is it a fault of a rule, not of a character or of several lines? -/
def Reason.OfRule : Reason → Prop
  | .unexpectedChar _ => False
  | .unresolved _ => False
  | _ => True

/-- Reading alternatives fails at a token, or at the one before them. -/
theorem readAlternatives_error {tokens : List Token} {pending : List Occurrence} {last : Nat}
    {e : LineFault} (h : readAlternatives pending last tokens = .error e) :
    e.1.OfRule ∧ e.2 ∈ last :: tokens.map Token.column := by
  induction tokens generalizing pending last with
  | nil =>
    simp only [readAlternatives] at h
    split at h
    · rw [← Except.error.inj h]
      exact ⟨trivial, List.mem_cons_self ..⟩
    · exact absurd h (by simp)
  | cons t rest ih =>
    -- a fault at the token or behind it
    have here : ∀ {e : LineFault}, e.1.OfRule ∧ e.2 ∈ t.column :: rest.map Token.column →
        e.1.OfRule ∧ e.2 ∈ last :: (t :: rest).map Token.column :=
      fun h => ⟨h.1, List.mem_cons_of_mem _ h.2⟩
    simp only [readAlternatives] at h
    split at h
    · split at h
      · rw [← Except.error.inj h]
        exact here ⟨trivial, List.mem_cons_self ..⟩
      · exact here (ih (map_eq_error_iff.1 h))
    · split at h
      · rw [← Except.error.inj h]
        exact here ⟨trivial, List.mem_cons_self ..⟩
      · exact here (ih h)

/-- The empty string with company stands at one of the tokens. -/
theorem mem_of_misplacedEpsilon? {tokens : List Token} {last column : Nat}
    {alternatives : List (List Occurrence)}
    (h : readAlternatives [] last tokens = .ok alternatives)
    (heps : misplacedEpsilon? alternatives = some column) : column ∈ tokens.map Token.column := by
  obtain ⟨alt, halt, heps⟩ := List.exists_of_findSome?_eq_some heps
  split at heps
  · exact absurd heps (by simp)
  · obtain ⟨o, ho, heps⟩ := List.exists_of_findSome?_eq_some heps
    split at heps
    · obtain rfl := Option.some.inj heps
      obtain ⟨first, others, rfl, -, hsymbols⟩ := exists_of_readAlternatives h
      have hmem : o ∈ tokens.filterMap occurrence? := by
        rw [hsymbols]
        exact List.mem_flatten.2 ⟨alt, halt, ho⟩
      obtain ⟨t, ht, hoccurrence⟩ := List.mem_filterMap.1 hmem
      rw [column_of_occurrence? hoccurrence]
      exact List.mem_map_of_mem ht
    · exact absurd heps (by simp)

/-- Reading a rule fails at one of its tokens, if there is one. -/
theorem readRule_error {tokens : List Token} (hne : tokens ≠ []) {e : LineFault}
    (h : readRule tokens = .error e) : e.1.OfRule ∧ e.2 ∈ tokens.map Token.column := by
  match tokens, h with
  | [], _ => exact absurd rfl hne
  | [_], h =>
    rw [← Except.error.inj h]
    exact ⟨trivial, by simp⟩
  | [_, _], h =>
    rw [← Except.error.inj h]
    exact ⟨trivial, by simp⟩
  | head :: second :: third :: rest, h =>
    simp only [readRule] at h
    split at h
    · rw [← Except.error.inj h]
      exact ⟨trivial, by simp⟩
    · split at h
      · rw [← Except.error.inj h]
        exact ⟨trivial, by simp⟩
      · rcases bind_eq_error_iff.1 h with hread | ⟨alternatives, hread, h⟩
        · obtain ⟨hrule, hcolumn⟩ := readAlternatives_error hread
          exact ⟨hrule, List.mem_cons_of_mem _ hcolumn⟩
        · split at h
          · rename_i column heps
            rw [← Except.error.inj h]
            have hcolumn := mem_of_misplacedEpsilon? hread heps
            exact ⟨trivial, List.mem_cons_of_mem _ (List.mem_cons_of_mem _ hcolumn)⟩
          · exact absurd h (by simp)

/-- **Is it the first character of the line that fits nowhere**, and its column? -/
def FirstMisfit (cs : List Char) (c : Char) (column : Nat) : Prop :=
  ∃ before after, cs = before ++ c :: after ∧ (∀ d ∈ before, Token.Fits d) ∧ ¬ Token.Fits c ∧
    column = 1 + before.length

/-- A line that says something has a token, if it can be scanned. -/
theorem tokens_ne_nil_of_speaks {cs : List Char} (hs : Speaks cs) {number : Nat}
    {tokens : List Token} (h : Token.scan number cs = .ok tokens) : tokens ≠ [] := by
  rcases Token.scan_cases number cs with ⟨l, hl, hscan⟩ | ⟨before, c, after, -, -, -, herror⟩
  · rw [h] at hscan
    obtain ⟨c, hc, hblank⟩ := hs.2
    rw [Except.ok.inj hscan]
    exact hl.tokens_ne_nil hc hblank number
  · rw [h] at herror
    exact absurd herror (by simp)

/-- **The fault of a line**: the line is no rule, and the fault is at a place of it; at that of the
first character that fits nowhere, if it tells of one. -/
theorem read_error {cs : List Char} (hs : Speaks cs) {number : Nat} {e : LineFault}
    (h : RuleLine.read number cs = .error e) :
    ¬ IsRule cs ∧ (1 ≤ e.2 ∧ e.2 ≤ cs.length) ∧ (∀ n, e.1 ≠ .unresolved n) ∧
      ∀ c, e.1 = .unexpectedChar c → FirstMisfit cs c e.2 := by
  have hnot : ¬ IsRule cs := by
    rintro ⟨r, l, ⟨hr, hl, hlexemes⟩, rfl⟩
    obtain ⟨line, hline, -⟩ := exists_read hr hl hlexemes number
    rw [h] at hline
    exact absurd hline (by simp)
  refine ⟨hnot, ?_⟩
  rcases Token.scan_cases number cs with ⟨l, hl, hscan⟩ | ⟨before, c, after, htext, hbefore, hc, herror⟩
  · -- a fault of the rule, at one of the tokens
    have hrule : readRule (l.tokens number) = .error e := by
      rw [RuleLine.read, scanLine, hscan] at h
      rcases bind_eq_error_iff.1 h with h | ⟨tokens, htokens, h⟩
      · exact absurd h (by simp)
      · rw [Except.ok.inj htokens]
        rcases bind_eq_error_iff.1 h with h | ⟨sides, -, h⟩
        · exact h
        · exact absurd h (by simp [pure, Except.pure])
    obtain ⟨hofRule, hcolumn⟩ := readRule_error (tokens_ne_nil_of_speaks hs hscan) hrule
    obtain ⟨t, ht, hcolumn⟩ := List.mem_map.1 hcolumn
    obtain ⟨⟨x, k⟩, hx, rfl⟩ := List.mem_map.1 ht
    rw [Lexeme.column_toToken] at hcolumn
    refine ⟨?_, ?_, ?_⟩
    · rw [← hcolumn]
      exact hl.le_length_of_mem_placed hx
    · intro n hn
      rw [hn] at hofRule
      exact hofRule
    · intro c hc
      rw [hc] at hofRule
      exact absurd hofRule id
  · have he : e = (.unexpectedChar c, 1 + before.length) := by
      rw [RuleLine.read, scanLine, herror] at h
      exact (Except.error.inj h).symm
    rw [he]
    refine ⟨⟨Nat.le_add_right _ _, ?_⟩, by simp, ?_⟩
    · rw [htext, List.length_append, List.length_cons]
      omega
    · intro d hd
      rw [← Reason.unexpectedChar.inj hd]
      exact ⟨before, after, htext, hbefore, hc, rfl⟩

end LRTables.Grammar
