import LRTables.Proofs.Grammar.Layout

/-!
# Lines that can be laid out

Every line whose characters all fit on one is laid out in some way, and a line with a character
that fits nowhere has a first one; there scanning stops.  The columns of what stands on a line are
those where it is found in the text.

* `Token.Fits` — the characters that a gap, a bar or a word can begin with.
* `Layout.Spells` — a line in some layout.
* `Layout.Spells.fits`, `Layout.exists_spells` — the lines that can be laid out.
* `Token.scan_cases` — a line is laid out, or has a first character that does not fit.
* `Layout.exists_piece_of_mem_placed`, `Layout.exists_split_of_mem_placed` — a lexeme stands at its
  column.
* `Layout.pairwise_placed`, `Layout.Spells.pairwise_placed` — lexemes do not overlap, and columns
  rise.
* `Layout.Spells.tokens_ne_nil` — a line that is not blank has a token.
-/

namespace LRTables

namespace Token

/-- **Can a gap, a bar or a word begin with the character?** -/
def Fits (c : Char) : Prop := isGap c = true ∨ c = '|' ∨ isWordChar c = true

instance : DecidablePred Fits := fun _ => inferInstanceAs (Decidable (_ ∨ _))

/-- Scanning stops at a character that does not fit. -/
theorem scanFrom_not_fits {before : List Char} (hbefore : ∀ d ∈ before, Fits d) {c : Char}
    (hc : ¬ Fits c) (line column : Nat) (pending after : List Char) :
    scanFrom line column pending (before ++ c :: after) = .error (c, column + before.length) := by
  induction before generalizing column pending with
  | nil =>
    rw [Fits, not_or, not_or] at hc
    rw [List.nil_append, scanFrom, if_neg hc.2.2, if_neg hc.2.1, if_neg hc.1]
    rfl
  | cons d before ih =>
    have ih := ih (fun e he => hbefore e (List.mem_cons_of_mem _ he)) (column + 1)
    have hcolumn : column + 1 + before.length = column + (d :: before).length := by
      rw [List.length_cons]
      omega
    rw [List.cons_append, scanFrom]
    split
    · rw [ih, hcolumn]
    · rename_i hword
      split
      · rw [ih, hcolumn]
        rfl
      · rename_i hbar
        have hgap : isGap d = true := by
          rcases hbefore d (List.mem_cons_self ..) with hgap | rfl | hd
          · exact hgap
          · exact absurd rfl hbar
          · exact absurd hd hword
        rw [if_pos hgap, ih, hcolumn]
        rfl

end Token

namespace Layout

open Token

/-! ## Laying out -/

/-- **Is the line laid out so?** -/
structure Spells (l : Layout) (cs : List Char) : Prop where
  /-- The layout is one. -/
  proper : l.Proper
  /-- Its words are words. -/
  words : ∀ w, .word w ∈ l.lexemes → IsWord w.toList
  /-- The characters are those of the line. -/
  text : l.text = cs

variable {cs : List Char}

theorem Spells.scan {l : Layout} (h : l.Spells cs) (line : Nat) :
    Token.scan line cs = .ok (l.tokens line) := by
  rw [← h.text]
  exact scan_text h.proper h.words line

/-- Everything on a line that is laid out fits. -/
theorem Spells.fits {l : Layout} (h : l.Spells cs) : ∀ c ∈ cs, Fits c := by
  have hgap : ∀ {gap : List Char}, IsGap gap → ∀ c ∈ gap, Fits c :=
    fun hgap c hc => Or.inl (isGap_of_isGap hgap c hc)
  intro c hc
  rw [← h.text] at hc
  rcases List.mem_append.1 hc with hc | hc
  · obtain ⟨p, hp, hc⟩ := List.mem_flatMap.1 hc
    rcases List.mem_append.1 hc with hc | hc
    · exact hgap (h.proper.gaps p hp) c hc
    · have hmem : p.lexeme ∈ l.lexemes := List.mem_map_of_mem hp
      cases hp : p.lexeme with
      | bar =>
        rw [hp] at hc
        exact Or.inr (Or.inl (List.mem_singleton.1 hc))
      | word w =>
        rw [hp] at hc hmem
        exact Or.inr (Or.inr ((h.words w hmem).2 c hc))
  · exact hgap h.proper.last c hc

/-- A character goes in front of a line as a lexeme of its own, if the line may follow that. -/
theorem Spells.cons_lexeme {l : Layout} (h : l.Spells cs) {c : Char} {x : Lexeme}
    (hx : x.toChars = [c]) (hword : ∀ w, x = .word w → IsWord w.toList)
    (hapart : ∀ q ∈ l.pieces.head?, Apart ⟨[], x⟩ q) :
    Spells ⟨⟨[], x⟩ :: l.pieces, l.last⟩ (c :: cs) := by
  refine ⟨⟨?_, h.proper.last, List.isChain_cons.2 ⟨hapart, h.proper.apart⟩⟩, ?_, ?_⟩
  · exact List.forall_mem_cons.2 ⟨by simp [IsGap], h.proper.gaps⟩
  · intro w hw
    rcases List.mem_cons.1 hw with hw | hw
    · exact hword w hw.symm
    · exact h.words w hw
  · rw [← h.text, Layout.text, Layout.text, List.flatMap_cons, Piece.text, hx]
    rfl

/-- A character of a gap goes in front of a line. -/
theorem Spells.exists_cons_gap {l : Layout} (h : l.Spells cs) {c : Char} (hc : isGap c = true) :
    ∃ l' : Layout, l'.Spells (c :: cs) := by
  rw [isGap_iff] at hc
  obtain ⟨pieces, last⟩ := l
  obtain ⟨⟨hgaps, hlast, hapart⟩, hwords, rfl⟩ := h
  cases pieces with
  | nil =>
    have hlast : IsGap (c :: last) := List.forall_mem_cons.2 ⟨hc, hlast⟩
    exact ⟨⟨[], c :: last⟩, ⟨by simp, hlast, hapart⟩, hwords, rfl⟩
  | cons p rest =>
    obtain ⟨hgap, hrest⟩ := List.forall_mem_cons.1 hgaps
    obtain ⟨hnext, hapart⟩ := List.isChain_cons.1 hapart
    have hgap : IsGap (c :: p.gap) := List.forall_mem_cons.2 ⟨hc, hgap⟩
    exact ⟨⟨⟨c :: p.gap, p.lexeme⟩ :: rest, last⟩,
      ⟨List.forall_mem_cons.2 ⟨hgap, hrest⟩, hlast, List.isChain_cons.2 ⟨hnext, hapart⟩⟩, hwords, rfl⟩

/-- A character of a word goes in front of a line. -/
theorem Spells.exists_cons_word {l : Layout} (h : l.Spells cs) {c : Char}
    (hc : isWordChar c = true) : ∃ l' : Layout, l'.Spells (c :: cs) := by
  by_cases hnext : ∀ q ∈ l.pieces.head?, Apart ⟨[], .word (String.singleton c)⟩ q
  · refine ⟨_, h.cons_lexeme (x := .word (String.singleton c)) (by simp) ?_ hnext⟩
    intro w hw
    rw [← Lexeme.word.inj hw]
    simpa [IsWord] using hc
  · -- the line begins with a word, and the character with that is one
    obtain ⟨pieces, last⟩ := l
    obtain ⟨⟨hgaps, hlast, hapart⟩, hwords, rfl⟩ := h
    cases pieces with
    | nil => exact absurd (by simp) hnext
    | cons p rest =>
      obtain ⟨gap, x⟩ := p
      have hempty : gap = [] ∧ ∃ w, x = .word w := by
        cases x with
        | bar => exact absurd (by simp [Apart, Lexeme.isWord]) hnext
        | word w =>
          by_contra hgap
          refine hnext ?_
          simpa [Apart, Lexeme.isWord] using hgap
      obtain ⟨rfl, w, rfl⟩ := hempty
      obtain ⟨hfollow, hapart⟩ := List.isChain_cons.1 hapart
      obtain ⟨hgap, hrest⟩ := List.forall_mem_cons.1 hgaps
      refine ⟨⟨⟨[], .word (String.ofList (c :: w.toList))⟩ :: rest, last⟩,
        ⟨List.forall_mem_cons.2 ⟨hgap, hrest⟩, hlast, List.isChain_cons.2 ⟨hfollow, hapart⟩⟩,
        ?_, by simp [Layout.text, Piece.text]⟩
      intro v hv
      rcases List.mem_cons.1 hv with hv | hv
      · have hw := hwords w (List.mem_cons_self ..)
        rw [Lexeme.word.inj hv, String.toList_ofList]
        exact ⟨by simp, List.forall_mem_cons.2 ⟨hc, hw.2⟩⟩
      · exact hwords v (List.mem_cons_of_mem _ hv)

/-- **A line on which everything fits is laid out** in some way. -/
theorem exists_spells (h : ∀ c ∈ cs, Fits c) : ∃ l : Layout, l.Spells cs := by
  induction cs with
  | nil => exact ⟨⟨[], []⟩, by decide, by simp [lexemes], rfl⟩
  | cons c cs ih =>
    obtain ⟨l, hl⟩ := ih fun d hd => h d (List.mem_cons_of_mem _ hd)
    rcases h c (List.mem_cons_self ..) with hc | rfl | hc
    · exact hl.exists_cons_gap hc
    · exact ⟨_, hl.cons_lexeme (x := .bar) rfl (by simp) fun q _ hbar =>
        absurd hbar (by simp [Lexeme.isWord])⟩
    · exact hl.exists_cons_word hc

end Layout

/-- **A line is laid out, or has a first character that does not fit.**  So scanning it finds the
tokens of a layout, or the character and its column. -/
theorem Token.scan_cases (line : Nat) (cs : List Char) :
    (∃ l : Layout, l.Spells cs ∧ scan line cs = .ok (l.tokens line)) ∨
    ∃ before c after, cs = before ++ c :: after ∧ (∀ d ∈ before, Fits d) ∧ ¬ Fits c ∧
      scan line cs = .error (c, 1 + before.length) := by
  by_cases h : ∀ c ∈ cs, Fits c
  · obtain ⟨l, hl⟩ := Layout.exists_spells h
    exact Or.inl ⟨l, hl, hl.scan line⟩
  · have hfind : (cs.find? fun c => ¬ Fits c).isSome = true := by
      simpa using h
    obtain ⟨c, hc⟩ := Option.isSome_iff_exists.1 hfind
    obtain ⟨hnot, before, after, rfl, hbefore⟩ := List.find?_eq_some_iff_append.1 hc
    rw [decide_eq_true_eq] at hnot
    have hfit : ∀ d ∈ before, Fits d := by
      intro d hd
      simpa using hbefore d hd
    exact Or.inr ⟨before, c, after, rfl, hfit, hnot, scanFrom_not_fits hfit hnot line 1 [] after⟩

namespace Layout

open Token

variable {cs : List Char}

/-! ## Columns -/

/-- A lexeme that has a place is that of a piece, and the pieces in front of it fill the line up to
its gap. -/
theorem exists_piece_of_mem_placed {pieces : List Piece} {column : Nat} {x : Lexeme} {k : Nat}
    (h : (x, k) ∈ Piece.placed column pieces) :
    ∃ front p back, pieces = front ++ p :: back ∧ x = p.lexeme ∧
      k = column + (front.flatMap Piece.text ++ p.gap).length := by
  induction pieces generalizing column with
  | nil => exact absurd h (by simp [Piece.placed])
  | cons p rest ih =>
    rw [Piece.placed, List.mem_cons] at h
    rcases h with h | h
    · obtain ⟨rfl, rfl⟩ := Prod.mk.inj h
      exact ⟨[], p, rest, rfl, rfl, rfl⟩
    · obtain ⟨front, q, back, rfl, rfl, rfl⟩ := ih h
      refine ⟨p :: front, q, back, rfl, rfl, ?_⟩
      simp only [List.flatMap_cons, List.length_append]
      omega

/-- **A lexeme stands at its column**: so many characters are in front of it. -/
theorem exists_split_of_mem_placed {l : Layout} {x : Lexeme} {k : Nat} (h : (x, k) ∈ l.placed) :
    ∃ before after, l.text = before ++ (x.toChars ++ after) ∧ k = 1 + before.length := by
  obtain ⟨front, p, back, hpieces, rfl, rfl⟩ := exists_piece_of_mem_placed h
  refine ⟨front.flatMap Piece.text ++ p.gap, back.flatMap Piece.text ++ l.last, ?_, rfl⟩
  simp [text, hpieces, Piece.text]

/-- A lexeme of a line has a first character. -/
theorem Spells.toChars_ne_nil {l : Layout} (h : l.Spells cs) {x : Lexeme} (hx : x ∈ l.lexemes) :
    x.toChars ≠ [] := by
  cases x with
  | bar => simp
  | word w => exact (h.words w hx).1

/-- A column is one of the line. -/
theorem Spells.le_length_of_mem_placed {l : Layout} (h : l.Spells cs) {x : Lexeme} {k : Nat}
    (hx : (x, k) ∈ l.placed) : 1 ≤ k ∧ k ≤ cs.length := by
  have hlen := List.length_pos_iff.2 (h.toChars_ne_nil (mem_lexemes_of_mem_placed hx))
  obtain ⟨before, after, htext, rfl⟩ := exists_split_of_mem_placed hx
  rw [← h.text, htext, List.length_append, List.length_append]
  omega

/-- **Lexemes do not overlap**: each ends where the next one begins, or before. -/
theorem pairwise_placed (column : Nat) (pieces : List Piece) :
    (Piece.placed column pieces).Pairwise fun a b => a.2 + a.1.toChars.length ≤ b.2 := by
  induction pieces generalizing column with
  | nil => exact List.Pairwise.nil
  | cons p rest ih =>
    rw [Piece.placed]
    refine List.pairwise_cons.2 ⟨?_, ih _⟩
    rintro ⟨y, k⟩ hy
    obtain ⟨front, q, back, -, -, rfl⟩ := exists_piece_of_mem_placed hy
    show column + p.gap.length + p.lexeme.toChars.length ≤ _
    simp only [Piece.text, List.length_append]
    omega

/-- **Columns rise** from lexeme to lexeme. -/
theorem Spells.pairwise_placed {l : Layout} (h : l.Spells cs) :
    l.placed.Pairwise fun a b => a.2 < b.2 := by
  refine (Layout.pairwise_placed 1 l.pieces).imp_of_mem fun {a b} ha _ hle => ?_
  have hlen := List.length_pos_iff.2 (h.toChars_ne_nil (mem_lexemes_of_mem_placed ha))
  omega

/-- **A line that is not blank has a token**, in every layout. -/
theorem Spells.tokens_ne_nil {l : Layout} (h : l.Spells cs) {c : Char} (hc : c ∈ cs)
    (hblank : Text.isBlank c = false) (line : Nat) : l.tokens line ≠ [] := by
  intro hnil
  have hpieces : l.pieces = [] := by
    have hlexemes := map_toLexeme_tokens line l
    rw [hnil] at hlexemes
    exact List.map_eq_nil_iff.1 hlexemes.symm
  rw [← h.text, Layout.text, hpieces, List.flatMap_nil, List.nil_append] at hc
  have hwhite := isWhiteSpace_of_isGap (isGap_of_isGap h.proper.last c hc)
  rw [Text.isBlank_of_isWhiteSpace hwhite] at hblank
  exact absurd hblank (by simp)

end Layout

end LRTables
