import LRTables.Proofs.Grammar.Fault

/-!
# The tokens of a line

The tokens of a line are found by matching: a gap, a bar or a word is taken from the front of what
is left, as long as it can be, until nothing is left or nothing fits.  Nothing but gaps is lost in
this.  Each token stands in the line where its column says, tokens do not overlap, and what no token
spans is in a gap; so the line can be told from its tokens but for the gaps, and the lexemes with
single spaces between them have the same tokens, at other columns.

* `Token.Stray` — white space that stands in no gap, the only thing that fits nowhere.
* `Token.Matches`, `Token.matches_iff` — scanning takes the longest match each time.
* `Token.Covers` — what the tokens of a line have to do with it.
* `Layout.spaced`, `Layout.Spells.scan_spaced` — lexemes with single spaces between them.
* `Layout.covers_tokens` — the tokens of a line that is laid out.
* `Grammar.scanLine_covers` — what scanning a line finds, and where it stops.
-/

namespace LRTables

namespace Token

/-! ## What fits nowhere -/

/-- **White space that stands in no gap**: any but a space, a tab or a form feed. -/
def Stray (c : Char) : Prop :=
  Text.isWhiteSpace c = true ∧ c ≠ ' ' ∧ c ≠ '\t' ∧ c ≠ '\x0c'

instance : DecidablePred Stray := fun _ => inferInstanceAs (Decidable (_ ∧ _))

/-- Strays are what fits nowhere. -/
theorem not_fits_iff (c : Char) : ¬ Fits c ↔ Stray c := by
  have hbar : Text.isWhiteSpace '|' = false := by decide
  simp only [Fits, Stray, isGap, isWordChar, not_or, Bool.or_eq_true, beq_iff_eq,
    Bool.and_eq_true, bne_iff_ne, Bool.not_eq_true', ne_eq, not_and, Bool.not_eq_false]
  constructor
  · rintro ⟨⟨⟨hspace, htab⟩, hfeed⟩, hnot, hwhite⟩
    exact ⟨hwhite hnot, hspace, htab, hfeed⟩
  · rintro ⟨hwhite, hspace, htab, hfeed⟩
    refine ⟨⟨⟨hspace, htab⟩, hfeed⟩, ?_, fun _ => hwhite⟩
    rintro rfl
    rw [hbar] at hwhite
    exact absurd hwhite (by simp)

/-! ## Matching -/

/-- **What is found by matching**, from `column` on: from the front of what is left, a gap, a bar
or a word is taken, which is as long as it can be; where none of them fits, that is told. -/
inductive Matches (line : Nat) : Nat → List Char → Except (Char × Nat) (List Token) → Prop where
  /-- Nothing is left. -/
  | done {column : Nat} : Matches line column [] (.ok [])
  /-- A gap makes no token. -/
  | gap {column : Nat} {gap rest : List Char} {found : Except (Char × Nat) (List Token)}
      (ne_nil : gap ≠ []) (inside : IsGap gap)
      (longest : ∀ c, rest.head? = some c → isGap c = false)
      (more : Matches line (column + gap.length) rest found) :
      Matches line column (gap ++ rest) found
  /-- A bar is a token. -/
  | bar {column : Nat} {rest : List Char} {found : Except (Char × Nat) (List Token)}
      (more : Matches line (column + 1) rest found) :
      Matches line column ('|' :: rest) ((⟨.bar, "|", line, column⟩ :: ·) <$> found)
  /-- A word is a token. -/
  | word {column : Nat} {word : String} {rest : List Char}
      {found : Except (Char × Nat) (List Token)} (isWord : IsWord word.toList)
      (longest : ∀ c, rest.head? = some c → isWordChar c = false)
      (more : Matches line (column + word.toList.length) rest found) :
      Matches line column (word.toList ++ rest) ((⟨.word, word, line, column⟩ :: ·) <$> found)
  /-- A character that fits nowhere ends it. -/
  | stray {column : Nat} {c : Char} {rest : List Char} (fits : ¬ Fits c) :
      Matches line column (c :: rest) (.error (c, column))

/-- A character that is of some kind begins a run of that kind, which ends where it cannot go on. -/
theorem exists_longest_run {p : Char → Bool} {c : Char} (hc : p c = true) (cs : List Char) :
    ∃ run rest, c :: cs = run ++ rest ∧ run ≠ [] ∧ (∀ d ∈ run, p d = true) ∧
      (∀ d, rest.head? = some d → p d = false) ∧ rest.length < (c :: cs).length := by
  refine ⟨(c :: cs).takeWhile p, (c :: cs).dropWhile p, List.takeWhile_append_dropWhile.symm, ?_,
    fun d hd => List.mem_takeWhile_imp hd, fun d hd => ?_, ?_⟩
  · rw [List.takeWhile_cons_of_pos hc]
    simp
  · have hnot := List.head?_dropWhile_not p (c :: cs)
    rw [hd] at hnot
    simpa using hnot
  · rw [List.dropWhile_cons_of_pos hc, List.length_cons]
    exact Nat.lt_succ_of_le (List.dropWhile_sublist p).length_le

/-- Whatever a line is, something is found by matching. -/
theorem exists_matches (line column : Nat) (cs : List Char) :
    ∃ found, Matches line column cs found := by
  -- on the number of characters that are left, as a match takes many at once
  induction hn : cs.length using Nat.strongRecOn generalizing column cs with
  | ind n ih =>
    cases cs with
    | nil => exact ⟨_, Matches.done⟩
    | cons c rest =>
      by_cases hfits : Fits c
      · rcases hfits with hc | rfl | hc
        · obtain ⟨gap, more, htext, hne, hgap, hlongest, hlt⟩ := exists_longest_run hc rest
          obtain ⟨found, hfound⟩ := ih _ (hn ▸ hlt) (column + gap.length) more rfl
          rw [htext]
          exact ⟨found, Matches.gap hne (fun d hd => (isGap_iff d).1 (hgap d hd)) hlongest hfound⟩
        · obtain ⟨found, hfound⟩ := ih _ (hn ▸ Nat.lt_succ_self _) (column + 1) rest rfl
          exact ⟨_, Matches.bar hfound⟩
        · obtain ⟨word, more, htext, hne, hword, hlongest, hlt⟩ := exists_longest_run hc rest
          obtain ⟨found, hfound⟩ := ih _ (hn ▸ hlt) (column + word.length) more rfl
          obtain ⟨w, rfl⟩ : ∃ w : String, word = w.toList := ⟨.ofList word, by simp⟩
          rw [htext]
          exact ⟨_, Matches.word ⟨hne, hword⟩ hlongest hfound⟩
      · exact ⟨_, Matches.stray hfits⟩

/-- What is found by matching is what is scanned. -/
theorem Matches.scanFrom_eq {line column : Nat} {cs : List Char}
    {found : Except (Char × Nat) (List Token)} (h : Matches line column cs found) :
    scanFrom line column [] cs = found := by
  induction h with
  | done => rfl
  | gap ne_nil inside longest more ih => rw [scanFrom_gap inside, ih]
  | bar more ih => rw [scanFrom_bar, ih]
  | @word column word rest found isWord longest more ih =>
    rw [scanFrom_word isWord.2, List.append_nil, scanFrom_flush _ _ _ longest, ih,
      Layout.ofPending_reverse isWord.1]
    rfl
  | @stray column c rest fits =>
    exact scanFrom_not_fits (List.forall_mem_nil Fits) fits line column [] rest

/-- **Scanning takes the longest match each time**, and nothing else is found so. -/
theorem matches_iff (line : Nat) (cs : List Char) (found : Except (Char × Nat) (List Token)) :
    Matches line 1 cs found ↔ scan line cs = found := by
  refine ⟨Matches.scanFrom_eq, ?_⟩
  rintro rfl
  obtain ⟨found, hfound⟩ := exists_matches line 1 cs
  rwa [scan, hfound.scanFrom_eq]

/-! ## Tokens and their line -/

/-- The number of characters in front of the token. -/
def start (t : Token) : Nat := t.column - 1

/-- The number of characters up to the end of the token. -/
def stop (t : Token) : Nat := t.start + t.lexeme.length

@[simp] theorem start_toToken (line : Nat) (x : Lexeme) (column : Nat) :
    (x.toToken line column).start = column - 1 := by
  rw [start, Lexeme.column_toToken]

@[simp] theorem length_lexeme_toToken (line : Nat) (x : Lexeme) (column : Nat) :
    (x.toToken line column).lexeme.length = x.toChars.length := by
  rw [← String.length_toList, Lexeme.toList_lexeme_toToken]

@[simp] theorem stop_toToken (line : Nat) (x : Lexeme) (column : Nat) :
    (x.toToken line column).stop = column - 1 + x.toChars.length := by
  rw [stop, start_toToken, length_lexeme_toToken]

theorem kind_toToken_eq_word_iff (line : Nat) (x : Lexeme) (column : Nat) :
    (x.toToken line column).kind = .word ↔ x.isWord = true := by
  cases x <;> simp [Lexeme.toToken, Lexeme.isWord]

/-- **The tokens of a line** tell the line but for its gaps. -/
structure Covers (line : Nat) (cs : List Char) (tokens : List Token) : Prop where
  /-- A token knows its line, and its lexeme is what stands there from its column on. -/
  placed : ∀ t ∈ tokens, t.line = line ∧ 1 ≤ t.column ∧
    (cs.drop t.start).take t.lexeme.length = t.lexeme.toList
  /-- Columns rise, and a token ends before the next one begins. -/
  ordered : tokens.Pairwise fun a b => a.column < b.column ∧ a.stop ≤ b.start
  /-- A character that no token spans is a space, a tab or a form feed. -/
  between : ∀ i c, cs[i]? = some c → (∀ t ∈ tokens, ¬ (t.start ≤ i ∧ i < t.stop)) →
    c = ' ' ∨ c = '\t' ∨ c = '\x0c'
  /-- A bar is a bar. -/
  bars : ∀ t ∈ tokens, t.kind = .bar → t.lexeme = "|"
  /-- A word has a character, but neither white space nor a bar. -/
  words : ∀ t ∈ tokens, t.kind = .word → t.lexeme ≠ "" ∧
    ∀ c ∈ t.lexeme.toList, Text.isWhiteSpace c = false ∧ c ≠ '|'
  /-- Words do not touch. -/
  apart : ∀ a ∈ tokens, ∀ b ∈ tokens, a.kind = .word → b.kind = .word → a.stop ≠ b.start
  /-- A word goes as far as it can in both directions. -/
  longest : ∀ t ∈ tokens, t.kind = .word → ∀ i c, cs[i]? = some c → i + 1 = t.start ∨ i = t.stop →
    isWordChar c = false
  /-- The lexemes with single spaces between them have the same kinds and lexemes. -/
  again : ∀ number, ∃ tokens',
    scan number (" ".intercalate (tokens.map lexeme)).toList = .ok tokens' ∧
      tokens'.map (fun t => (t.kind, t.lexeme)) = tokens.map fun t => (t.kind, t.lexeme)

end Token

namespace Layout

open Token

variable {cs : List Char} {l : Layout}

theorem mem_tokens_iff {line : Nat} {t : Token} :
    t ∈ l.tokens line ↔ ∃ x k, (x, k) ∈ l.placed ∧ t = x.toToken line k := by
  simp only [tokens, List.mem_map, Prod.exists, eq_comm]

/-- What is in some pieces and a gap stands in one of the lexemes or in a gap. -/
theorem placed_or_gap {pieces : List Piece} {last : List Char} (hgaps : ∀ p ∈ pieces, IsGap p.gap)
    (hlast : IsGap last) (column : Nat) {i : Nat} {c : Char}
    (h : (pieces.flatMap Piece.text ++ last)[i]? = some c) :
    (∃ e ∈ Piece.placed column pieces, e.2 ≤ column + i ∧
      column + i < e.2 + e.1.toChars.length) ∨ c = ' ' ∨ c = '\t' ∨ c = '\x0c' := by
  induction pieces generalizing column i with
  | nil => exact Or.inr (hlast c (List.mem_of_getElem? h))
  | cons p rest ih =>
    have ih := ih fun q hq => hgaps q (List.mem_cons_of_mem _ hq)
    by_cases hgap : i < p.gap.length
    · rw [List.flatMap_cons, Piece.text, List.append_assoc, List.append_assoc,
        List.getElem?_append_left hgap] at h
      exact Or.inr (hgaps p (List.mem_cons_self ..) c (List.mem_of_getElem? h))
    · by_cases hlexeme : i < p.text.length
      · refine Or.inl ⟨_, List.mem_cons_self .., ?_⟩
        rw [Piece.text, List.length_append] at hlexeme
        show column + p.gap.length ≤ column + i ∧
          column + i < column + p.gap.length + p.lexeme.toChars.length
        omega
      · rw [List.flatMap_cons, List.append_assoc, List.getElem?_append_right (by omega)] at h
        refine (ih (column + p.text.length) h).imp_left ?_
        rintro ⟨e, he, hspan⟩
        refine ⟨e, List.mem_cons_of_mem _ he, ?_⟩
        omega

/-- A lexeme is what stands in the line from its column on. -/
theorem Spells.take_drop (h : l.Spells cs) {x : Lexeme} {k : Nat} (hx : (x, k) ∈ l.placed) :
    1 ≤ k ∧ (cs.drop (k - 1)).take x.toChars.length = x.toChars := by
  obtain ⟨before, after, htext, rfl⟩ := exists_split_of_mem_placed hx
  refine ⟨Nat.le_add_right _ _, ?_⟩
  rw [← h.text, htext, Nat.add_sub_cancel_left, List.drop_left, List.take_left]

theorem Spells.getElem?_placed (h : l.Spells cs) {x : Lexeme} {k j : Nat}
    (hx : (x, k) ∈ l.placed) (hj : j < x.toChars.length) : cs[k - 1 + j]? = x.toChars[j]? := by
  rw [← (h.take_drop hx).2, List.getElem?_take_of_lt hj, List.getElem?_drop]

/-- What is in a line stands in one of its lexemes or in a gap. -/
theorem Spells.placed_or_gap (h : l.Spells cs) {i : Nat} {c : Char} (hc : cs[i]? = some c) :
    (∃ x k, (x, k) ∈ l.placed ∧ k - 1 ≤ i ∧ i < k - 1 + x.toChars.length) ∨
      c = ' ' ∨ c = '\t' ∨ c = '\x0c' := by
  rw [← h.text, Layout.text] at hc
  refine (Layout.placed_or_gap h.proper.gaps h.proper.last 1 hc).imp_left ?_
  rintro ⟨⟨x, k⟩, hx, hle, hlt⟩
  refine ⟨x, k, hx, ?_, ?_⟩
  · exact Nat.sub_le_of_le_add (by rwa [Nat.add_comm])
  · have hk := (h.take_drop hx).1
    simp only at hlt
    omega

/-- What stands behind a word is no character of a word. -/
theorem Spells.isWordChar_behind (h : l.Spells cs) {x : Lexeme} {k : Nat}
    (hx : (x, k) ∈ l.placed) (hword : x.isWord = true) {c : Char}
    (hc : cs[k - 1 + x.toChars.length]? = some c) : isWordChar c = false := by
  obtain ⟨front, p, back, hpieces, rfl, rfl⟩ := exists_piece_of_mem_placed hx
  have hgaps : ∀ q ∈ back, IsGap q.gap := fun q hq => h.proper.gaps q (by simp [hpieces, hq])
  have hapart : (p :: back).IsChain Apart := by
    have hapart := h.proper.apart
    rw [hpieces] at hapart
    exact hapart.right_of_append
  have htext : cs = (front.flatMap Piece.text ++ p.gap ++ p.lexeme.toChars) ++
      (back.flatMap Piece.text ++ l.last) := by
    rw [← h.text, Layout.text, hpieces]
    simp [Piece.text]
  rw [Nat.add_sub_cancel_left, ← List.length_append, htext,
    List.getElem?_append_right (Nat.le_refl _), Nat.sub_self, ← List.head?_eq_getElem?] at hc
  exact isWordChar_head? hword hgaps h.proper.last hapart hc

/-- Words do not touch. -/
theorem Spells.words_apart (h : l.Spells cs) {x y : Lexeme} {k m : Nat} (hx : (x, k) ∈ l.placed)
    (hy : (y, m) ∈ l.placed) (hxword : x.isWord = true) (hyword : y.isWord = true) :
    k - 1 + x.toChars.length ≠ m - 1 := by
  intro htouch
  have hlexeme := mem_lexemes_of_mem_placed hy
  have hne := List.length_pos_iff.2 (h.toChars_ne_nil hlexeme)
  have hfirst := h.getElem?_placed hy hne
  rw [Nat.add_zero, ← htouch, List.getElem?_eq_getElem hne] at hfirst
  have hbehind := h.isWordChar_behind hx hxword hfirst
  cases y with
  | bar => exact absurd hyword (by simp [Lexeme.isWord])
  | word w =>
    rw [(h.words w hlexeme).2 _ (List.getElem_mem hne)] at hbehind
    exact absurd hbehind (by simp)

/-- Of two lexemes that have a place, one ends before the other one begins. -/
theorem placed_disjoint {x y : Lexeme} {k m : Nat} (hx : (x, k) ∈ l.placed)
    (hy : (y, m) ∈ l.placed) :
    (x, k) = (y, m) ∨ k + x.toChars.length ≤ m ∨ m + y.toChars.length ≤ k := by
  have hsymm : Std.Symm fun a b : Lexeme × Nat =>
      a.2 + a.1.toChars.length ≤ b.2 ∨ b.2 + b.1.toChars.length ≤ a.2 := ⟨fun _ _ => Or.symm⟩
  have hpairwise : l.placed.Pairwise fun a b =>
      a.2 + a.1.toChars.length ≤ b.2 ∨ b.2 + b.1.toChars.length ≤ a.2 :=
    (pairwise_placed 1 l.pieces).imp Or.inl
  by_cases heq : (x, k) = (y, m)
  · exact Or.inl heq
  · exact Or.inr (hpairwise.forall hx hy heq)

/-- What stands in front of a word is no character of a word. -/
theorem Spells.isWordChar_before (h : l.Spells cs) {x : Lexeme} {k i : Nat}
    (hx : (x, k) ∈ l.placed) (hword : x.isWord = true) (hi : i + 1 = k - 1) {c : Char}
    (hc : cs[i]? = some c) : isWordChar c = false := by
  rcases h.placed_or_gap hc with ⟨y, m, hy, hle, hlt⟩ | hgap
  · have hm := (h.take_drop hy).1
    have hat := h.getElem?_placed (j := i - (m - 1)) hy (by omega)
    rw [show m - 1 + (i - (m - 1)) = i by omega, hc] at hat
    cases y with
    | bar =>
      obtain rfl : c = '|' := by simpa using List.mem_of_getElem? hat.symm
      decide
    | word w =>
      -- the other word would end where this one begins
      have htouch := h.words_apart hy hx rfl hword
      rcases placed_disjoint hx hy with heq | hapart | hapart
      · obtain ⟨-, rfl⟩ := Prod.mk.inj heq
        omega
      · omega
      · omega
  · exact isWordChar_of_isGap ((isGap_iff c).2 hgap)

/-! ## Lexemes with single spaces between them -/

/-- The lexemes, with a single space between each and the next one. -/
def spaced : List Lexeme → Layout
  | [] => ⟨[], []⟩
  | x :: rest => ⟨⟨[], x⟩ :: rest.map fun y => ⟨[' '], y⟩, []⟩

@[simp] theorem lexemes_spaced (xs : List Lexeme) : (spaced xs).lexemes = xs := by
  cases xs <;> simp [spaced, lexemes, Function.comp_def]

theorem proper_spaced (xs : List Lexeme) : (spaced xs).Proper := by
  cases xs with
  | nil => decide
  | cons x rest =>
    have hnil : IsGap [] := by decide
    have hspace : IsGap [' '] := by decide
    refine ⟨List.forall_mem_cons.2 ⟨hnil, List.forall_mem_map.2 fun _ _ => hspace⟩, hnil, ?_⟩
    -- nothing but the first lexeme stands without a space
    refine (List.pairwise_cons.2 ⟨?_, ?_⟩).isChain
    · exact List.forall_mem_map.2 fun y _ _ _ => List.cons_ne_nil _ _
    · exact List.pairwise_map.2 (List.pairwise_of_forall fun _ _ _ _ => List.cons_ne_nil _ _)

theorem text_spaced (xs : List Lexeme) :
    (spaced xs).text = [' '].intercalate (xs.map Lexeme.toChars) := by
  cases xs with
  | nil => rfl
  | cons x rest =>
    induction rest generalizing x with
    | nil => simp [spaced, Layout.text, Piece.text]
    | cons y rest ih =>
      rw [List.map_cons, List.map_cons, List.intercalate_cons_cons, ← List.map_cons, ← ih]
      simp [spaced, Layout.text, Piece.text]

/-- The lexemes of the tokens, put together with spaces, are laid out so. -/
theorem toList_intercalate_tokens (line : Nat) (l : Layout) :
    (" ".intercalate ((l.tokens line).map lexeme)).toList = (spaced l.lexemes).text := by
  have hchars : (l.tokens line).map (String.toList ∘ lexeme) = l.lexemes.map Lexeme.toChars :=
    map_tokens (fun x column => Lexeme.toList_lexeme_toToken line x column) l
  rw [String.toList_intercalate, List.map_map, hchars, text_spaced]
  rfl

/-- **The lexemes with single spaces between them have the same tokens**, at other columns. -/
theorem Spells.scan_spaced (h : l.Spells cs) (line number : Nat) : ∃ tokens,
    Token.scan number (" ".intercalate ((l.tokens line).map lexeme)).toList = .ok tokens ∧
      tokens.map (fun t => (t.kind, t.lexeme)) = (l.tokens line).map fun t => (t.kind, t.lexeme) := by
  have hkinds : ∀ (n : Nat) (l : Layout), (l.tokens n).map (fun t => (t.kind, t.lexeme)) =
      l.lexemes.map fun x => ((x.toToken 0 0).kind, (x.toToken 0 0).lexeme) :=
    fun n => map_tokens fun x column => by cases x <;> rfl
  have hwords : ∀ w, .word w ∈ (spaced l.lexemes).lexemes → IsWord w.toList := by
    rw [lexemes_spaced]
    exact h.words
  refine ⟨(spaced l.lexemes).tokens number, ?_, ?_⟩
  · rw [toList_intercalate_tokens, scan_text (proper_spaced _) hwords]
  · rw [hkinds, hkinds, lexemes_spaced]

/-! ## The tokens of a layout -/

/-- **The tokens of a line that is laid out** tell the line but for its gaps. -/
theorem covers_tokens (h : l.Spells cs) (line : Nat) : Covers line cs (l.tokens line) where
  placed := by
    intro t ht
    obtain ⟨x, k, hx, rfl⟩ := mem_tokens_iff.1 ht
    obtain ⟨hk, hat⟩ := h.take_drop hx
    exact ⟨by simp, by simpa using hk, by simpa using hat⟩
  ordered := by
    refine List.pairwise_map.2 ((pairwise_placed 1 l.pieces).imp_of_mem fun {a b} ha hb hle => ?_)
    have hpos := List.length_pos_iff.2 (h.toChars_ne_nil (mem_lexemes_of_mem_placed ha))
    have hk := (h.take_drop ha).1
    simp only [Lexeme.column_toToken, stop_toToken, start_toToken]
    omega
  between := by
    intro i c hc hout
    rcases h.placed_or_gap hc with ⟨x, k, hx, hle, hlt⟩ | hgap
    · have hat := hout _ (mem_tokens_iff.2 ⟨x, k, hx, rfl⟩)
      rw [start_toToken, stop_toToken] at hat
      exact absurd ⟨hle, hlt⟩ hat
    · exact hgap
  bars := by
    intro t ht hkind
    obtain ⟨x, k, -, rfl⟩ := mem_tokens_iff.1 ht
    cases x with
    | bar => rfl
    | word w => exact absurd hkind (by simp [Lexeme.toToken])
  words := by
    intro t ht hkind
    obtain ⟨x, k, hx, rfl⟩ := mem_tokens_iff.1 ht
    cases x with
    | bar => exact absurd hkind (by simp [Lexeme.toToken])
    | word w =>
      obtain ⟨hne, hword⟩ := h.words w (mem_lexemes_of_mem_placed hx)
      refine ⟨fun hempty => hne (String.toList_eq_nil_iff.2 hempty), fun c hc => ?_⟩
      simpa [isWordChar, and_comm] using hword c hc
  apart := by
    intro a ha b hb hakind hbkind
    obtain ⟨x, k, hx, rfl⟩ := mem_tokens_iff.1 ha
    obtain ⟨y, m, hy, rfl⟩ := mem_tokens_iff.1 hb
    rw [kind_toToken_eq_word_iff] at hakind hbkind
    rw [stop_toToken, start_toToken]
    exact h.words_apart hx hy hakind hbkind
  longest := by
    intro t ht hkind i c hc hat
    obtain ⟨x, k, hx, rfl⟩ := mem_tokens_iff.1 ht
    rw [kind_toToken_eq_word_iff] at hkind
    rw [start_toToken, stop_toToken] at hat
    rcases hat with hbefore | rfl
    · exact h.isWordChar_before hx hkind hbefore hc
    · exact h.isWordChar_behind hx hkind hc
  again := h.scan_spaced line

end Layout

namespace Grammar

open Token

/-- **Scanning a line loses nothing but gaps, and fails only where it must.**  It takes the longest
match each time.  It fails if the line has white space that is no space, tab or form feed, and then
the first such character is told, with its column.  Otherwise it finds tokens that tell the line but
for its gaps. -/
theorem scanLine_covers (number : Nat) (cs : List Char) :
    Matches number 1 cs (scan number cs) ∧
    ((∃ f, scanLine number cs = .error f) ↔ ∃ c ∈ cs, Stray c) ∧
    (∀ f, scanLine number cs = .error f → ∃ before c after, cs = before ++ c :: after ∧
      (∀ d ∈ before, ¬ Stray d) ∧ Stray c ∧ f = (.unexpectedChar c, before.length + 1) ∧
      (f.inLine number cs).message =
        "Unexpected char " ++ Text.quoted (String.singleton c) ++ " at " ++ toString number ++ ":" ++
          toString (before.length + 1) ++ "\n" ++ String.ofList cs ++ "\n" ++
          String.ofList (List.replicate before.length ' ' ++ ['^'])) ∧
    ((¬ ∃ c ∈ cs, Stray c) →
      ∃ tokens, scanLine number cs = .ok tokens ∧ Covers number cs tokens) := by
  refine ⟨(matches_iff _ _ _).2 rfl, ?_⟩
  rcases scan_cases number cs with ⟨l, hl, hscan⟩ | ⟨before, c, after, htext, hbefore, hc, hscan⟩
  · have hok : scanLine number cs = .ok (l.tokens number) := by rw [scanLine, hscan]
    have hnone : ¬ ∃ c ∈ cs, Stray c := by
      rintro ⟨c, hc, hstray⟩
      exact (not_fits_iff c).2 hstray (hl.fits c hc)
    simp only [hok, reduceCtorEq, exists_false, false_iff, false_implies, implies_true, true_and]
    exact ⟨hnone, fun _ => ⟨_, rfl, Layout.covers_tokens hl number⟩⟩
  · have herror : scanLine number cs = .error (.unexpectedChar c, 1 + before.length) := by
      rw [scanLine, hscan]
    have hstray : Stray c := (not_fits_iff c).1 hc
    have hsome : ∃ c ∈ cs, Stray c := ⟨c, by simp [htext], hstray⟩
    refine ⟨⟨fun _ => hsome, fun _ => ⟨_, herror⟩⟩, fun f hf => ?_, fun hnone => absurd hsome hnone⟩
    rw [herror] at hf
    obtain rfl := Except.error.inj hf
    refine ⟨before, c, after, htext, fun d hd hd' => (not_fits_iff d).2 hd' (hbefore d hd), hstray,
      by rw [Nat.add_comm], ?_⟩
    rw [LineFault.inLine, message_fault, Nat.add_comm, Nat.add_sub_cancel]
    rfl

/-- A tab stands in a gap and an information separator in a word, but a line tabulation fits
nowhere, and its column is the ninth one. -/
theorem scanLine_covers_of_separator :
    Covers 1 "s\t---> A|\x1cB".toList [⟨.word, "s", 1, 1⟩, ⟨.word, "--->", 1, 3⟩,
        ⟨.word, "A", 1, 8⟩, ⟨.bar, "|", 1, 9⟩, ⟨.word, "\x1cB", 1, 10⟩] ∧
      ∃ before c after, "s ---> A\x0bB".toList = before ++ c :: after ∧
        (∀ d ∈ before, ¬ Stray d) ∧ Stray c ∧
        scanLine 2 "s ---> A\x0bB".toList = .error (.unexpectedChar c, before.length + 1) ∧
        before.length + 1 = 9 := by
  have hnone : ¬ ∃ c ∈ "s\t---> A|\x1cB".toList, Stray c := by
    have hall : ("s\t---> A|\x1cB".toList.all fun c => !decide (Stray c)) = true := by
      decide +kernel
    rintro ⟨c, hc, hstray⟩
    have hnot := List.all_eq_true.1 hall c hc
    rw [decide_eq_true hstray] at hnot
    exact absurd hnot (by simp)
  obtain ⟨tokens, hok, hcovers⟩ := (scanLine_covers 1 "s\t---> A|\x1cB".toList).2.2.2 hnone
  have htokens : scanLine 1 "s\t---> A|\x1cB".toList = .ok [⟨.word, "s", 1, 1⟩,
      ⟨.word, "--->", 1, 3⟩, ⟨.word, "A", 1, 8⟩, ⟨.bar, "|", 1, 9⟩, ⟨.word, "\x1cB", 1, 10⟩] := by
    decide +kernel
  rw [htokens] at hok
  rw [← Except.ok.inj hok] at hcovers
  have herror : scanLine 2 "s ---> A\x0bB".toList = .error (.unexpectedChar '\x0b', 9) := by
    decide +kernel
  obtain ⟨before, c, after, htext, hbefore, hc, hf, -⟩ :=
    (scanLine_covers 2 "s ---> A\x0bB".toList).2.2.1 _ herror
  refine ⟨hcovers, before, c, after, htext, hbefore, hc, ?_, (Prod.mk.inj hf).2.symm⟩
  rw [herror, hf]

end Grammar

end LRTables
