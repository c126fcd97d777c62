import LRTables.Grammar.Token
import Mathlib.Data.List.Chain

/-!
# Lines laid out

A line can be laid out in many ways that all say the same: any run of spaces, tabs and form feeds
may stand before, between and behind its words and bars, and only two words that follow each other
need one.  Scanning a line takes the layout off again, and keeps of it where each lexeme begins.

* `Lexeme` — a word or a bar, without its place.
* `Layout` — lexemes, each with the gap in front of it, and the gap at the end of the line.
* `Layout.Proper` — gaps are gaps, words are words, and neighbouring words are apart.
* `Layout.placed` — the lexemes and the columns where they begin.
* `Layout.scan_text` — what scanning a line that is laid out properly finds.
-/

namespace LRTables

/-- What stands on a line, without its place. -/
inductive Lexeme where
  /-- The bar between alternatives. -/
  | bar
  /-- A word. -/
  | word (characters : String)
  deriving DecidableEq, Repr

/-- The characters of a lexeme. -/
def Lexeme.toChars : Lexeme → List Char
  | .bar => ['|']
  | .word w => w.toList

/-- Is the lexeme a word? -/
def Lexeme.isWord : Lexeme → Bool
  | .bar => false
  | .word _ => true

@[simp] theorem Lexeme.toChars_bar : Lexeme.bar.toChars = ['|'] := rfl

@[simp] theorem Lexeme.toChars_word (w : String) : (Lexeme.word w).toChars = w.toList := rfl

/-- What a token is, its place left aside. -/
def Token.toLexeme (t : Token) : Lexeme :=
  match t.kind with
  | .bar => .bar
  | .word => .word t.lexeme

/-- The token of a lexeme at a place. -/
def Lexeme.toToken (line : Nat) : Lexeme → Nat → Token
  | .bar, column => ⟨.bar, "|", line, column⟩
  | .word w, column => ⟨.word, w, line, column⟩

@[simp] theorem Lexeme.toLexeme_toToken (line : Nat) (x : Lexeme) (column : Nat) :
    (x.toToken line column).toLexeme = x := by
  cases x <;> rfl

@[simp] theorem Lexeme.line_toToken (line : Nat) (x : Lexeme) (column : Nat) :
    (x.toToken line column).line = line := by
  cases x <;> rfl

@[simp] theorem Lexeme.column_toToken (line : Nat) (x : Lexeme) (column : Nat) :
    (x.toToken line column).column = column := by
  cases x <;> rfl

@[simp] theorem Lexeme.toList_lexeme_toToken (line : Nat) (x : Lexeme) (column : Nat) :
    (x.toToken line column).lexeme.toList = x.toChars := by
  cases x <;> simp [toToken]

theorem Token.toLexeme_eq_bar_iff (t : Token) : t.toLexeme = .bar ↔ t.kind = .bar := by
  unfold toLexeme
  split <;> simp_all

theorem Token.toLexeme_eq_word_iff (t : Token) (w : String) :
    t.toLexeme = .word w ↔ t.kind = .word ∧ t.lexeme = w := by
  unfold toLexeme
  split <;> simp_all

/-! ## Layouts -/

/-- Are these spaces, tabs and form feeds? -/
def IsGap (cs : List Char) : Prop := ∀ c ∈ cs, c = ' ' ∨ c = '\t' ∨ c = '\x0c'

instance (cs : List Char) : Decidable (IsGap cs) :=
  List.decidableBAll (fun c => c = ' ' ∨ c = '\t' ∨ c = '\x0c') cs

/-- A lexeme and the gap in front of it. -/
structure Piece where
  /-- The gap. -/
  gap : List Char
  /-- The lexeme behind it. -/
  lexeme : Lexeme
  deriving DecidableEq, Repr

/-- The lexemes of a line, and all the gaps around them. -/
structure Layout where
  /-- The lexemes, each with the gap in front of it. -/
  pieces : List Piece
  /-- The gap at the end of the line. -/
  last : List Char
  deriving DecidableEq, Repr

/-- The characters of a piece. -/
def Piece.text (p : Piece) : List Char := p.gap ++ p.lexeme.toChars

/-- The lexemes of some pieces and the columns where they begin, the first piece at `column`. -/
def Piece.placed (column : Nat) : List Piece → List (Lexeme × Nat)
  | [] => []
  | p :: rest => (p.lexeme, column + p.gap.length) :: placed (column + p.text.length) rest

namespace Layout

/-- The characters of the line. -/
def text (l : Layout) : List Char := l.pieces.flatMap Piece.text ++ l.last

/-- The lexemes of the line. -/
def lexemes (l : Layout) : List Lexeme := l.pieces.map Piece.lexeme

/-- The lexemes of the line and the columns where they begin. -/
def placed (l : Layout) : List (Lexeme × Nat) := Piece.placed 1 l.pieces

/-- The tokens of the line. -/
def tokens (line : Nat) (l : Layout) : List Token := l.placed.map fun e => e.1.toToken line e.2

/-- May the second piece stand behind the first one?  Between two words there must be a gap. -/
def Apart (p q : Piece) : Prop := p.lexeme.isWord = true → q.lexeme.isWord = true → q.gap ≠ []

instance (p q : Piece) : Decidable (Apart p q) :=
  inferInstanceAs (Decidable (p.lexeme.isWord = true → q.lexeme.isWord = true → q.gap ≠ []))

/-- Is the line laid out properly? -/
structure Proper (l : Layout) : Prop where
  /-- Gaps in front of lexemes are gaps. -/
  gaps : ∀ p ∈ l.pieces, IsGap p.gap
  /-- The gap at the end is one. -/
  last : IsGap l.last
  /-- Neighbouring words are apart. -/
  apart : l.pieces.IsChain Apart

theorem proper_iff (l : Layout) :
    l.Proper ↔ (∀ p ∈ l.pieces, IsGap p.gap) ∧ IsGap l.last ∧ l.pieces.IsChain Apart :=
  ⟨fun h => ⟨h.gaps, h.last, h.apart⟩, fun h => ⟨h.1, h.2.1, h.2.2⟩⟩

instance (l : Layout) : Decidable l.Proper := decidable_of_iff' _ l.proper_iff

end Layout

/-! ## Scanning -/

namespace Token

/-- Are these one or more characters that words are made of? -/
def IsWord (w : List Char) : Prop := w ≠ [] ∧ ∀ c ∈ w, isWordChar c = true

instance (w : List Char) : Decidable (IsWord w) :=
  @instDecidableAnd _ _ _ (List.decidableBAll (fun c => isWordChar c = true) w)

theorem isGap_iff (c : Char) : isGap c = true ↔ c = ' ' ∨ c = '\t' ∨ c = '\x0c' := by
  simp [isGap, or_assoc]

theorem isGap_of_isGap {cs : List Char} (h : IsGap cs) : ∀ c ∈ cs, isGap c = true :=
  fun c hc => (isGap_iff c).2 (h c hc)

theorem isWordChar_of_isGap {c : Char} (h : isGap c = true) : isWordChar c = false := by
  simp [isWordChar, isWhiteSpace_of_isGap h]

theorem ne_bar_of_isGap {c : Char} (h : isGap c = true) : c ≠ '|' := by
  rintro rfl
  exact absurd h (by decide)

/-- Scanning through a word collects it. -/
theorem scanFrom_word {w : List Char} (h : ∀ c ∈ w, isWordChar c = true) (line column : Nat)
    (pending rest : List Char) :
    scanFrom line column pending (w ++ rest) =
      scanFrom line (column + w.length) (w.reverse ++ pending) rest := by
  induction w generalizing column pending with
  | nil => simp
  | cons c w ih =>
    have hc : isWordChar c = true := h c (List.mem_cons_self ..)
    rw [List.cons_append, scanFrom, if_pos hc, ih fun d hd => h d (List.mem_cons_of_mem _ hd)]
    rw [List.length_cons, List.reverse_cons, List.append_assoc, List.singleton_append]
    congr 1
    omega

/-- Scanning through a gap finds nothing. -/
theorem scanFrom_gap {gap : List Char} (h : IsGap gap) (line column : Nat) (rest : List Char) :
    scanFrom line column [] (gap ++ rest) = scanFrom line (column + gap.length) [] rest := by
  induction gap generalizing column with
  | nil => simp
  | cons c gap ih =>
    have hc : isGap c = true := isGap_of_isGap h c (List.mem_cons_self ..)
    rw [List.cons_append, scanFrom, if_neg (by simp [isWordChar_of_isGap hc]),
      if_neg (ne_bar_of_isGap hc), if_pos hc, ih fun d hd => h d (List.mem_cons_of_mem _ hd)]
    rw [List.length_cons, show column + 1 + gap.length = column + (gap.length + 1) by omega]
    cases scanFrom line (column + (gap.length + 1)) [] rest <;> rfl

/-- Scanning a bar finds it. -/
theorem scanFrom_bar (line column : Nat) (rest : List Char) :
    scanFrom line column [] ('|' :: rest) =
      (⟨.bar, "|", line, column⟩ :: ·) <$> scanFrom line (column + 1) [] rest := by
  rw [scanFrom, if_neg (by decide), if_pos rfl]
  cases scanFrom line (column + 1) [] rest <;> rfl

/-- A word that was collected ends where no character of a word follows. -/
theorem scanFrom_flush (line column : Nat) (pending : List Char) {rest : List Char}
    (h : ∀ c, rest.head? = some c → isWordChar c = false) :
    scanFrom line column pending rest =
      (ofPending line column pending ++ ·) <$> scanFrom line column [] rest := by
  cases rest with
  | nil => simp [scanFrom, ofPending, Functor.map, Except.map]
  | cons c rest =>
    have hc : isWordChar c = false := h c rfl
    simp only [scanFrom, hc, Bool.false_eq_true, if_false]
    split
    · cases scanFrom line (column + 1) [] rest <;> rfl
    · split
      · cases scanFrom line (column + 1) [] rest <;> rfl
      · rfl

end Token

namespace Layout

open Token

/-- What follows a word on a line is no character of a word. -/
theorem isWordChar_head? {p : Piece} {rest : List Piece} {last : List Char}
    (hp : p.lexeme.isWord = true) (hgaps : ∀ q ∈ rest, IsGap q.gap) (hlast : IsGap last)
    (hapart : (p :: rest).IsChain Apart) {c : Char}
    (hc : (rest.flatMap Piece.text ++ last).head? = some c) : isWordChar c = false := by
  -- what begins with a gap does not begin a word
  have hgap : ∀ {cs more : List Char}, IsGap cs → cs ≠ [] → (cs ++ more).head? = some c →
      isWordChar c = false := by
    intro cs more hcs hne hhead
    obtain ⟨d, ds, rfl⟩ := List.exists_cons_of_ne_nil hne
    obtain rfl : d = c := Option.some.inj hhead
    exact isWordChar_of_isGap (isGap_of_isGap hcs d (List.mem_cons_self ..))
  cases rest with
  | nil =>
    cases last with
    | nil => simp at hc
    | cons d ds => exact @hgap _ [] hlast (by simp) (by simpa using hc)
  | cons q rest =>
    rw [List.flatMap_cons, Piece.text, List.append_assoc, List.append_assoc] at hc
    by_cases hempty : q.gap = []
    · -- without a gap only a bar can follow
      cases hq : q.lexeme with
      | bar =>
        rw [hempty, hq] at hc
        obtain rfl : '|' = c := Option.some.inj hc
        decide
      | word w =>
        have hne := (List.isChain_cons_cons.1 hapart).1 hp (by rw [hq]; rfl)
        exact absurd hempty hne
    · exact hgap (hgaps q (List.mem_cons_self ..)) hempty hc

/-- A word that was collected is the token of it. -/
theorem ofPending_reverse {w : String} (h : w.toList ≠ []) (line column : Nat) :
    ofPending line (column + w.toList.length) w.toList.reverse =
      [(Lexeme.word w).toToken line column] := by
  simp [ofPending, h, Lexeme.toToken]

/-- Scanning pieces finds their lexemes where they stand. -/
theorem scanFrom_pieces {pieces : List Piece} {last : List Char}
    (hgaps : ∀ p ∈ pieces, IsGap p.gap) (hlast : IsGap last) (hapart : pieces.IsChain Apart)
    (hwords : ∀ w, .word w ∈ pieces.map Piece.lexeme → IsWord w.toList) (line column : Nat) :
    scanFrom line column [] (pieces.flatMap Piece.text ++ last) =
      .ok ((Piece.placed column pieces).map fun e => e.1.toToken line e.2) := by
  induction pieces generalizing column with
  | nil =>
    have hscan := scanFrom_gap hlast line column []
    rw [List.append_nil] at hscan
    rw [List.flatMap_nil, List.nil_append, hscan]
    rfl
  | cons p rest ih =>
    have hrest : ∀ q ∈ rest, IsGap q.gap := fun q hq => hgaps q (List.mem_cons_of_mem _ hq)
    have ih := ih hrest hapart.of_cons (fun w hw => hwords w (List.mem_cons_of_mem _ hw))
      (column + p.text.length)
    rw [Piece.text, List.length_append, ← Nat.add_assoc] at ih
    rw [List.flatMap_cons, Piece.text, List.append_assoc, List.append_assoc,
      scanFrom_gap (hgaps p (List.mem_cons_self ..)), Piece.placed, List.map_cons, Piece.text,
      List.length_append, ← Nat.add_assoc]
    cases hp : p.lexeme with
    | bar =>
      rw [hp] at ih
      rw [Lexeme.toChars_bar, List.singleton_append, scanFrom_bar]
      rw [Lexeme.toChars_bar, List.length_singleton] at ih
      rw [ih]
      rfl
    | word w =>
      obtain ⟨hne, hw⟩ := hwords w (by rw [← hp]; exact List.mem_cons_self ..)
      have hflush := fun c hc =>
        isWordChar_head? (c := c) (by rw [hp]; rfl) hrest hlast hapart hc
      rw [hp] at ih
      rw [Lexeme.toChars_word, scanFrom_word hw, List.append_nil, scanFrom_flush _ _ _ hflush]
      rw [Lexeme.toChars_word] at ih
      rw [ih, ofPending_reverse hne]
      rfl

/-- **Scanning takes the layout off**: a line that is laid out properly has the tokens of its
lexemes, in order, where they stand. -/
theorem scan_text {l : Layout} (h : l.Proper) (hwords : ∀ w, .word w ∈ l.lexemes →
    IsWord w.toList) (line : Nat) : scan line l.text = .ok (l.tokens line) :=
  scanFrom_pieces h.gaps h.last h.apart hwords line 1

theorem map_fst_placed (column : Nat) (pieces : List Piece) :
    (Piece.placed column pieces).map Prod.fst = pieces.map Piece.lexeme := by
  induction pieces generalizing column with
  | nil => rfl
  | cons p rest ih => rw [Piece.placed, List.map_cons, List.map_cons, ih]

theorem mem_lexemes_of_mem_placed {l : Layout} {x : Lexeme} {k : Nat} (h : (x, k) ∈ l.placed) :
    x ∈ l.lexemes := by
  rw [lexemes, ← map_fst_placed 1]
  exact List.mem_map_of_mem h

/-- What does not depend on the columns, the tokens of a line have of its lexemes. -/
theorem map_tokens {β : Type} {f : Token → β} {g : Lexeme → β} {line : Nat}
    (h : ∀ x column, f (x.toToken line column) = g x) (l : Layout) :
    (l.tokens line).map f = l.lexemes.map g := by
  rw [tokens, List.map_map, lexemes, ← map_fst_placed 1, List.map_map]
  exact List.map_congr_left fun e _ => h e.1 e.2

/-- The tokens of a line are its lexemes. -/
theorem map_toLexeme_tokens (line : Nat) (l : Layout) :
    (l.tokens line).map Token.toLexeme = l.lexemes := by
  rw [map_tokens fun x column => Lexeme.toLexeme_toToken line x column, List.map_id']

end Layout

end LRTables
