import LRTables.Text.Printable

/-!
# Quoted texts in messages

A text that a message cites stands between single quotes, or between double quotes
when it holds a single quote and no double one.  Inside, the quote in use and the
backslash are escaped by a backslash, the three common controls have their letters,
and every other character that is not printable is written by its code point in
two, four or eight hexadecimal digits.
-/

namespace LRTables.Text

/-- The hexadecimal digits of `n`, lower case, `width` of them. -/
def hexDigits (width n : Nat) : List Char :=
  match width with
  | 0 => []
  | w + 1 => hexDigits w (n / 16) ++ [Nat.digitChar (n % 16)]

/-- A number has as many digits as asked for. -/
@[simp] theorem length_hexDigits (width n : Nat) : (hexDigits width n).length = width := by
  induction width generalizing n with
  | zero => rfl
  | succ w ih => simp [hexDigits, ih]

/-- The code point of a character that is not printable, by its size. -/
def escapeCodePoint (c : Char) : List Char :=
  if c.toNat < 0x100 then '\\' :: 'x' :: hexDigits 2 c.toNat
  else if c.toNat < 0x10000 then '\\' :: 'u' :: hexDigits 4 c.toNat
  else '\\' :: 'U' :: hexDigits 8 c.toNat

/-- How a character is written between the quotes `quote`. -/
def quoteChar (quote c : Char) : List Char :=
  if c = quote ∨ c = '\\' then ['\\', c]
  else if c = '\n' then ['\\', 'n']
  else if c = '\r' then ['\\', 'r']
  else if c = '\t' then ['\\', 't']
  else if isPrintable c then [c]
  else escapeCodePoint c

/-- The quotes that a text is put in: double ones for a text with a single quote
and no double quote, and single ones for all others. -/
def quoteFor (cs : List Char) : Char :=
  if '\x27' ∈ cs ∧ '\x22' ∉ cs then '\x22' else '\x27'

/-- The text in quotes. -/
def quoteChars (cs : List Char) : List Char :=
  quoteFor cs :: cs.flatMap (quoteChar (quoteFor cs)) ++ [quoteFor cs]

/-- The text in quotes. -/
def quoted (s : String) : String := String.ofList (quoteChars s.toList)

/-- A text of printable characters without quotes and backslashes is only put
between single quotes. -/
theorem quoteChars_of_plain {cs : List Char}
    (h : ∀ c ∈ cs, isPrintable c = true ∧ c ≠ '\x27' ∧ c ≠ '\\' ∧ c ≠ '\n' ∧ c ≠ '\r' ∧ c ≠ '\t') :
    quoteChars cs = '\x27' :: cs ++ ['\x27'] := by
  have hq : quoteFor cs = '\x27' :=
    if_neg fun hc => (h _ hc.1).2.1 rfl
  have hm : cs.flatMap (quoteChar '\x27') = cs := by
    clear hq
    induction cs with
    | nil => rfl
    | cons c rest ih =>
      have hc := h c List.mem_cons_self
      have ih' := ih fun x hx => h x (List.mem_cons_of_mem _ hx)
      have hone : quoteChar '\x27' c = [c] := by
        unfold quoteChar
        rw [if_neg (not_or.2 ⟨hc.2.1, hc.2.2.1⟩), if_neg hc.2.2.2.1, if_neg hc.2.2.2.2.1,
          if_neg hc.2.2.2.2.2, if_pos hc.1]
      simp [hone, ih']
  rw [quoteChars, hq, hm]

end LRTables.Text
