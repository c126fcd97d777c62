/-!
# JSON texts

JSON values with the fields of an object in a fixed order, and the way they are
written: every element and every field on a line of its own, four blanks deeper than
what holds it, and all characters beyond the printable ones of ASCII as escapes of
their UTF-16 units.

* `Json.Value` — the values.
* `Json.quote` — a string between double quotes.
* `Json.Value.render` — the text of a value.
-/

namespace LRTables.Json

/-- A JSON value. -/
inductive Value where
  /-- Nothing. -/
  | null
  /-- True or false. -/
  | bool (b : Bool)
  /-- A natural number. -/
  | number (n : Nat)
  /-- A string. -/
  | string (s : String)
  /-- A list of values. -/
  | array (elements : List Value)
  /-- Named values, in the order in which they are written. -/
  | object (fields : List (String × Value))
  deriving Repr, Inhabited

/-! ## Strings -/

/-- A UTF-16 unit as an escape. -/
def escapeUnit (n : Nat) : List Char :=
  ['\\', 'u', Nat.digitChar (n / 4096 % 16), Nat.digitChar (n / 256 % 16),
    Nat.digitChar (n / 16 % 16), Nat.digitChar (n % 16)]

/-- How a character is written in a string.  One beyond the sixteen-bit numbers is
written as the two units that stand for it. -/
def escapeChar (c : Char) : List Char :=
  if c = '\x22' then ['\\', '\x22']
  else if c = '\\' then ['\\', '\\']
  else if c = '\n' then ['\\', 'n']
  else if c = '\r' then ['\\', 'r']
  else if c = '\t' then ['\\', 't']
  else if c = '\x08' then ['\\', 'b']
  else if c = '\x0c' then ['\\', 'f']
  else if ' ' ≤ c ∧ c ≤ '~' then [c]
  else if c.toNat < 0x10000 then escapeUnit c.toNat
  else escapeUnit (0xD800 + (c.toNat - 0x10000) / 0x400) ++
    escapeUnit (0xDC00 + (c.toNat - 0x10000) % 0x400)

/-- The string between double quotes. -/
def quote (s : String) : String :=
  "\"" ++ String.ofList (s.toList.flatMap escapeChar) ++ "\""

/-- Is the character one of the printable ones of ASCII? -/
def isPlain (c : Char) : Prop := ' ' ≤ c ∧ c ≤ '~'

theorem isPlain_escapeUnit (n : Nat) : ∀ d ∈ escapeUnit n, isPlain d := by
  have hdigit : ∀ k, k < 16 → isPlain (Nat.digitChar k) := by
    unfold isPlain
    decide
  intro d hd
  simp only [escapeUnit, List.mem_cons, List.not_mem_nil, or_false] at hd
  rcases hd with rfl | rfl | rfl | rfl | rfl | rfl
  · exact ⟨by decide, by decide⟩
  · exact ⟨by decide, by decide⟩
  · exact hdigit _ (Nat.mod_lt _ (by decide))
  · exact hdigit _ (Nat.mod_lt _ (by decide))
  · exact hdigit _ (Nat.mod_lt _ (by decide))
  · exact hdigit _ (Nat.mod_lt _ (by decide))

/-- What is written is printable ASCII. -/
theorem isPlain_escapeChar (c : Char) : ∀ d ∈ escapeChar c, isPlain d := by
  have hpair : ∀ x, isPlain x → ∀ d ∈ ['\\', x], isPlain d := by
    intro x hx d hd
    simp only [List.mem_cons, List.not_mem_nil, or_false] at hd
    rcases hd with rfl | rfl
    · exact ⟨by decide, by decide⟩
    · exact hx
  intro d hd
  unfold escapeChar at hd
  split at hd
  · exact hpair _ ⟨by decide, by decide⟩ d hd
  split at hd
  · exact hpair _ ⟨by decide, by decide⟩ d hd
  split at hd
  · exact hpair _ ⟨by decide, by decide⟩ d hd
  split at hd
  · exact hpair _ ⟨by decide, by decide⟩ d hd
  split at hd
  · exact hpair _ ⟨by decide, by decide⟩ d hd
  split at hd
  · exact hpair _ ⟨by decide, by decide⟩ d hd
  split at hd
  · exact hpair _ ⟨by decide, by decide⟩ d hd
  split at hd
  · rename_i h
    rw [List.mem_singleton] at hd
    subst hd
    exact h
  split at hd
  · exact isPlain_escapeUnit _ d hd
  · rcases List.mem_append.1 hd with h | h
    · exact isPlain_escapeUnit _ d h
    · exact isPlain_escapeUnit _ d h

/-! ## Values -/

/-- The blanks in front of a line. -/
def indent (depth : Nat) : String := "".pushn ' ' (4 * depth)

/-- Brackets around items, each item on a line of its own; nothing between the brackets
if there is none. -/
def block (opening closing : String) (depth : Nat) (items : List String) : String :=
  if items.isEmpty then opening ++ closing
  else
    opening ++ "\n" ++ ",\n".intercalate (items.map (indent (depth + 1) ++ ·)) ++ "\n" ++
      indent depth ++ closing

mutual

/-- The text of a value that stands at a depth. -/
def Value.renderAt (depth : Nat) : Value → String
  | .null => "null"
  | .bool true => "true"
  | .bool false => "false"
  | .number n => toString n
  | .string s => quote s
  | .array elements => block "[" "]" depth (renderElements (depth + 1) elements)
  | .object fields => block "\x7b" "\x7d" depth (renderFields (depth + 1) fields)

/-- The texts of the elements of a list. -/
def renderElements (depth : Nat) : List Value → List String
  | [] => []
  | v :: rest => v.renderAt depth :: renderElements depth rest

/-- The texts of the fields of an object. -/
def renderFields (depth : Nat) : List (String × Value) → List String
  | [] => []
  | (name, v) :: rest => (quote name ++ ": " ++ v.renderAt depth) :: renderFields depth rest

end

/-- The text of a value. -/
def Value.render (v : Value) : String := v.renderAt 0

end LRTables.Json
