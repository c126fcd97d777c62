/-!
# UTF-8

Strict decoding of UTF-8, octet by octet.  `decode` either gives the text, or says
where the first octets stand that belong to no character, which octets these are,
and what is wrong with them.  A sequence that cannot be continued is reported
without the octet that breaks it, because that octet may begin a character itself.
-/

namespace LRTables.Text.Utf8

/-- What is wrong with a sequence of octets. -/
inductive Cause where
  /-- The octet begins no character. -/
  | invalidStart
  /-- The next octet does not continue the character. -/
  | invalidContinuation
  /-- The octets end inside a character. -/
  | unexpectedEnd
  deriving DecidableEq, Repr

/-- Octets that are no text. -/
structure DecodeError where
  /-- The number of octets before the faulty ones. -/
  position : Nat
  /-- The faulty octets, of which there is at least one. -/
  octets : List UInt8
  /-- What is wrong with them. -/
  cause : Cause
  deriving DecidableEq, Repr

/-- An unfinished character. -/
structure Unfinished where
  /-- Its octets so far, the last one first. -/
  octets : List UInt8
  /-- The number that its octets spell so far. -/
  value : Nat
  /-- How many octets are owed. -/
  owed : Nat
  /-- The least next octet. -/
  low : UInt8
  /-- The greatest next octet. -/
  high : UInt8
  deriving DecidableEq, Repr

/-- What the first octet of a character promises: how many octets follow, and
between which bounds the second one lies.  The bounds keep out overlong forms,
surrogates and numbers beyond the last code point. -/
def lead (b : UInt8) : Option Unfinished :=
  if 0xC2 ≤ b ∧ b ≤ 0xDF then some ⟨[b], b.toNat - 0xC0, 1, 0x80, 0xBF⟩
  else if b = 0xE0 then some ⟨[b], 0, 2, 0xA0, 0xBF⟩
  else if b = 0xED then some ⟨[b], 0xD, 2, 0x80, 0x9F⟩
  else if 0xE1 ≤ b ∧ b ≤ 0xEF then some ⟨[b], b.toNat - 0xE0, 2, 0x80, 0xBF⟩
  else if b = 0xF0 then some ⟨[b], 0, 3, 0x90, 0xBF⟩
  else if 0xF1 ≤ b ∧ b ≤ 0xF3 then some ⟨[b], b.toNat - 0xF0, 3, 0x80, 0xBF⟩
  else if b = 0xF4 then some ⟨[b], 4, 3, 0x80, 0x8F⟩
  else none

/-- The unfinished character with one more octet. -/
def Unfinished.push (p : Unfinished) (b : UInt8) : Unfinished :=
  ⟨b :: p.octets, p.value * 64 + (b.toNat - 0x80), p.owed - 1, 0x80, 0xBF⟩

/-- Decoding of the octets from `position` on, between two characters (`none`) or
inside one that began at `position`. -/
def decodeFrom (position : Nat) (unfinished : Option Unfinished) :
    List UInt8 → Except DecodeError (List Char)
  | [] =>
    match unfinished with
    | none => .ok []
    | some p => .error ⟨position, p.octets.reverse, .unexpectedEnd⟩
  | b :: rest =>
    match unfinished with
    | none =>
      if b < 0x80 then (Char.ofNat b.toNat :: ·) <$> decodeFrom (position + 1) none rest
      else match lead b with
        | none => .error ⟨position, [b], .invalidStart⟩
        | some p => decodeFrom position (some p) rest
    | some p =>
      if p.low ≤ b ∧ b ≤ p.high then
        if p.owed ≤ 1 then
          (Char.ofNat (p.push b).value :: ·) <$>
            decodeFrom (position + (p.push b).octets.length) none rest
        else decodeFrom position (some (p.push b)) rest
      else .error ⟨position, p.octets.reverse, .invalidContinuation⟩

/-- The text that the octets spell. -/
def decode (octets : List UInt8) : Except DecodeError (List Char) := decodeFrom 0 none octets

/-- The octets of a text. -/
def encode (text : List Char) : List UInt8 := text.flatMap String.utf8EncodeChar

/-! ## Messages -/

/-- The words for what is wrong. -/
def Cause.message : Cause → String
  | .invalidStart => "invalid start byte"
  | .invalidContinuation => "invalid continuation byte"
  | .unexpectedEnd => "unexpected end of data"

/-- A single octet is named by its value, several by where they stand. -/
def DecodeError.message (e : DecodeError) : String :=
  match e.octets with
  | [b] =>
    "'utf-8' codec can't decode byte 0x" ++
      String.ofList [Nat.digitChar (b.toNat / 16), Nat.digitChar (b.toNat % 16)] ++
      " in position " ++ toString e.position ++ ": " ++ e.cause.message
  | octets =>
    "'utf-8' codec can't decode bytes in position " ++ toString e.position ++ "-" ++
      toString (e.position + octets.length - 1) ++ ": " ++ e.cause.message

end LRTables.Text.Utf8
