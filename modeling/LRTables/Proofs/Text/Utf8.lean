import LRTables.Text.Utf8
import LRTables.Proofs.Outcome
import Mathlib.Algebra.Group.Nat.Defs

/-!
# Decoding gives back what was encoded

Decoding is strict: it gives a text exactly for the octets of the text, so that nothing but UTF-8 is
read and everything that is is read back.  The first octet of a character says how many others
continue it, and which numbers they can spell; the bounds for the second octet leave out what is
spelled with fewer octets and what is no character.

* `Utf8.continuation` — the octets that continue a character.
* `Utf8.decodeFrom_some_iff` — the rest of a character.
* `Utf8.admits_iff_of_lead` — what the first octet of a character promises.
* `Utf8.decode_eq_ok_iff` — decoding and encoding.
* `Utf8.toList_toUTF8` — the octets that the library encodes a text with.
-/

namespace LRTables.Text.Utf8

/-- The octets that continue a character: the last `count` groups of six bits of a number. -/
def continuation : Nat → Nat → List UInt8
  | 0, _ => []
  | count + 1, n => UInt8.ofNat (n / 64 ^ count % 64 + 0x80) :: continuation count n

/-! ## The rest of a character -/

/-- Can the unfinished character become that of the number?  What its octets spell so far and the
next one has to be in front of the groups of six bits that are owed then. -/
structure Unfinished.Admits (p : Unfinished) (n : Nat) : Prop where
  /-- The next octet is not too small. -/
  low : p.value * 64 + (p.low.toNat - 0x80) ≤ n / 64 ^ (p.owed - 1)
  /-- Nor is it too great. -/
  high : n / 64 ^ (p.owed - 1) ≤ p.value * 64 + (p.high.toNat - 0x80)

theorem Unfinished.admits_iff (p : Unfinished) (n : Nat) :
    p.Admits n ↔ p.value * 64 + (p.low.toNat - 0x80) ≤ n / 64 ^ (p.owed - 1) ∧
      n / 64 ^ (p.owed - 1) ≤ p.value * 64 + (p.high.toNat - 0x80) :=
  ⟨fun h => ⟨h.low, h.high⟩, fun h => ⟨h.1, h.2⟩⟩

/-- Is a next octet owed, one that continues a character? -/
structure Unfinished.Proper (p : Unfinished) : Prop where
  /-- An octet is owed. -/
  owed : 0 < p.owed
  /-- It continues a character. -/
  low : 0x80 ≤ p.low.toNat
  /-- There is one that is allowed. -/
  le : p.low.toNat ≤ p.high.toNat
  /-- It begins no character. -/
  high : p.high.toNat ≤ 0xBF

theorem Unfinished.Proper.push {p : Unfinished} (h : 1 < p.owed) (b : UInt8) :
    (p.push b).Proper :=
  ⟨by simp only [Unfinished.push]; omega, by simp [Unfinished.push], by simp [Unfinished.push],
    by simp [Unfinished.push]⟩

theorem ofNat_toNat_sub {b : UInt8} (h : 0x80 ≤ b.toNat) :
    UInt8.ofNat (b.toNat - 0x80 + 0x80) = b := by
  rw [Nat.sub_add_cancel h, UInt8.ofNat_toNat]

/-- What an unfinished character admits that is continued by an octet. -/
theorem admits_push_iff {p : Unfinished} {b : UInt8} {n : Nat} (h : 1 < p.owed) :
    (p.push b).Admits n ↔ n / 64 ^ (p.owed - 1) = p.value * 64 + (b.toNat - 0x80) := by
  obtain ⟨k, hk⟩ : ∃ k, p.owed = k + 2 := ⟨p.owed - 2, by omega⟩
  have hdiv : n / 64 ^ (k + 2 - 1) = n / 64 ^ k / 64 := by
    rw [show k + 2 - 1 = k + 1 from rfl, Nat.pow_succ, Nat.div_div_eq_div_mul]
  have hpush : (p.push b).Admits n ↔
      (p.value * 64 + (b.toNat - 0x80)) * 64 ≤ n / 64 ^ k ∧
        n / 64 ^ k ≤ (p.value * 64 + (b.toNat - 0x80)) * 64 + 0x3F := by
    simp only [Unfinished.admits_iff, Unfinished.push, hk, UInt8.reduceToNat, Nat.sub_self,
      Nat.add_zero, Nat.add_one_sub_one, Nat.reduceSub]
  rw [hpush, hk, hdiv]
  omega

/-- What the next octet has to be, and what it says of the number. -/
theorem cons_eq_continuation_iff {p : Unfinished} (hp : p.Proper) {b : UInt8}
    {octets rest : List UInt8} {n : Nat} :
    b :: octets = continuation p.owed n ++ rest ∧ p.Admits n ↔
      (p.low ≤ b ∧ b ≤ p.high) ∧ n / 64 ^ (p.owed - 1) = p.value * 64 + (b.toNat - 0x80) ∧
        octets = continuation (p.owed - 1) n ++ rest := by
  obtain ⟨howed, hlow, hmid, hhigh⟩ := hp
  obtain ⟨k, hk⟩ : ∃ k, p.owed = k + 1 := ⟨p.owed - 1, by omega⟩
  have hsub : k + 1 - 1 = k := rfl
  rw [UInt8.le_iff_toNat_le, UInt8.le_iff_toNat_le]
  constructor
  · rintro ⟨heq, hle, hge⟩
    rw [hk, continuation, List.cons_append, List.cons.injEq] at heq
    obtain ⟨rfl, hrest⟩ := heq
    rw [hk, hsub] at hle hge ⊢
    have hmod : n / 64 ^ k % 64 < 64 := Nat.mod_lt _ (by decide)
    rw [UInt8.toNat_ofNat_of_lt' (by change _ < 256; omega)]
    exact ⟨by omega, by omega, hrest⟩
  · rintro ⟨⟨hle, hge⟩, hn, rfl⟩
    rw [hk, hsub] at hn ⊢
    refine ⟨?_, ?_, ?_⟩
    · have hmod : n / 64 ^ k % 64 = b.toNat - 0x80 := by omega
      rw [continuation, hmod, ofNat_toNat_sub (by omega), List.cons_append]
    · rw [hk, hsub]
      omega
    · rw [hk, hsub]
      omega

/-- **The rest of a character**: an unfinished character is continued by the octets of a number
that it can become. -/
theorem decodeFrom_some_iff {p : Unfinished} (hp : p.Proper) {position : Nat}
    {octets : List UInt8} {cs : List Char} :
    decodeFrom position (some p) octets = .ok cs ↔
      ∃ n rest cs', (octets = continuation p.owed n ++ rest ∧ p.Admits n) ∧
        decodeFrom (position + (p.octets.length + p.owed)) none rest = .ok cs' ∧
        cs = Char.ofNat n :: cs' := by
  induction octets generalizing p with
  | nil =>
    obtain ⟨k, hk⟩ : ∃ k, p.owed = k + 1 := ⟨p.owed - 1, by have := hp.owed; omega⟩
    simp [decodeFrom, hk, continuation]
  | cons b octets ih =>
    simp only [cons_eq_continuation_iff hp]
    by_cases hb : p.low ≤ b ∧ b ≤ p.high
    · by_cases hone : p.owed ≤ 1
      · have howed : p.owed = 1 := by have := hp.owed; omega
        rw [decodeFrom, if_pos hb, if_pos hone, map_eq_ok_iff]
        simp only [hb, howed, Unfinished.push, List.length_cons, true_and, continuation,
          List.nil_append, Nat.sub_self, Nat.pow_zero, Nat.div_one, and_self]
        constructor
        · rintro ⟨cs', hrest, hcs⟩
          exact ⟨p.value * 64 + (b.toNat - 0x80), octets, cs', ⟨rfl, rfl⟩, hrest, hcs⟩
        · rintro ⟨n, rest, cs', ⟨hn, hoctets⟩, hrest, hcs⟩
          rw [hn] at hcs
          rw [hoctets]
          exact ⟨cs', hrest, hcs⟩
      · have hlt : 1 < p.owed := by omega
        have hlength : (p.push b).octets.length + (p.push b).owed = p.octets.length + p.owed := by
          simp only [Unfinished.push, List.length_cons]
          omega
        have howed : (p.push b).owed = p.owed - 1 := rfl
        rw [decodeFrom, if_pos hb, if_neg hone, ih (Unfinished.Proper.push hlt b), hlength, howed]
        simp only [admits_push_iff hlt, hb, and_self, true_and]
        constructor
        · rintro ⟨n, rest, cs', ⟨hoctets, hn⟩, hrest, rfl⟩
          exact ⟨n, rest, cs', ⟨hn, hoctets⟩, hrest, rfl⟩
        · rintro ⟨n, rest, cs', ⟨hn, hoctets⟩, hrest, rfl⟩
          exact ⟨n, rest, cs', ⟨hoctets, hn⟩, hrest, rfl⟩
    · simp [decodeFrom, hb]

/-! ## The first octet -/

/-- The number that the first of several octets of a character is. -/
def firstOctet (n : Nat) : Nat :=
  if n ≤ 0x7FF then n / 64 + 0xC0 else if n ≤ 0xFFFF then n / 4096 + 0xE0 else n / 262144 + 0xF0

/-- How many octets continue a character of several octets. -/
def continued (n : Nat) : Nat := if n ≤ 0x7FF then 1 else if n ≤ 0xFFFF then 2 else 3

theorem toNat_lt (c : Char) : c.toNat < 0x110000 := by
  have := c.valid
  have hc : c.toNat = c.val.toNat := rfl
  rcases this with h | ⟨-, h⟩
  · omega
  · omega

/-- A character of one octet. -/
theorem utf8EncodeChar_of_le {c : Char} (h : c.toNat ≤ 0x7F) :
    String.utf8EncodeChar c = [UInt8.ofNat c.toNat] := if_pos h

/-- A character of several octets. -/
theorem utf8EncodeChar_of_lt {c : Char} (h : 0x7F < c.toNat) : String.utf8EncodeChar c =
    UInt8.ofNat (firstOctet c.toNat) :: continuation (continued c.toNat) c.toNat := by
  have hlt := toNat_lt c
  have hc : c.val.toNat = c.toNat := rfl
  simp only [String.utf8EncodeChar, hc, if_neg (Nat.not_le.2 h), firstOctet, continued]
  split
  · rw [Nat.mod_eq_of_lt (show c.toNat / 64 < 0x20 by omega)]
    simp [continuation]
  · split
    · rw [Nat.mod_eq_of_lt (show c.toNat / 4096 < 0x10 by omega)]
      simp [continuation]
    · rw [Nat.mod_eq_of_lt (show c.toNat / 262144 < 0x08 by omega)]
      simp [continuation]

theorem lead_eq (b : UInt8) : lead b =
    if 0xC2 ≤ b.toNat ∧ b.toNat ≤ 0xDF then some ⟨[b], b.toNat - 0xC0, 1, 0x80, 0xBF⟩
    else if b.toNat = 0xE0 then some ⟨[b], 0, 2, 0xA0, 0xBF⟩
    else if b.toNat = 0xED then some ⟨[b], 0xD, 2, 0x80, 0x9F⟩
    else if 0xE1 ≤ b.toNat ∧ b.toNat ≤ 0xEF then some ⟨[b], b.toNat - 0xE0, 2, 0x80, 0xBF⟩
    else if b.toNat = 0xF0 then some ⟨[b], 0, 3, 0x90, 0xBF⟩
    else if 0xF1 ≤ b.toNat ∧ b.toNat ≤ 0xF3 then some ⟨[b], b.toNat - 0xF0, 3, 0x80, 0xBF⟩
    else if b.toNat = 0xF4 then some ⟨[b], 4, 3, 0x80, 0x8F⟩
    else none := by
  simp only [lead, UInt8.le_iff_toNat_le, ← UInt8.toNat_inj]
  rfl

/-- Which octets begin a character of several. -/
theorem isSome_lead_iff (b : UInt8) :
    (lead b).isSome = true ↔ 0xC2 ≤ b.toNat ∧ b.toNat ≤ 0xF4 := by
  rw [lead_eq]
  split_ifs <;> simp <;> omega

/-- After the first octet of a character others are owed. -/
theorem proper_of_lead {b : UInt8} {p : Unfinished} (h : lead b = some p) : p.Proper := by
  rw [lead_eq] at h
  split_ifs at h <;> obtain rfl := Option.some.inj h <;> constructor <;> simp

/-- **What the first octet promises**: it admits the characters that begin with it. -/
theorem admits_iff_of_lead {b : UInt8} {p : Unfinished} (h : lead b = some p) (n : Nat) :
    p.Admits n ↔ (0x7F < n ∧ n.isValidChar) ∧ firstOctet n = b.toNat := by
  rw [Unfinished.admits_iff, firstOctet, Nat.isValidChar]
  rw [lead_eq] at h
  split_ifs at h <;> obtain rfl := Option.some.inj h <;> simp <;> split_ifs <;> omega

/-- It owes what continues them. -/
theorem continued_of_lead {b : UInt8} {p : Unfinished} (h : lead b = some p) {n : Nat}
    (hn : p.Admits n) : continued n = p.owed := by
  obtain ⟨⟨hlt, hvalid⟩, hfirst⟩ := (admits_iff_of_lead h n).1 hn
  rw [Nat.isValidChar] at hvalid
  rw [firstOctet] at hfirst
  rw [continued]
  rw [lead_eq] at h
  split_ifs at h <;> obtain rfl := Option.some.inj h <;> simp <;> split_ifs at hfirst ⊢ <;> omega

/-- **A character of several octets** is what its first octet promises, continued by the others. -/
theorem utf8EncodeChar_eq_iff {c : Char} (hc : 0x7F < c.toNat) {b : UInt8} {octets : List UInt8} :
    String.utf8EncodeChar c = b :: octets ↔
      ∃ p, lead b = some p ∧ p.Admits c.toNat ∧ octets = continuation p.owed c.toNat := by
  have hlt := toNat_lt c
  have hoctet : (UInt8.ofNat (firstOctet c.toNat)).toNat = firstOctet c.toNat := by
    refine UInt8.toNat_ofNat_of_lt' (show _ < 256 from ?_)
    unfold firstOctet
    split_ifs <;> omega
  rw [utf8EncodeChar_of_lt hc, List.cons.injEq]
  constructor
  · rintro ⟨rfl, rfl⟩
    have hsome : (lead (UInt8.ofNat (firstOctet c.toNat))).isSome = true := by
      rw [isSome_lead_iff, hoctet]
      unfold firstOctet
      split_ifs <;> omega
    obtain ⟨p, hp⟩ := Option.isSome_iff_exists.1 hsome
    have hadmits : p.Admits c.toNat :=
      (admits_iff_of_lead hp _).2 ⟨⟨hc, c.valid⟩, hoctet.symm⟩
    exact ⟨p, hp, hadmits, by rw [continued_of_lead hp hadmits]⟩
  · rintro ⟨p, hp, hadmits, rfl⟩
    refine ⟨?_, by rw [continued_of_lead hp hadmits]⟩
    rw [((admits_iff_of_lead hp _).1 hadmits).2, UInt8.ofNat_toNat]

/-! ## Texts -/

theorem toNat_ofNat {n : Nat} (h : n.isValidChar) : (Char.ofNat n).toNat = n := by
  rw [Char.ofNat, dif_pos h]
  rfl

/-- What a text begins with: a character, in its first octet and what continues it. -/
theorem cons_eq_encode_cons_iff {c : Char} {cs : List Char} {b : UInt8} {octets : List UInt8} :
    b :: octets = encode (c :: cs) ↔
      (c.toNat ≤ 0x7F ∧ b = UInt8.ofNat c.toNat ∧ octets = encode cs) ∨
        0x7F < c.toNat ∧ ∃ p, lead b = some p ∧ p.Admits c.toNat ∧
          octets = continuation p.owed c.toNat ++ encode cs := by
  have hencode : encode (c :: cs) = String.utf8EncodeChar c ++ encode cs := List.flatMap_cons ..
  rw [hencode]
  rcases Nat.lt_or_ge 0x7F c.toNat with hc | hc
  · have hnot : ¬ c.toNat ≤ 0x7F := Nat.not_le.2 hc
    simp only [hnot, hc, false_and, true_and, false_or]
    constructor
    · intro h
      have htail : String.utf8EncodeChar c = b :: continuation (continued c.toNat) c.toNat := by
        rw [utf8EncodeChar_of_lt hc, List.cons_append, List.cons.injEq] at h
        rw [utf8EncodeChar_of_lt hc, h.1]
      obtain ⟨p, hp, hadmits, heq⟩ := (utf8EncodeChar_eq_iff hc).1 htail
      rw [htail, heq, List.cons_append, List.cons.injEq] at h
      exact ⟨p, hp, hadmits, h.2⟩
    · rintro ⟨p, hp, hadmits, rfl⟩
      rw [(utf8EncodeChar_eq_iff hc).2 ⟨p, hp, hadmits, rfl⟩, List.cons_append]
  · have hnot : ¬ 0x7F < c.toNat := Nat.not_lt.2 hc
    simp only [hnot, hc, false_and, true_and, or_false, utf8EncodeChar_of_le hc,
      List.singleton_append, List.cons.injEq]

/-- A text that begins with a character of one octet. -/
theorem cons_eq_encode_iff_of_lt {b : UInt8} (hb : b.toNat < 0x80) {octets : List UInt8}
    {cs : List Char} :
    b :: octets = encode cs ↔ ∃ cs', octets = encode cs' ∧ cs = Char.ofNat b.toNat :: cs' := by
  constructor
  · intro h
    cases cs with
    | nil => simp [encode] at h
    | cons c cs =>
      rcases cons_eq_encode_cons_iff.1 h with ⟨hc, rfl, rfl⟩ | ⟨-, p, hp, -, -⟩
      · refine ⟨cs, rfl, ?_⟩
        rw [UInt8.toNat_ofNat_of_lt' (show _ < 256 by omega), Char.ofNat_toNat]
      · have hsome := (isSome_lead_iff b).1 (by rw [hp]; rfl)
        omega
  · rintro ⟨cs', rfl, rfl⟩
    have hvalid : b.toNat.isValidChar := Or.inl (by omega)
    rw [cons_eq_encode_cons_iff, toNat_ofNat hvalid, UInt8.ofNat_toNat]
    exact Or.inl ⟨by omega, rfl, rfl⟩

/-- A text that begins with a character of several octets. -/
theorem cons_eq_encode_iff_of_ge {b : UInt8} (hb : 0x80 ≤ b.toNat) {octets : List UInt8}
    {cs : List Char} :
    b :: octets = encode cs ↔ ∃ p, lead b = some p ∧ ∃ n cs', p.Admits n ∧
      octets = continuation p.owed n ++ encode cs' ∧ cs = Char.ofNat n :: cs' := by
  constructor
  · intro h
    cases cs with
    | nil => simp [encode] at h
    | cons c cs =>
      rcases cons_eq_encode_cons_iff.1 h with ⟨hc, rfl, -⟩ | ⟨-, p, hp, hadmits, rfl⟩
      · rw [UInt8.toNat_ofNat_of_lt' (show _ < 256 by omega)] at hb
        omega
      · exact ⟨p, hp, c.toNat, cs, hadmits, rfl, by rw [Char.ofNat_toNat]⟩
  · rintro ⟨p, hp, n, cs', hadmits, rfl, rfl⟩
    obtain ⟨⟨hlt, hvalid⟩, -⟩ := (admits_iff_of_lead hp n).1 hadmits
    rw [cons_eq_encode_cons_iff, toNat_ofNat hvalid]
    exact Or.inr ⟨hlt, p, hp, hadmits, rfl⟩

/-- Decoding gives a text exactly for the octets of the text, wherever it begins. -/
theorem decodeFrom_eq_ok_iff {position : Nat} {octets : List UInt8} {cs : List Char} :
    decodeFrom position none octets = .ok cs ↔ octets = encode cs := by
  induction hn : octets.length using Nat.strongRecOn generalizing position octets cs with
  | ind n ih =>
    cases octets with
    | nil => cases cs <;> simp [decodeFrom, encode]
    | cons b octets =>
      rw [List.length_cons] at hn
      by_cases hb : b < 0x80
      · rw [decodeFrom, if_pos hb, map_eq_ok_iff, cons_eq_encode_iff_of_lt hb]
        simp only [ih octets.length (by omega) rfl]
      · have hge : 0x80 ≤ b.toNat := Nat.not_lt.1 hb
        rw [decodeFrom, if_neg hb, cons_eq_encode_iff_of_ge hge]
        cases hp : lead b with
        | none => simp
        | some p =>
          simp only [decodeFrom_some_iff (proper_of_lead hp), Option.some.injEq, exists_eq_left']
          -- what is left behind the character is shorter
          have hrest : ∀ m rest, octets = continuation p.owed m ++ rest → rest.length < n := by
            rintro m rest rfl
            rw [List.length_append] at hn
            omega
          constructor
          · rintro ⟨m, rest, cs', ⟨hoctets, hadmits⟩, hdecode, hcs⟩
            rw [ih rest.length (hrest m rest hoctets) rfl] at hdecode
            exact ⟨m, cs', hadmits, by rw [hoctets, hdecode], hcs⟩
          · rintro ⟨m, cs', hadmits, hoctets, hcs⟩
            exact ⟨m, encode cs', cs', ⟨hoctets, hadmits⟩,
              (ih _ (hrest m _ hoctets) rfl).2 rfl, hcs⟩

/-- **Decoding is strict**: it gives a text exactly for the octets of the text. -/
theorem decode_eq_ok_iff {octets : List UInt8} {cs : List Char} :
    decode octets = .ok cs ↔ octets = encode cs := decodeFrom_eq_ok_iff

/-! ## The library's encoding -/

theorem toList_loop (octets : ByteArray) (i : Nat) (before : List UInt8) :
    ByteArray.toList.loop octets i before = before.reverse ++ octets.data.toList.drop i := by
  fun_induction ByteArray.toList.loop octets i before with
  | case1 i before hi ih =>
    have hlt : i < octets.data.toList.length := by simpa using hi
    have hget : octets.get! i = octets.data.toList[i] := by
      cases octets with
      | mk data => rw [ByteArray.get!, getElem!_pos data i hi, Array.getElem_toList]
    rw [ih, List.drop_eq_getElem_cons hlt, List.reverse_cons, hget, List.append_assoc]
    rfl
  | case2 i before hi =>
    have hge : octets.data.toList.length ≤ i := by simpa using hi
    rw [List.drop_eq_nil_of_le hge, List.append_nil]

/-- The library encodes a text with the same octets. -/
theorem toList_toUTF8 (text : String) : text.toUTF8.toList = encode text.toList := by
  rw [ByteArray.toList, toList_loop, String.toUTF8_eq_toByteArray, ← String.utf8Encode_toList,
    List.utf8Encode, List.toList_data_toByteArray]
  rfl

end LRTables.Text.Utf8
