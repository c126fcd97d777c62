import LRTables.Grammar.File
import LRTables.Proofs.Text.Newlines
import LRTables.Proofs.Text.Utf8

/-!
# Files and texts

What is read of a file in UTF-8 is what its text is read as.  Line ends are made the same twice on
the way, which changes nothing the second time.  Nor does it matter which line ends they were.

* `Grammar.ofOctets_toUTF8` — the file of a text.
* `Grammar.parse_joinWith` — line ends do not matter, in texts and in files.
* `Grammar.IsFile` — are the octets those of a text that is a grammar?
* `Grammar.ofOctets_eq_ok_iff`, `Grammar.isFile_iff` — the files that are accepted.
-/

namespace LRTables

/-- Line ends that are the same stay as they are. -/
theorem Text.normalizeNewlines_idem (cs : List Char) :
    normalizeNewlines (normalizeNewlines cs) = normalizeNewlines cs :=
  normalizeNewlines_of_not_mem (not_mem_normalizeNewlines cs)

namespace Grammar

theorem parseChars_normalizeNewlines (cs : List Char) :
    parseChars (Text.normalizeNewlines cs) = parseChars cs := by
  rw [parseChars, Text.normalizeNewlines_idem, parseChars]

/-- What is read of the file of a text. -/
theorem readText_toUTF8 (text : String) :
    readText text.toUTF8.toList = .ok (Text.normalizeNewlines text.toList) := by
  rw [readText, Text.Utf8.decode_eq_ok_iff.2 (Text.Utf8.toList_toUTF8 text)]
  rfl

/-- **The file of a text** is read as the text is. -/
theorem ofOctets_toUTF8 (text : String) :
    ofOctets text.toUTF8.toList = (parse text).mapError FileError.text := by
  simp only [ofOctets, readText_toUTF8, parseChars_normalizeNewlines, parse]
  cases parseChars text.toList <;> rfl

/-- **Line ends do not matter.**  Lines that are put together with any line ends that can be told
apart are read as they are with line feeds between them, or have the same fault.  And what is read
of the file of a text is what the text itself is read as: the text of the file, in which line ends
were normalized and then replaced, holds no carriage return, and reading replaces them again. -/
theorem parse_joinWith :
    (∀ (ends : Nat → Text.LineEnd) (lines : List (List Char)),
      (∀ line ∈ lines, '\r' ∉ line ∧ '\n' ∉ line) → Text.Separable ends lines →
      parse (String.ofList (Text.joinWith ends lines)) =
        parse (String.ofList (Text.joinWith (fun _ => .lf) lines))) ∧
    ∀ text : String, ofOctets text.toUTF8.toList = (parse text).mapError FileError.text ∧
      parse text = ofLines (Text.splitLines (Text.replaceNewlines text.toList)) ∧
      ∃ cs, readText text.toUTF8.toList = .ok cs ∧ '\r' ∉ cs ∧
        cs = Text.replaceNewlines (Text.normalizeNewlines text.toList) := by
  constructor
  · intro ends lines hfree hends
    rw [parse, parse, parseChars, parseChars, String.toList_ofList, String.toList_ofList,
      Text.normalizeNewlines_joinWith hfree hends,
      Text.normalizeNewlines_joinWith hfree (Text.separable_lf lines)]
  · intro text
    refine ⟨ofOctets_toUTF8 text, ?_, _, readText_toUTF8 text,
      Text.not_mem_normalizeNewlines _, ?_⟩
    · rw [parse, parseChars, Text.normalizeNewlines_eq_replaceNewlines]
    · rw [← Text.normalizeNewlines_eq_replaceNewlines, Text.normalizeNewlines_idem]

/-- Two carriage returns and a line feed end two lines, and so do two carriage returns.  The fault
stands on the fifth line, of the text and of its file. -/
theorem parse_joinWith_of_returns :
    Text.Separable (fun k => [Text.LineEnd.cr, .crlf, .cr, .cr].getD k .lf)
      ["# one".toList, [], "s ---> A".toList, [], "s ---> b".toList] ∧
    parse "# one\r\r\ns ---> A\r\rs ---> b" = parse "# one\n\ns ---> A\n\ns ---> b" ∧
    parse "# one\r\r\ns ---> A\r\rs ---> b" =
      .error (.fault (.unresolved "b") 5 8 "s ---> b") ∧
    ofOctets "# one\r\r\ns ---> A\r\rs ---> b".toUTF8.toList =
      .error (.text (.fault (.unresolved "b") 5 8 "s ---> b")) := by
  have hends : Text.Separable (fun k => [Text.LineEnd.cr, .crlf, .cr, .cr].getD k .lf)
      ["# one".toList, [], "s ---> A".toList, [], "s ---> b".toList] := by decide
  have hsame := parse_joinWith.1 _ _ (by decide) hends
  rw [show String.ofList (Text.joinWith (fun k => [Text.LineEnd.cr, .crlf, .cr, .cr].getD k .lf)
      ["# one".toList, [], "s ---> A".toList, [], "s ---> b".toList]) =
      "# one\r\r\ns ---> A\r\rs ---> b" by decide +kernel,
    show String.ofList (Text.joinWith (fun _ => .lf)
      ["# one".toList, [], "s ---> A".toList, [], "s ---> b".toList]) =
      "# one\n\ns ---> A\n\ns ---> b" by decide +kernel] at hsame
  have herror : parse "# one\r\r\ns ---> A\r\rs ---> b" =
      .error (.fault (.unresolved "b") 5 8 "s ---> b") := by decide +kernel
  have hfile := (parse_joinWith.2 "# one\r\r\ns ---> A\r\rs ---> b").1
  rw [herror] at hfile
  exact ⟨hends, hsame, herror, hfile⟩

/-- Are the octets those of a text that is a grammar? -/
def IsFile (octets : List UInt8) : Prop :=
  ∃ text : String, text.toUTF8.toList = octets ∧ ∃ g, parse text = .ok g

/-- **The files that are accepted** are those of texts that are. -/
theorem ofOctets_eq_ok_iff {octets : List UInt8} {g : Grammar} :
    ofOctets octets = .ok g ↔
      ∃ text : String, text.toUTF8.toList = octets ∧ parse text = .ok g := by
  constructor
  · intro h
    cases hdecode : Text.Utf8.decode octets with
    | error e =>
      rw [ofOctets, readText, hdecode] at h
      exact absurd h (by simp [Functor.map, Except.map])
    | ok cs =>
      have htext : (String.ofList cs).toUTF8.toList = octets := by
        rw [Text.Utf8.toList_toUTF8, String.toList_ofList, Text.Utf8.decode_eq_ok_iff.1 hdecode]
      refine ⟨String.ofList cs, htext, ?_⟩
      rw [← htext, ofOctets_toUTF8] at h
      cases hparse : parse (String.ofList cs) with
      | error e => simp [hparse, Except.mapError] at h
      | ok g' =>
        rw [hparse] at h
        rw [show g' = g from Except.ok.inj h]
  · rintro ⟨text, rfl, hparse⟩
    rw [ofOctets_toUTF8, hparse]
    rfl

/-- The octets of a text that is a grammar are those that are accepted. -/
theorem isFile_iff {octets : List UInt8} : IsFile octets ↔ ∃ g, ofOctets octets = .ok g := by
  constructor
  · rintro ⟨text, htext, g, hparse⟩
    exact ⟨g, ofOctets_eq_ok_iff.2 ⟨text, htext, hparse⟩⟩
  · rintro ⟨g, hg⟩
    obtain ⟨text, htext, hparse⟩ := ofOctets_eq_ok_iff.1 hg
    exact ⟨text, htext, g, hparse⟩

end Grammar

end LRTables
