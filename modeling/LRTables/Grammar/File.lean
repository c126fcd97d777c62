import LRTables.Grammar.Reader
import LRTables.Text.Utf8

/-!
# Grammar files

A grammar file holds a grammar text in UTF-8.  A byte order mark is a character like
any other.
-/

namespace LRTables.Grammar

/-- Why a file is no grammar. -/
inductive FileError where
  /-- Its octets are no text. -/
  | encoding (e : Text.Utf8.DecodeError)
  /-- Its text is no grammar. -/
  | text (e : ReadError)
  deriving DecidableEq, Repr

/-- The text of a file, all line ends turned into line feeds. -/
def readText (octets : List UInt8) : Except Text.Utf8.DecodeError (List Char) :=
  Text.normalizeNewlines <$> Text.Utf8.decode octets

/-- The grammar in a file. -/
def ofOctets (octets : List UInt8) : Except FileError Grammar :=
  match readText octets with
  | .error e => .error (.encoding e)
  | .ok text =>
    match parseChars text with
    | .error e => .error (.text e)
    | .ok g => .ok g

end LRTables.Grammar
