import LRTables.Grammar.Basic
import LRTables.Grammar.Error
import LRTables.Grammar.Token
import LRTables.Text.Lines

/-!
# Reading grammars

A grammar text has one rule on a line: a non-terminal, the arrow, and alternatives
with bars between them.  Names in lower case are non-terminals, names in upper case
terminals, and the name of the empty string may only stand alone.  Lines that are
blank or begin with a number sign are skipped.  Every non-terminal on a right side
must be on the left side of some line.

* `RuleLine` — what one line says, with the columns of its symbols.
* `RuleLine.read` — the first fault of a line, or what it says.
* `parse` — the productions of a text, one for each alternative.
-/

namespace LRTables.Grammar

/-! ## Names -/

/-- Is the word a name in lower case? -/
def isNonterminalName (word : String) : Bool :=
  !word.toList.isEmpty && word.toList.all fun c => 'a' ≤ c && c ≤ 'z'

/-- Is the word a name in upper case? -/
def isTerminalName (word : String) : Bool :=
  !word.toList.isEmpty && word.toList.all fun c => 'A' ≤ c && c ≤ 'Z'

/-- The symbol that a word on a right side stands for. -/
def symbolOf? (word : String) : Option Symbol :=
  if word = epsilon then some (.terminal epsilon)
  else if isNonterminalName word then some (.nonterminal word)
  else if isTerminalName word then some (.terminal word)
  else none

/-! ## One line -/

/-- A fault of a line: the reason and the column. -/
abbrev LineFault := Reason × Nat

/-- A symbol and the column where it stands. -/
abbrev Occurrence := Symbol × Nat

/-- A rule as its line gives it. -/
structure RuleLine where
  /-- The number of the line, from one on. -/
  number : Nat
  /-- The characters of the line. -/
  text : List Char
  /-- The non-terminal on the left. -/
  lhs : String
  /-- The alternatives on the right. -/
  alternatives : List (List Occurrence)
  deriving DecidableEq, Repr

/-- The alternatives that the tokens spell, where `pending` holds the symbols of the
unfinished one, the last one first, and `last` is the column of the token before. -/
def readAlternatives (pending : List Occurrence) (last : Nat) :
    List Token → Except LineFault (List (List Occurrence))
  | [] => if pending.isEmpty then .error (.emptyAlternative, last) else .ok [pending.reverse]
  | t :: rest =>
    match t.kind with
    | .bar =>
      if pending.isEmpty then .error (.emptyAlternative, t.column)
      else (pending.reverse :: ·) <$> readAlternatives [] t.column rest
    | .word =>
      match symbolOf? t.lexeme with
      | none => .error (.invalidRight t.lexeme, t.column)
      | some x => readAlternatives ((x, t.column) :: pending) t.column rest

/-- The first place where the name of the empty string has company. -/
def misplacedEpsilon? (alternatives : List (List Occurrence)) : Option Nat :=
  alternatives.findSome? fun alt =>
    if alt.length ≤ 1 then none
    else alt.findSome? fun o => if o.1.name = epsilon then some o.2 else none

/-- Both sides of the rule that the tokens spell. -/
def readRule : List Token → Except LineFault (String × List (List Occurrence))
  | head :: second :: third :: rest =>
    if head.kind = .bar ∨ isNonterminalName head.lexeme = false then
      .error (.invalidLeft head.lexeme, head.column)
    else if second.lexeme ≠ arrow then
      .error (.expectedArrow second.lexeme, second.column)
    else do
      let alternatives ← readAlternatives [] second.column (third :: rest)
      match misplacedEpsilon? alternatives with
      | some column => .error (.epsilonNotAlone, column)
      | none => .ok (head.lexeme, alternatives)
  | tokens => .error (.malformedRule, (tokens.map Token.column).headD 1)

/-- The tokens of a line. -/
def scanLine (number : Nat) (text : List Char) : Except LineFault (List Token) :=
  match Token.scan number text with
  | .error (c, column) => .error (.unexpectedChar c, column)
  | .ok tokens => .ok tokens

/-- The rule on a line. -/
def RuleLine.read (number : Nat) (text : List Char) : Except LineFault RuleLine := do
  let tokens ← scanLine number text
  let (lhs, alternatives) ← readRule tokens
  return ⟨number, text, lhs, alternatives⟩

/-- The fault of a line as a fault of the text. -/
def LineFault.inLine (number : Nat) (text : List Char) (e : LineFault) : ReadError :=
  .fault e.1 number e.2 (String.ofList text)

/-- The productions of a rule, one for each alternative. -/
def RuleLine.productions (r : RuleLine) : List Production :=
  r.alternatives.map fun alt => ⟨r.lhs, alt.map Prod.fst, some r.number⟩

/-! ## All lines -/

/-- Is the line one that says nothing? -/
def isSkipped (text : List Char) : Bool :=
  text.head? == some '#' || text.all Text.isBlank

/-- The rules on the lines from `number` on, or the fault of the first line that has one. -/
def readLines (number : Nat) : List (List Char) → Except ReadError (List RuleLine)
  | [] => .ok []
  | text :: rest =>
    if isSkipped text then readLines (number + 1) rest
    else match RuleLine.read number text with
      | .error e => .error (LineFault.inLine number text e)
      | .ok r => (r :: ·) <$> readLines (number + 1) rest

/-- The first non-terminal on the right sides of the rules that is not among the
names `defined`, as a fault. -/
def unresolved? (defined : List String) (rules : List RuleLine) : Option ReadError :=
  rules.findSome? fun r => r.alternatives.findSome? fun alt => alt.findSome? fun o =>
    match o.1 with
    | .terminal _ => none
    | .nonterminal name =>
      if name ∈ defined then none
      else some (LineFault.inLine r.number r.text (.unresolved name, o.2))

/-- The grammar that the lines spell. -/
def ofLines (lines : List (List Char)) : Except ReadError Grammar := do
  let rules ← readLines 1 lines
  if rules.isEmpty then throw .noRules
  match unresolved? (rules.map RuleLine.lhs) rules with
  | some e => throw e
  | none => return rules.flatMap RuleLine.productions

/-- The grammar that a text spells. -/
def parseChars (text : List Char) : Except ReadError Grammar :=
  ofLines (Text.splitLines (Text.normalizeNewlines text))

/-- The grammar that a text spells: a production for each alternative of each rule,
in the order of the text. -/
def parse (text : String) : Except ReadError Grammar := parseChars text.toList

end LRTables.Grammar
