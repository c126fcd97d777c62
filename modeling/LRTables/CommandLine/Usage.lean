import LRTables.CommandLine.UsageError

/-!
# Help texts

The usage line of the program and of its commands, the help texts, and the complaint
about a command line that means nothing.  A help text lists what can be said in two
columns: the spelling, and behind it what it is for.  The second column begins behind
the widest spelling, but not later than at column 24; a spelling that is too wide for
that has a line of its own.
-/

namespace LRTables.CommandLine

/-- The name of the program. -/
def programName : String := "lrgenc"

/-- What the program is for. -/
def programPurpose : String := "lrgen LR(1) parse table generator CLI"

/-- The name of the program, with that of a command if there is one. -/
def scopeName : Option Command → String
  | none => programName
  | some c => programName ++ " " ++ c.name

/-- A choice between names. -/
def choice (names : List String) : String := "\x7b" ++ ",".intercalate names ++ "\x7d"

/-- The choice between the commands. -/
def commandChoice : String := choice (Command.all.map Command.name)

/-! ## What is listed -/

/-- What the value of an option is called, if it takes one. -/
def Flag.valueName : Flag → Option String
  | .help => none
  | .format => some (choice (Format.all.map Format.name))
  | .output => some "OUTPUT"
  | .debug => none

/-- A spelling with the name of the value behind it. -/
def Flag.withValue (f : Flag) (spelling : String) : String :=
  match f.valueName with
  | none => spelling
  | some v => spelling ++ " " ++ v

/-- All spellings of an option, each with the name of its value. -/
def Flag.invocation (f : Flag) : String := ", ".intercalate (f.spellings.map f.withValue)

/-- The option in a usage line: its first spelling in brackets. -/
def Flag.usage (f : Flag) : String := "[" ++ f.withValue (f.short?.getD f.long) ++ "]"

/-- What an option is for. -/
def Flag.purpose : Flag → String
  | .help => "show this help message and exit"
  | .format => "출력 형식"
  | .output => "출력 파일 경로(미지정시 표준출력)"
  | .debug => "디버그 정보를 상세 출력"

/-- What a command is for. -/
def Command.purpose : Command → String
  | .check => "문법으로 오토마톤/테이블을 만들어 요약을 출력합니다"
  | .table => "파싱 테이블을 출력합니다"
  | .dot => "오토마톤을 Graphviz DOT으로 출력합니다"
  | .productions => "파싱된 프로덕션 목록을 JSON으로 출력합니다"

/-- What the file is for. -/
def filePurpose : String := "문법 파일"

/-- A line of a help text, or two of them. -/
structure Entry where
  /-- How far it is set in. -/
  indent : Nat
  /-- What is said. -/
  invocation : String
  /-- What it is for. -/
  purpose : Option String
  deriving DecidableEq, Repr

/-- What can be said besides options. -/
def nameEntries : Option Command → List Entry
  | none =>
    ⟨2, commandChoice, none⟩ :: Command.all.map fun c => ⟨4, c.name, some c.purpose⟩
  | some _ => [⟨2, "file", some filePurpose⟩]

/-- The options that can be said. -/
def flagEntries (scope : Option Command) : List Entry :=
  let flags := match scope with
    | none => topFlags
    | some c => c.flags
  flags.map fun f => ⟨2, f.invocation, some f.purpose⟩

/-! ## Layout -/

/-- The last column in which the second one may begin. -/
def maxColumn : Nat := 24

/-- The column in which the purposes begin.  Two blanks stand before it. -/
def purposeColumn (entries : List Entry) : Nat :=
  min (((entries.map fun e => e.invocation.length).foldl max 0) + 4) maxColumn

/-- The lines of an entry. -/
def Entry.lines (column : Nat) (e : Entry) : List String :=
  let start := "".pushn ' ' e.indent ++ e.invocation
  match e.purpose with
  | none => [start]
  | some purpose =>
    if start.length + 2 ≤ column then [start.pushn ' ' (column - start.length) ++ purpose]
    else [start, "".pushn ' ' column ++ purpose]

/-- The usage line. -/
def usageLine (scope : Option Command) : String :=
  let words := match scope with
    | none => topFlags.map Flag.usage ++ [commandChoice ++ " ..."]
    | some c => c.flags.map Flag.usage ++ ["file"]
  "usage: " ++ " ".intercalate (scopeName scope :: words)

/-- The help text of the program or of a command. -/
def helpText (scope : Option Command) : String :=
  let column := purposeColumn (nameEntries scope ++ flagEntries scope)
  let purpose := match scope with
    | none => [programPurpose, ""]
    | some _ => []
  "\n".intercalate
    ([usageLine scope, ""] ++ purpose ++
      ["positional arguments:"] ++ (nameEntries scope).flatMap (Entry.lines column) ++
      ["", "options:"] ++ (flagEntries scope).flatMap (Entry.lines column)) ++ "\n"

/-- The complaint about a command line: the usage line and what is wrong. -/
def complaint (scope : Option Command) (e : UsageError) : String :=
  usageLine scope ++ "\n" ++ scopeName scope ++ ": error: " ++ e.message ++ "\n"

end LRTables.CommandLine
