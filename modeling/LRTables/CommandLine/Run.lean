import LRTables.CommandLine.Report
import LRTables.CommandLine.Request
import LRTables.CommandLine.Usage

/-!
# Running a command line

A run reads one file, prints to the two standard streams, writes at most one file, and
ends with a number that tells whether all went well.  What there is to do is planned
from the octets of the file alone, so that a plan can be carried out on a disk that is
described (`Disk.run`) as well as on a real one.

* `Plan` — what is left to do when the file has been read.
* `plan` — the plan of a command.
* `Plan.outcome` — what a run shows, given how writing went.
* `Disk.run` — a run on a disk.
-/

namespace LRTables.CommandLine

/-- What a run shows. -/
structure Outcome where
  /-- Zero if all went well. -/
  code : Nat
  /-- What goes to the standard output. -/
  stdout : String
  /-- What goes to the standard error stream. -/
  stderr : String
  deriving DecidableEq, Repr

/-- The number of a run in which something went wrong. -/
def failureCode : Nat := 2

/-- What is left to do when the file has been read. -/
inductive Step where
  /-- Tell why the command fails. -/
  | fail (e : Failure)
  /-- Print a text. -/
  | print (text : String)
  /-- Write a text to a path, and tell so under a label. -/
  | write (path : Path) (label text : String)
  deriving DecidableEq, Repr

/-- The account to be printed, and what is left to do. -/
structure Plan where
  /-- The account, line by line. -/
  log : List String
  /-- What is left to do. -/
  step : Step
  deriving DecidableEq, Repr

/-- The text with a line feed at its end, unless it has one. -/
def endLine (text : String) : String := if text.endsWith "\n" then text else text ++ "\n"

/-- What to do with what a command shows.  A document goes to the standard output unless
a path is given for it. -/
def Showing.step (output : Option String) : Showing → Step
  | .summary line => .print (line ++ "\n")
  | .document label text =>
    match output with
    | none => .print (endLine text)
    | some path => if path.isEmpty then .print (endLine text) else .write (.ofText path) label text

/-- The plan of a command, given the octets of its file or the reason why there are none. -/
def plan (a : Arguments) (content : Except SystemError (List UInt8)) : Plan :=
  match content with
  | .error e => ⟨[], .fail (.system e)⟩
  | .ok octets =>
    match report octets a.format a.command with
    | .error e => ⟨[], .fail e⟩
    | .ok r => ⟨if a.debug then r.log else [], r.showing.step a.output⟩

/-- What a run shows that carries out a plan, given how the writing went. -/
def Plan.outcome (p : Plan) (written : Except SystemError Unit) : Outcome :=
  match p.step with
  | .fail e => ⟨failureCode, "", Text.unlines (p.log ++ e.lines)⟩
  | .print text => ⟨0, text, Text.unlines p.log⟩
  | .write path label _ =>
    match written with
    | .error e => ⟨failureCode, "", Text.unlines (p.log ++ (Failure.system e).lines)⟩
    | .ok _ => ⟨0, "[EMIT] " ++ label ++ " -> " ++ path.toText ++ "\n", Text.unlines p.log⟩

/-- What is shown of a help text that was asked for. -/
def helpOutcome (scope : Option Command) : Outcome := ⟨0, helpText scope, ""⟩

/-- What is shown of a command line that means nothing. -/
def refusal (scope : Option Command) (e : UsageError) : Outcome :=
  ⟨failureCode, "", complaint scope e⟩

namespace Disk

/-- Carries out a plan: what it shows, and the disk after it. -/
def carryOut (d : Disk) (p : Plan) : Outcome × Disk :=
  match p.step with
  | .write path _ text =>
    let (d', written) := d.save path text
    (p.outcome written, d')
  | _ => (p.outcome (.ok ()), d)

/-- Does what a command is asked to do. -/
def execute (d : Disk) (a : Arguments) : Outcome × Disk :=
  d.carryOut (plan a (d.read (.ofText a.file)))

/-- Runs a command line: what it shows, and the disk after it. -/
def run (d : Disk) (arguments : List String) : Outcome × Disk :=
  match Request.read arguments with
  | .run a => d.execute a
  | .help scope => (helpOutcome scope, d)
  | .refuse scope e => (refusal scope e, d)

end Disk

end LRTables.CommandLine
