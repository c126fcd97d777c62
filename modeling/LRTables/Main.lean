import LRTables.CommandLine.Run

/-!
# The program

Runs a command line on the disk of the system.  What there is to do is decided by
`LRTables.CommandLine`; here files are read and written, and texts printed.
-/

namespace LRTables.CommandLine

/-- The number that the system gives an error. -/
def numberOf : IO.Error → UInt32
  | .noFileOrDirectory _ code _ => code
  | .alreadyExists _ code _ => code
  | .inappropriateType _ code _ => code
  | .illegalOperation code _ => code
  | .invalidArgument _ code _ => code
  | .otherError code _ => code
  | _ => 0

/-- The number of an error without its sign. -/
def systemCode (e : IO.Error) : Nat := min (numberOf e).toNat (0 - numberOf e).toNat

/-- Why the system refuses to use a path. -/
def refusalOf (p : Path) (e : IO.Error) : SystemError :=
  match systemCode e with
  | 2 => .refused .notFound p
  | 17 => .refused .alreadyExists p
  | 20 => .refused .notDirectory p
  | 21 => .refused .isDirectory p
  | 36 => .refused .nameTooLong p
  | _ => .other (toString e)

/-- Tries an operation on a path. -/
def attempt {α : Type} (p : Path) (operation : IO α) : IO (Except SystemError α) := do
  if p.hasNull then return .error .nullCharacter
  try return .ok (← operation)
  catch e => return .error (refusalOf p e)

/-- The octets of a file. -/
def readOctets (p : Path) : IO (Except SystemError (List UInt8)) :=
  attempt p do return (← IO.FS.readBinFile p.toText).toList

/-- Makes a directory, unless there is one. -/
def ensureDirectory (p : Path) : IO (Except SystemError Unit) := do
  match ← attempt p (IO.FS.createDir p.toText) with
  | .ok _ => return .ok ()
  | .error e =>
    match ← readOctets p with
    | .error (.refused .isDirectory _) => return .ok ()
    | _ => return .error e

/-- Makes a directory, given its names in reverse, and all that are missing on the way. -/
def makeDirectories (root : String) : List String → IO (Except SystemError Unit)
  | [] => ensureDirectory ⟨root, []⟩
  | name :: above => do
    let p : Path := ⟨root, (name :: above).reverse⟩
    match ← ensureDirectory p with
    | .error (.refused .notFound _) =>
      match ← makeDirectories root above with
      | .ok _ => ensureDirectory p
      | .error e => return .error e
    | result => return result

/-- Writes a text to a path, with the directories that are missing on the way. -/
def saveText (p : Path) (text : String) : IO (Except SystemError Unit) := do
  match ← makeDirectories p.parent.root p.parent.parts.reverse with
  | .ok _ => attempt p (IO.FS.writeBinFile p.toText text.toUTF8)
  | .error e => return .error e

/-- What a command line shows, when all that it asks for has been done. -/
def perform : Request → IO Outcome
  | .help scope => return helpOutcome scope
  | .refuse scope e => return refusal scope e
  | .run a => do
    let p := plan a (← readOctets (.ofText a.file))
    match p.step with
    | .write path _ text => return p.outcome (← saveText path text)
    | _ => return p.outcome (.ok ())

end LRTables.CommandLine

/-- Runs a command line. -/
def main (arguments : List String) : IO UInt32 := do
  let outcome ← LRTables.CommandLine.perform (LRTables.CommandLine.Request.read arguments)
  (← IO.getStderr).putStr outcome.stderr
  (← IO.getStdout).putStr outcome.stdout
  return UInt32.ofNat outcome.code
