import LRTables.CommandLine.Path
import LRTables.OrderedMap
import LRTables.Text.Quoted

/-!
# Files and directories

What is on a disk: for each place, given by the names that lead to it from the root, a
file with its octets or a directory.  The root is always a directory.  Paths are
followed name by name; every place on the way must be a directory.

* `Disk.read`, `Disk.makeDirectories`, `Disk.write` — the operations.
* `SystemError` — why one of them was refused.
-/

namespace LRTables.CommandLine

/-! ## Refusals -/

/-- Why the system refuses to follow or to use a path. -/
inductive SystemError.Cause where
  /-- There is nothing at a place. -/
  | notFound
  /-- There is something already. -/
  | alreadyExists
  /-- A file is in the way. -/
  | notDirectory
  /-- The place is a directory. -/
  | isDirectory
  /-- A name or the whole path has too many octets. -/
  | nameTooLong
  deriving DecidableEq, Repr

/-- A refusal of the system. -/
inductive SystemError where
  /-- The operation on the path was refused. -/
  | refused (cause : SystemError.Cause) (path : Path)
  /-- The path holds a null character. -/
  | nullCharacter
  /-- Something else was in the way, in the words of the system. -/
  | other (words : String)
  deriving DecidableEq, Repr

/-- The name of the kind of refusal. -/
def SystemError.kind : SystemError → String
  | .refused .notFound _ => "FileNotFoundError"
  | .refused .alreadyExists _ => "FileExistsError"
  | .refused .notDirectory _ => "NotADirectoryError"
  | .refused .isDirectory _ => "IsADirectoryError"
  | .refused .nameTooLong _ => "OSError"
  | .nullCharacter => "ValueError"
  | .other _ => "OSError"

/-- The number of the cause and its words. -/
def SystemError.Cause.message : SystemError.Cause → String
  | .notFound => "[Errno 2] No such file or directory"
  | .alreadyExists => "[Errno 17] File exists"
  | .notDirectory => "[Errno 20] Not a directory"
  | .isDirectory => "[Errno 21] Is a directory"
  | .nameTooLong => "[Errno 36] File name too long"

/-- The refusal in words, with the path in quotes. -/
def SystemError.message : SystemError → String
  | .refused cause path => cause.message ++ ": " ++ Text.quoted path.toText
  | .nullCharacter => "embedded null byte"
  | .other words => words

/-! ## Disks -/

/-- What is at a place. -/
inductive Node where
  /-- A file with its octets. -/
  | file (octets : List UInt8)
  /-- A directory. -/
  | directory
  deriving DecidableEq, Repr

/-- A place: the names that lead to it from the root. -/
abbrev Place := List String

/-- Files and directories, and the place where relative paths begin. -/
structure Disk where
  /-- What is at each place but the root. -/
  nodes : OrderedMap Place Node
  /-- Where relative paths begin. -/
  current : Place
  deriving DecidableEq, Repr

namespace Disk

open SystemError (Cause)

/-- The greatest number of octets in a name. -/
def maxName : Nat := 255

/-- The greatest number of octets in a path. -/
def maxPath : Nat := 4095

/-- What is at a place. -/
def node? (d : Disk) (place : Place) : Option Node :=
  if place.isEmpty then some .directory else d.nodes.get? place

/-- The place that the names lead to from a place.  Two dots lead back.  Whether there
is anything at the last place is left open. -/
def follow (d : Disk) (place : Place) : List String → Except Cause Place
  | [] => .ok place
  | name :: rest =>
    match d.node? place with
    | none => .error .notFound
    | some (.file _) => .error .notDirectory
    | some .directory =>
      if name = ".." then d.follow place.dropLast rest
      else if maxName < name.utf8ByteSize then .error .nameTooLong
      else d.follow (place ++ [name]) rest

/-- The place that a path leads to. -/
def locate (d : Disk) (p : Path) : Except Cause Place :=
  if maxPath < p.toText.utf8ByteSize then .error .nameTooLong
  else d.follow (if p.root.isEmpty then d.current else []) p.parts

/-- What a path leads to. -/
def lookup (d : Disk) (p : Path) : Except Cause Node := do
  match d.node? (← d.locate p) with
  | none => .error .notFound
  | some n => .ok n

/-- The octets of a file. -/
def read (d : Disk) (p : Path) : Except SystemError (List UInt8) :=
  if p.hasNull then .error .nullCharacter
  else match d.lookup p with
    | .error cause => .error (.refused cause p)
    | .ok .directory => .error (.refused .isDirectory p)
    | .ok (.file octets) => .ok octets

/-- The disk with a directory at the end of a path, where there is nothing yet. -/
def makeDirectory (d : Disk) (p : Path) : Except Cause Disk := do
  let place ← d.locate p
  match d.node? place with
  | some _ => .error .alreadyExists
  | none => .ok { d with nodes := d.nodes.insert place .directory }

/-- Does the path lead to a directory? -/
def isDirectory (d : Disk) (p : Path) : Bool :=
  match d.lookup p with
  | .ok .directory => true
  | _ => false

/-- The disk with a directory at the end of a path, unless there is one. -/
def ensureDirectory (d : Disk) (p : Path) : Except Cause Disk :=
  match d.makeDirectory p with
  | .ok d' => .ok d'
  | .error cause => if d.isDirectory p then .ok d else .error cause

/-- The disk with a directory at the end of a path, given its names in reverse, and with
every directory that is missing on the way. -/
def makeDirectoriesTo (d : Disk) (root : String) : List String → Except SystemError Disk
  | [] =>
    match d.ensureDirectory ⟨root, []⟩ with
    | .ok d' => .ok d'
    | .error cause => .error (.refused cause ⟨root, []⟩)
  | name :: above =>
    let p : Path := ⟨root, (name :: above).reverse⟩
    match d.ensureDirectory p with
    | .ok d' => .ok d'
    | .error .notFound =>
      match d.makeDirectoriesTo root above with
      | .error e => .error e
      | .ok d' =>
        match d'.ensureDirectory p with
        | .ok d'' => .ok d''
        | .error cause => .error (.refused cause p)
    | .error cause => .error (.refused cause p)

/-- The disk with a directory at the end of a path and every directory on the way. -/
def makeDirectories (d : Disk) (p : Path) : Except SystemError Disk :=
  if p.hasNull then .error .nullCharacter else d.makeDirectoriesTo p.root p.parts.reverse

/-- The disk with a file at the end of a path, in place of the one that may be there. -/
def write (d : Disk) (p : Path) (octets : List UInt8) : Except SystemError Disk :=
  if p.hasNull then .error .nullCharacter
  else match d.locate p with
    | .error cause => .error (.refused cause p)
    | .ok place =>
      match d.node? place with
      | some .directory => .error (.refused .isDirectory p)
      | _ => .ok { d with nodes := d.nodes.insert place (.file octets) }

/-- The disk after a text was written to a path in UTF-8, with the directories that were
missing on the way, and the refusal, if there was one.  Directories that were made
before a refusal stay. -/
def save (d : Disk) (p : Path) (text : String) : Disk × Except SystemError Unit :=
  match d.makeDirectories p.parent with
  | .error e => (d, .error e)
  | .ok d' =>
    match d'.write p text.toUTF8.toList with
    | .error e => (d', .error e)
    | .ok d'' => (d'', .ok ())

/-- The files below the current place that are not the same on the disk `before`, with
the names that lead to them from there. -/
def filesSince (d before : Disk) : List (Place × List UInt8) :=
  d.nodes.entries.filterMap fun e =>
    match e.2 with
    | .directory => none
    | .file octets =>
      if d.current.isPrefixOf e.1 ∧ before.node? e.1 ≠ some e.2 then
        some (e.1.drop d.current.length, octets)
      else none

end Disk

end LRTables.CommandLine
