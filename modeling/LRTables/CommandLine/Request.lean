import LRTables.CommandLine.Argument

/-!
# Requests

The arguments of a command line are a command, a file, and options that may stand
anywhere.  Reading them ends early when the help text is asked for or something is
wrong, and whichever comes first decides.

* `gather` — the way through the arguments of a command.
* `readCommand` — what the arguments behind the name of a command ask for.
* `Request.read` — what the whole command line asks for.
-/

namespace LRTables.CommandLine

/-! ## A command -/

/-- What a command is asked to do. -/
structure Arguments where
  /-- The command. -/
  command : Command
  /-- The file to read. -/
  file : String
  /-- The form of the table. -/
  format : Format := .json
  /-- The file to write to. -/
  output : Option String := none
  /-- Is an account of the construction asked for? -/
  debug : Bool := false
  deriving DecidableEq, Repr

/-- What was read of the arguments of a command. -/
structure Gathered where
  /-- The file. -/
  file : Option String := none
  /-- The form of the table. -/
  format : Format := .json
  /-- The file to write to. -/
  output : Option String := none
  /-- Is an account asked for? -/
  debug : Bool := false
  /-- The arguments that mean nothing. -/
  extras : List String := []
  deriving DecidableEq, Repr

/-- Why the reading of arguments ends early. -/
inductive Stop where
  /-- The help text was asked for. -/
  | help
  /-- Something is wrong. -/
  | fault (e : UsageError)
  deriving DecidableEq, Repr

/-- What an option says, with its value if it has one. -/
def Gathered.give (g : Gathered) (f : Flag) (value : String) : Except Stop Gathered :=
  match f with
  | .help => .error .help
  | .debug => .ok { g with debug := true }
  | .output => .ok { g with output := some value }
  | .format =>
    match Format.ofName? value with
    | some format => .ok { g with format := format }
    | none => .error (.fault (.unknownFormat value))

/-- What several options say, one after the other. -/
def Gathered.giveAll (g : Gathered) (given : List (Flag × Option String)) : Except Stop Gathered :=
  given.foldlM (fun g x => g.give x.1 (x.2.getD "")) g

/-- The arguments gathered with one more that means nothing. -/
def Gathered.extra (g : Gathered) (argument : String) : Gathered :=
  { g with extras := g.extras ++ [argument] }

/-- Goes through the arguments of a command.  The first name is the file, whatever
stands between the options; two dashes beside it are left out. -/
def gather (flags : List Flag) (g : Gathered) : List Classified → Except Stop Gathered
  | [] => .ok g
  | .plain a :: .separator :: rest =>
    match g.file with
    | none => gather flags { g with file := some a } rest
    | some _ => gather flags ((g.extra a).extra "--") rest
  | .plain a :: rest =>
    match g.file with
    | none => gather flags { g with file := some a } rest
    | some _ => gather flags (g.extra a) rest
  | .separator :: .plain a :: rest =>
    match g.file with
    | none => gather flags { g with file := some a } rest
    | some _ => gather flags ((g.extra "--").extra a) rest
  | .separator :: rest => gather flags (g.extra "--") rest
  | .unknown a :: rest => gather flags (g.extra a) rest
  | .flag f isShort attached :: rest =>
    match cluster flags f isShort attached with
    | .error e => .error (.fault e)
    | .ok c =>
      let g' := match c.leftover? with
        | none => g
        | some a => g.extra a
      match c.awaiting? with
      | none => do gather flags (← g'.giveAll c.given) rest
      | some opened =>
        match rest with
        | .plain value :: rest' => do
          gather flags (← (← g'.giveAll c.given).give opened value) rest'
        | _ => .error (.fault (.missingValue opened))

/-- The arguments behind the name of a command: what they ask for, and those that mean
nothing. -/
def readCommand (command : Command) (arguments : List String) :
    Except Stop (Arguments × List String) :=
  match classifyAll command.flags arguments with
  | .error e => .error (.fault e)
  | .ok classified => do
    let g ← gather command.flags {} classified
    match g.file with
    | none => .error (.fault .missingFile)
    | some file =>
      .ok ({ command, file, format := g.format, output := g.output, debug := g.debug }, g.extras)

/-! ## The command line -/

/-- What the command line asks for. -/
inductive Request where
  /-- The help text, of a command or of the program. -/
  | help (scope : Option Command)
  /-- Nothing that can be done; a command or the program complains. -/
  | refuse (scope : Option Command) (e : UsageError)
  /-- Something to do. -/
  | run (a : Arguments)
  deriving DecidableEq, Repr

/-- The request of a reading that ended early. -/
def Stop.request (scope : Option Command) : Stop → Request
  | .help => .help scope
  | .fault e => .refuse scope e

/-- The command line behind options that mean nothing, `extras`.  The first name is the
command, and all that stands behind it is for the command. -/
def readFrom (extras : List String) : List String → Request
  | [] => .refuse none .missingCommand
  | "--" :: rest =>
    if rest.isEmpty then .refuse none .missingCommand else .refuse none (.unknownCommand "--")
  | argument :: rest =>
    match classify topFlags argument with
    | .error e => .refuse none e
    | .ok (.flag f isShort attached) =>
      match cluster topFlags f isShort attached with
      | .error e => .refuse none e
      | .ok _ => .help none
    | .ok (.unknown a) => readFrom (extras ++ [a]) rest
    | .ok _ =>
      match Command.ofName? argument with
      | none => .refuse none (.unknownCommand argument)
      | some command =>
        match readCommand command rest with
        | .error stop => stop.request (some command)
        | .ok (a, more) =>
          if (extras ++ more).isEmpty then .run a
          else .refuse none (.unrecognized (extras ++ more))

/-- What the command line asks for. -/
def Request.read (arguments : List String) : Request := readFrom [] arguments

end LRTables.CommandLine
