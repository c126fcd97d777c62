/-!
# Commands and their options

What can be said on the command line: four commands, each of which takes a file, and
the options that each of them understands.
-/

namespace LRTables.CommandLine

/-- The commands. -/
inductive Command where
  /-- Build everything and print a summary. -/
  | check
  /-- Print the parse table. -/
  | table
  /-- Print the automaton as a graph. -/
  | dot
  /-- Print the productions. -/
  | productions
  deriving DecidableEq, Repr

/-- The options. -/
inductive Flag where
  /-- Print a help text. -/
  | help
  /-- The form of the table. -/
  | format
  /-- The file to write to. -/
  | output
  /-- Print an account of the construction. -/
  | debug
  deriving DecidableEq, Repr

/-- The forms of the table. -/
inductive Format where
  /-- An object for tools. -/
  | json
  /-- A grid for people. -/
  | text
  deriving DecidableEq, Repr

namespace Command

/-- All commands, in the order in which they are listed. -/
def all : List Command := [.check, .table, .dot, .productions]

/-- The name of a command. -/
def name : Command → String
  | .check => "check"
  | .table => "table"
  | .dot => "dot"
  | .productions => "productions"

/-- The command of a name. -/
def ofName? (name : String) : Option Command := all.find? fun c => c.name == name

/-- The options of a command, in the order in which they are listed. -/
def flags : Command → List Flag
  | .check => [.help, .debug]
  | .table => [.help, .format, .output, .debug]
  | .dot => [.help, .output, .debug]
  | .productions => [.help, .output]

/-- A name leads back to its command. -/
theorem ofName?_name (c : Command) : ofName? c.name = some c := by
  cases c <;> decide

end Command

namespace Format

/-- All forms, in the order in which they are listed. -/
def all : List Format := [.json, .text]

/-- The name of a form. -/
def name : Format → String
  | .json => "json"
  | .text => "text"

/-- The form of a name. -/
def ofName? (name : String) : Option Format := all.find? fun f => f.name == name

end Format

namespace Flag

/-- The letter of an option, if it has one. -/
def letter? : Flag → Option Char
  | .help => some 'h'
  | .format => none
  | .output => some 'o'
  | .debug => some 'D'

/-- The word of an option. -/
def word : Flag → String
  | .help => "help"
  | .format => "format"
  | .output => "output"
  | .debug => "debug"

/-- Is the option followed by a value? -/
def takesValue : Flag → Bool
  | .help => false
  | .format => true
  | .output => true
  | .debug => false

/-- The option spelled with its letter. -/
def short? (f : Flag) : Option String := f.letter?.map fun c => "-" ++ String.singleton c

/-- The option spelled with its word. -/
def long (f : Flag) : String := "--" ++ f.word

/-- The spellings of an option, the short one first. -/
def spellings (f : Flag) : List String := f.short?.toList ++ [f.long]

/-- The name of an option in messages. -/
def title (f : Flag) : String := "/".intercalate f.spellings

end Flag

/-- The flags that are understood where no command has been named yet. -/
def topFlags : List Flag := [.help]

end LRTables.CommandLine
