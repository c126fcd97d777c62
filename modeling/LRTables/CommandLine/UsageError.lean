import LRTables.CommandLine.Command
import LRTables.Text.Quoted

/-!
# Faults of a command line

What can be wrong with the arguments of a command line, and how it is told.
-/

namespace LRTables.CommandLine

/-- What is wrong with the arguments. -/
inductive UsageError where
  /-- Several options begin like this. -/
  | ambiguous (argument : String) (matching : List Flag)
  /-- The option takes no value. -/
  | ignoredValue (flag : Flag) (value : String)
  /-- The option lacks its value. -/
  | missingValue (flag : Flag)
  /-- There is no such command. -/
  | unknownCommand (name : String)
  /-- There is no such form of the table. -/
  | unknownFormat (name : String)
  /-- There is no command. -/
  | missingCommand
  /-- There is no file. -/
  | missingFile
  /-- The arguments mean nothing. -/
  | unrecognized (arguments : List String)
  deriving DecidableEq, Repr

/-- The names in quotes, set apart by commas. -/
def quotedList (names : List String) : String := ", ".intercalate (names.map Text.quoted)

/-- The message about a choice that there is not. -/
def invalidChoice (title name : String) (choices : List String) : String :=
  "argument " ++ title ++ ": invalid choice: " ++ Text.quoted name ++ " (choose from " ++
    quotedList choices ++ ")"

/-- The fault in words. -/
def UsageError.message : UsageError → String
  | .ambiguous argument matching =>
    "ambiguous option: " ++ argument ++ " could match " ++
      ", ".intercalate (matching.map Flag.long)
  | .ignoredValue flag value =>
    "argument " ++ flag.title ++ ": ignored explicit argument " ++ Text.quoted value
  | .missingValue flag => "argument " ++ flag.title ++ ": expected one argument"
  | .unknownCommand name => invalidChoice "cmd" name (Command.all.map Command.name)
  | .unknownFormat name => invalidChoice Flag.format.title name (Format.all.map Format.name)
  | .missingCommand => "the following arguments are required: cmd"
  | .missingFile => "the following arguments are required: file"
  | .unrecognized arguments => "unrecognized arguments: " ++ " ".intercalate arguments

end LRTables.CommandLine
