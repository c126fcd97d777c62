import LRTables.CommandLine.UsageError
import LRTables.Text.DecimalDigit

/-!
# Single arguments

An option is spelled with its letter or its word; a word may be cut short as long as it
is the only one that begins so.  A value is the next argument, or stands in the same
one, behind the letter or behind an equals sign.  Letters of options without a value
may share one argument.  Behind two dashes nothing is an option any more.

* `Classified` — what an argument is, taken by itself.
* `classifyAll` — what each of several arguments is.
* `cluster` — the options that one argument spells.
-/

namespace LRTables.CommandLine

/-! ## What an argument is -/

/-- The value that stands in the same argument as its option. -/
inductive Attached where
  /-- There is none. -/
  | none
  /-- It stands right behind the letter. -/
  | adjacent (value : List Char)
  /-- It stands behind an equals sign. -/
  | assigned (value : List Char)
  deriving DecidableEq, Repr

/-- What an argument is, taken by itself. -/
inductive Classified where
  /-- A name or a value. -/
  | plain (argument : String)
  /-- The two dashes behind which nothing is an option. -/
  | separator
  /-- An option, spelled short or long, with what is attached to it. -/
  | flag (f : Flag) (isShort : Bool) (attached : Attached)
  /-- Something that looks like an option but is none. -/
  | unknown (argument : String)
  deriving DecidableEq, Repr

/-- Do the characters spell a negative number, with or without a point? -/
def isNegativeNumber (cs : List Char) : Bool :=
  match cs with
  | '-' :: rest =>
    let digits := if rest.getLast? = some '\n' then rest.dropLast else rest
    let behind := digits.dropWhile Text.isDecimalDigit
    match behind with
    | [] => !digits.isEmpty
    | '.' :: fraction => !fraction.isEmpty && fraction.all Text.isDecimalDigit
    | _ => false
  | _ => false

/-- The option with exactly this spelling, and whether it is the short one. -/
def spelled? (flags : List Flag) (spelling : String) : Option (Flag × Bool) :=
  flags.findSome? fun f =>
    if f.short? = some spelling then some (f, true)
    else if f.long = spelling then some (f, false)
    else none

/-- The part of an argument before the first equals sign, and what stands behind it. -/
def splitAssigned (cs : List Char) : List Char × Attached :=
  match cs.dropWhile (· ≠ '=') with
  | [] => (cs, .none)
  | _ :: value => (cs.takeWhile (· ≠ '='), .assigned value)

/-- What an argument is that may be an option. -/
def classify (flags : List Flag) (argument : String) : Except UsageError Classified :=
  let cs := argument.toList
  let (spelling, attached) := splitAssigned cs
  let other : Classified :=
    if isNegativeNumber cs || cs.contains ' ' then .plain argument else .unknown argument
  match cs with
  | '-' :: second :: rest =>
    match spelled? flags argument, spelled? flags (String.ofList spelling) with
    | some (f, short), _ => .ok (.flag f short .none)
    | none, some (f, short) => .ok (.flag f short attached)
    | none, none =>
      if second = '-' then
        match flags.filter fun f => spelling.isPrefixOf f.long.toList with
        | [] => .ok other
        | [f] => .ok (.flag f false attached)
        | several => .error (.ambiguous argument several)
      else
        match flags.find? fun f => f.letter? = some second with
        | some f => .ok (.flag f true (.adjacent rest))
        | none => .ok other
  | _ => .ok (.plain argument)

/-- What each argument is.  Behind the first two dashes all are plain. -/
def classifyAll (flags : List Flag) : List String → Except UsageError (List Classified)
  | [] => .ok []
  | argument :: rest =>
    if argument = "--" then .ok (.separator :: rest.map .plain)
    else do
      let c ← classify flags argument
      return c :: (← classifyAll flags rest)

/-! ## Clusters -/

/-- What one argument spells: options that are complete, the value of each if it has
one, and what is left to do. -/
structure Cluster where
  /-- The options, in order. -/
  given : List (Flag × Option String)
  /-- The option whose value must be the next argument. -/
  awaiting? : Option Flag := none
  /-- Letters that mean nothing. -/
  leftover? : Option String := none
  deriving DecidableEq, Repr

/-- The cluster with an option in front. -/
def Cluster.cons (f : Flag) (c : Cluster) : Cluster := { c with given := (f, none) :: c.given }

/-- What an option spells that has nothing attached. -/
def alone (f : Flag) : Cluster :=
  if f.takesValue then { given := [], awaiting? := some f } else { given := [(f, none)] }

/-- What an option spells that is given by its letter, with the letters behind it. -/
def letters (flags : List Flag) (f : Flag) : List Char → Except UsageError Cluster
  | [] => .ok (alone f)
  | c :: rest =>
    if f.takesValue then .ok { given := [(f, some (String.ofList (c :: rest)))] }
    else if c = '-' then .error (.ignoredValue f (String.ofList (c :: rest)))
    else
      match flags.find? fun g => g.letter? = some c with
      | none =>
        .ok { given := [(f, none)], leftover? := some (String.ofList ('-' :: c :: rest)) }
      | some g =>
        match rest with
        | '=' :: value =>
          if g.takesValue then .ok (.cons f { given := [(g, some (String.ofList value))] })
          else .error (.ignoredValue g (String.ofList value))
        | _ => Cluster.cons f <$> letters flags g rest

/-- What an option spells with what is attached to it. -/
def cluster (flags : List Flag) (f : Flag) (isShort : Bool) : Attached → Except UsageError Cluster
  | .none => .ok (alone f)
  | .assigned value =>
    if f.takesValue then .ok { given := [(f, some (String.ofList value))] }
    else .error (.ignoredValue f (String.ofList value))
  | .adjacent value =>
    if isShort then letters flags f value
    else .error (.ignoredValue f (String.ofList value))

end LRTables.CommandLine
