import LRTables.Text.Fields

/-!
# Paths

A path is a root, which is empty for a relative path, and the names that lead on from
it.  Names that say nothing, the empty one and the single dot, are left out when a
path is read, so that different spellings of a path are told in one way.  Two slashes
in front are a root of their own; any other number of them counts as one.
-/

namespace LRTables.CommandLine

/-- A path to a file or a directory. -/
structure Path where
  /-- Nothing for a relative path, one or two slashes for an absolute one. -/
  root : String
  /-- The names on the way. -/
  parts : List String
  deriving DecidableEq, Repr, Inhabited

namespace Path

/-- The root that a number of slashes in front of a path means. -/
def rootOf : Nat → String
  | 0 => ""
  | 2 => "//"
  | _ => "/"

/-- The path that a text spells. -/
def ofText (s : String) : Path :=
  { root := rootOf (s.toList.takeWhile (· == '/')).length
    parts := ((Text.split '/' s.toList).map String.ofList).filter fun n => n ≠ "" ∧ n ≠ "." }

/-- The text of a path; a path that leads nowhere is a single dot. -/
def toText (p : Path) : String :=
  if p.root.isEmpty && p.parts.isEmpty then "." else p.root ++ "/".intercalate p.parts

/-- The path without its last name. -/
def parent (p : Path) : Path := { p with parts := p.parts.dropLast }

/-- Is there a null character in a name?  Such a path can lead to nothing. -/
def hasNull (p : Path) : Bool := p.parts.any fun n => n.contains '\x00'

end Path

end LRTables.CommandLine
