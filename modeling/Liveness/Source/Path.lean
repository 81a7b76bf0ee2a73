/-
Liveness/Source/Path.lean

Paths of files.  A path forgets repeated slashes and single dots and keeps the
steps to the parent.  Its suffix starts at the last dot of its name, unless that
dot is the first or the last character there.
-/
namespace Liveness

/-- A path: its root, which is empty for a relative one, and its parts. -/
structure Path where
  root : String
  parts : List String
  deriving DecidableEq, Repr

namespace Path

/-- The root of a text: two slashes are a root of their own, three or more are one. -/
def rootOf (cs : List Char) : String :=
  match (cs.takeWhile (· == '/')).length with
  | 0 => ""
  | 2 => "//"
  | _ => "/"

/-- The path that a text names. -/
def ofString (s : String) : Path :=
  let cs := s.toList
  let parts := (cs.splitOn '/').map String.ofList
  ⟨rootOf cs, parts.filter fun part => part != "" && part != "."⟩

/-- The text of a path. -/
def text (p : Path) : String :=
  if p.root == "" && p.parts.isEmpty then "."
  else p.root ++ String.intercalate "/" p.parts

/-- The last part of a path. -/
def name (p : Path) : String :=
  p.parts.getLast?.getD ""

/-- The characters of a name before its suffix, and the suffix. -/
def splitName (cs : List Char) : List Char × List Char :=
  let tail := (cs.reverse.takeWhile (· != '.')).reverse
  let stem := cs.take (cs.length - tail.length - 1)
  if tail.length == cs.length || tail.isEmpty || stem.isEmpty then (cs, [])
  else (stem, '.' :: tail)

/-- The suffix of a path with its dot, empty if it has none. -/
def suffix (p : Path) : String :=
  String.ofList (splitName p.name.toList).2

/-- The name of a path without its suffix. -/
def stem (p : Path) : String :=
  String.ofList (splitName p.name.toList).1

/-- Whether a path has a suffix, in capitals or not. -/
def hasSuffix (p : Path) (suffix : String) : Bool :=
  p.suffix.toList.map Char.toLower == suffix.toList

end Path

end Liveness
