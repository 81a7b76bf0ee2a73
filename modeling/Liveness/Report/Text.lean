/-
Liveness/Report/Text.lean

The readable report: what each label reads and writes, the edges, a table of
live variables, and the findings.  With the source at hand a finding also tells
its line and column.
-/
import Liveness.Analysis
import Liveness.Text.Blank
import Liveness.Text.Position

namespace Liveness.Report

/-- Names in order between braces. -/
def names (xs : List String) : String :=
  match Sorting.stableBy (fun a b => decide (a < b)) xs with
  | [] => "\x7b \x7d"
  | ordered => "\x7b " ++ String.intercalate ", " ordered ++ " \x7d"

/-- The rows of a table by label. -/
def byLabel (t : Table Label) : List (Label × NameSet) :=
  Sorting.byKey (·.1) t.rows

/-- The sets of a table that are not empty, one on a line. -/
def setLines (t : Table Label) : List String :=
  (byLabel t).filterMap fun (label, set) =>
    if set.isEmpty then none else some s!"{label}: {names set.toList}"

/-- A finding as one line, with its line and column if it lies in the source. -/
def findingLine (f : Finding) (source : Option String) : String :=
  let place :=
    match source.bind (Text.position? · f.offset) with
    | some p => s!" (line {p.line}, column {p.column})"
    | none => ""
  s!"{f.kind.name}: {f.detail} at char offset {f.offset}{place}"

/-! ### Tables -/

/-- A row of a table of three columns. -/
structure Row where
  first : String
  second : String
  third : String
  deriving DecidableEq, Repr

/-- A text filled up with blanks to a width. -/
def padded (width : Nat) (s : String) : String :=
  s ++ String.ofList (List.replicate (width - s.length) ' ')

/-- A rule of a width. -/
def ruled (width : Nat) : String :=
  String.ofList (List.replicate width '-')

/-- The greatest width in a column. -/
def columnWidth (column : Row → String) (rows : List Row) : Nat :=
  rows.foldl (fun width row => max width (column row).length) 0

/-- The lines of a table: the head, a rule, and the rows, without blanks at line ends. -/
def tableLines (head : Row) (rows : List Row) : List String :=
  let w₁ := columnWidth (·.first) (head :: rows)
  let w₂ := columnWidth (·.second) (head :: rows)
  let w₃ := columnWidth (·.third) (head :: rows)
  let line (row : Row) : String :=
    Text.stripRight (String.intercalate " | "
      [padded w₁ row.first, padded w₂ row.second, padded w₃ row.third])
  line head :: String.intercalate "-+-" [ruled w₁, ruled w₂, ruled w₃] :: rows.map line

/-- A table without rows has no columns to be as wide as. -/
structure NoRows where
  deriving DecidableEq, Repr

/-- The wording of the fault. -/
def NoRows.message (_ : NoRows) : String :=
  "max() arg is an empty sequence"

/-- The lines of a table whose first row is its head. -/
def table : List Row → Except NoRows (List String)
  | [] => .error {}
  | head :: rows => .ok (tableLines head rows)

/-- The lines of the table of live variables. -/
def liveLines (facts : Assignment Label) : List String :=
  tableLines ⟨"label", "LVentry", "LVexit"⟩ <|
    (byLabel facts.entry).map fun (label, entry) =>
      ⟨toString label, names entry.toList, names (facts.exit.get label).toList⟩

/-! ### The report -/

/-- The edges on one line. -/
def flowsLine (flows : List Flow) : String :=
  String.intercalate " " (flows.map fun (a, b) => s!"({a}, {b})")

/-- The lines of the report. -/
def textLines (a : Analysis) (source : Option String) : List String :=
  ["Gen sets:"] ++ setLines a.effects.gen ++
    ["", "Kill sets:"] ++ setLines a.effects.kill ++
    ["", "Flows:", flowsLine a.graph.flows] ++
    ["", "Live variables:"] ++ liveLines a.live.facts ++
    ["", "Diagnostics:"] ++
    (if a.findings.isEmpty then ["none"] else a.findings.map (findingLine · source))

/-- The readable report of an analysis. -/
def text (a : Analysis) (source : Option String) : String :=
  String.intercalate "\n" (textLines a source) ++ "\n"

end Liveness.Report
