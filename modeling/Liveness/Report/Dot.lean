/-
Liveness/Report/Dot.lean

The flow graph in the DOT language, with the live variables of every label.
Labels with a dead assignment are red and the entry is drawn thick.  Texts stand
between double quotes, with quotes and backslashes escaped.
-/
import Liveness.Report.Text

namespace Liveness.Report

/-- One character of a quoted text. -/
def dotChar (c : Char) : List Char :=
  if c == '\\' || c == '"' then ['\\', c] else [c]

/-- A text between double quotes. -/
def dotQuote (s : String) : String :=
  String.ofList ('"' :: s.toList.flatMap dotChar ++ ['"'])

/-- The kind of what a label denotes. -/
def pointKind (p : Program) (label : Label) : String :=
  match p.labels with
  | .ok kinds => ((kinds.lookup label).map Json.display).getD "?"
  | .error _ => "?"

/-- What a node says: its label and kind, and the variables live before and after it. -/
def nodeText (a : Analysis) (label : Label) : String :=
  let entry := names (a.live.facts.entry.get label).toList
  let exit := names (a.live.facts.exit.get label).toList
  s!"{label}: {pointKind a.program label}\\nin  {entry}\\nout {exit}"

/-- Whether a dead assignment was found at a label. -/
def hasDeadAssignment (a : Analysis) (label : Label) : Bool :=
  a.findings.any fun f => f.kind == .deadAssignment && f.offset == label

/-- The line of a node. -/
def nodeLine (a : Analysis) (label : Label) : String :=
  let attributes := ["label=" ++ dotQuote (nodeText a label)] ++
    (if hasDeadAssignment a label then ["color=red"] else []) ++
    (if a.graph.initial == some label then ["penwidth=2"] else [])
  s!"  n{label} [" ++ String.intercalate ", " attributes ++ "];"

/-- The line of an edge. -/
def edgeLine (flow : Flow) : String :=
  s!"  n{flow.1} -> n{flow.2};"

/-- The lines of the graph. -/
def dotLines (a : Analysis) (name : String) : List String :=
  ["digraph " ++ dotQuote name ++ " \x7b", "  node [shape=box, fontname=\"monospace\"];"] ++
    a.graph.labels.map (nodeLine a) ++ (unique a.graph.flows).map edgeLine ++ ["\x7d"]

/-- The graph of an analysis under a name. -/
def dot (a : Analysis) (name : String) : String :=
  String.intercalate "\n" (dotLines a name) ++ "\n"

end Liveness.Report
