/-
Liveness/Report/Json.lean

The report as a JSON document: edges, sets by label, findings.  Labels are keys,
written in decimal and in increasing order.  An analysis with an integer that has
too many digits for a text has no such report.
-/
import Liveness.Json.Writer
import Liveness.Report.Text
import Liveness.Text.Digit

namespace Liveness.Report

/-- A table as an object with a list of names for every label. -/
def tableDocument (t : Table Label) : Json :=
  .obj ((byLabel t).map fun (label, set) => (toString label, .arr (set.toList.map .str)))

/-- A finding as an object. -/
def findingDocument (f : Finding) : Json :=
  .obj [("kind", .str f.kind.name), ("offset", .int f.offset), ("detail", .str f.detail)]

/-- An analysis as a document. -/
def document (a : Analysis) : Json :=
  .obj [("flows", .arr (a.graph.flows.map fun (x, y) => .arr [.int x, .int y])),
    ("gen", tableDocument a.effects.gen),
    ("kill", tableDocument a.effects.kill),
    ("lv_entry", tableDocument a.live.facts.entry),
    ("lv_exit", tableDocument a.live.facts.exit),
    ("diagnostics", .arr (a.findings.map findingDocument))]

/-- The integers of the report: labels on edges and in tables, and offsets of findings. -/
def integers (a : Analysis) : List Int :=
  a.graph.flows.flatMap (fun f => [f.1, f.2]) ++ a.effects.gen.keys ++ a.effects.kill.keys ++
    a.live.facts.entry.keys ++ a.live.facts.exit.keys ++ a.findings.map (·.offset)

/-- Why an analysis has no JSON report. -/
inductive Unwritten where
  /-- An integer has more digits than the limit allows. -/
  | digits (limit : Nat)
  deriving DecidableEq, Repr

/-- The wording of the reason. -/
def Unwritten.message : Unwritten → String
  | .digits limit =>
    s!"Exceeds the limit ({limit} digits) for integer string conversion; " ++
      "use sys.set_int_max_str_digits() to increase the limit"

/-- The JSON report of an analysis, if its integers are not too long. -/
def json (a : Analysis) : Except Unwritten String :=
  if (integers a).all (Text.digitCount · ≤ Text.digitLimit) then .ok ((document a).pretty ++ "\n")
  else .error (.digits Text.digitLimit)

end Liveness.Report
