/-
Liveness/Command/Log.lean

Log lines.  Every part of the analysis tells what it does under its own name;
how much of it is shown is up to the command line.
-/
import Liveness.Analysis
import Liveness.Estree.Program

namespace Liveness.Command

/-- How important a line is. -/
inductive Level where
  | debug
  | info
  | warning
  | error
  deriving DecidableEq, Repr

namespace Level

/-- The name of a level, in five characters. -/
def mark : Level → String
  | .debug => "DEBUG"
  | .info => "INFO "
  | .warning => "WARNI"
  | .error => "ERROR"

/-- Levels by importance. -/
def rank : Level → Nat
  | .debug => 0
  | .info => 1
  | .warning => 2
  | .error => 3

/-- The least important level that is shown. -/
def shownFrom (verbosity : Nat) : Level :=
  match verbosity with
  | 0 => .warning
  | 1 => .info
  | _ => .debug

end Level

/-- A line of the log. -/
structure Record where
  level : Level
  origin : String
  message : String
  deriving DecidableEq, Repr

namespace Record

/-- A record as a line. -/
def line (r : Record) : String :=
  s!"[{r.level.mark}] {r.origin}: {r.message}\n"

/-- Whether a record is shown. -/
def isShown (verbosity : Nat) (r : Record) : Bool :=
  (Level.shownFrom verbosity).rank ≤ r.level.rank

/-- A record about reading a tree. -/
def ofNote (n : Estree.Note) : Record :=
  ⟨.debug, "jslive.parsing.estree", n.message⟩

/-- A record about the flow graph. -/
def flow (message : String) : Record :=
  ⟨.debug, "jslive.intermediate_representation.cfg", message⟩

/-- A record about what the builder of the graph noticed. -/
def ofEvent : Event → Record
  | .unreachable kind offset => flow s!"unreachable {kind.display} at {offset}"
  | .skipped kind offset => flow s!"skipping unsupported {kind.display} at {offset}"
  | .dead .whileBody offset => flow s!"loop body at {offset} never runs"
  | .dead .catchClause offset => flow s!"catch clause at {offset} never runs"
  | .dead region offset =>
    ⟨.debug, "jslive.intermediate_representation.folding", s!"dropping {region.name} at {offset}"⟩

/-- A record about a dead assignment. -/
def ofDead (label : Label) (name : String) : Record :=
  ⟨.debug, "jslive.analysis.diagnostics", s!"dead assignment of {name} at {label}"⟩

/-- The records of the end of an analysis. -/
def ofSolution (graph : FlowGraph) (effects : Effects) (events : List Event)
    (live : Solution Label) : List Record :=
  let dead := deadAssignments effects.kill live.facts.exit
  let findings := allFindings events dead
  [⟨.debug, "jslive.analysis.solver",
      s!"fixed point reached after {live.passes} passes over {live.facts.entry.rows.length} nodes"⟩]
    ++ dead.map (fun (label, name) => ofDead label name)
    ++ [⟨.info, "jslive.analysis.pipeline",
      s!"analysed {graph.labels.length} labels, {graph.flows.length} flows: " ++
      s!"{findings.length} diagnostics after {live.passes} passes"⟩]

/-- The records of an analysis, up to the place where it fails. -/
def ofAnalysis (p : Program) (config : Config) : List Record :=
  match p.labels with
  | .error _ => []
  | .ok _ =>
    let graph := p.graph
    let collected := (p.effects config.calls).gen.rows.length
    p.events.map ofEvent
      ++ [flow s!"built CFG with {graph.flows.length} flows and {graph.labels.length} labels",
        ⟨.debug, "jslive.analysis.gen_kill",
          s!"collected gen/kill entries for {collected} labels"⟩]
      ++ match p.live config with
        | .error _ => []
        | .ok live => ofSolution graph (p.allEffects config.calls) p.events live

end Record

end Liveness.Command
