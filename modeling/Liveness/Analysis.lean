/-
Liveness/Analysis.lean

The whole analysis of a program: its labels are checked, its flow graph is built,
reads and writes are collected, live variables are computed, and writes that are
never read are found.  Findings are listed by offset; at one offset those of the
graph come before dead assignments.
-/
import Liveness.Config
import Liveness.Dataflow.Live
import Liveness.Flow.Build
import Liveness.Sorting
import Liveness.Syntax.Labels

namespace Liveness

/-- The result of an analysis. -/
structure Analysis where
  program : Program
  graph : FlowGraph
  effects : Effects
  live : Solution Label
  findings : List Finding

/-- Why a program has no analysis. -/
inductive AnalysisError where
  | malformed (m : Malformed)
  | diverged (d : Diverged)
  deriving DecidableEq, Repr

namespace Program

/-- The reads and writes of a program, with every label of its graph. -/
def allEffects (p : Program) (observers : List (Option String)) : Effects :=
  (p.effects observers).cover p.graph.labels

/-- The live variables of a program. -/
def live (p : Program) (config : Config) : Except Diverged (Solution Label) :=
  let effects := p.allEffects config.calls
  liveVariables p.graph.flows effects.kill effects.gen p.graph.labels config.maxPasses

end Program

/-- All findings by offset, those of the graph first. -/
def allFindings (events : List Event) (dead : List (Label × String)) : List Finding :=
  Sorting.byKey (·.offset)
    (events.filterMap Event.finding? ++ dead.map fun (label, name) => .deadAssignment name label)

/-- Analyse a program. -/
def Program.analyze (p : Program) (config : Config) : Except AnalysisError Analysis :=
  match p.labels with
  | .error m => .error (.malformed m)
  | .ok _ =>
    match p.live config with
    | .error d => .error (.diverged d)
    | .ok live =>
      let effects := p.allEffects config.calls
      let dead := deadAssignments effects.kill live.facts.exit
      .ok { program := p, graph := p.graph, effects, live, findings := allFindings p.events dead }

end Liveness
