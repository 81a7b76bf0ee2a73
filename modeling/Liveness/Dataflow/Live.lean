/-
Liveness/Dataflow/Live.lean

Live variables.  A variable is live at the exit of a label if it is live at the
entry of a label that may follow, and live at its entry if the label reads it, or
if it is live at the exit and the label does not write it.

The nodes are the labels given, in their order, and then those on the edges.
-/
import Liveness.Dataflow.Solver
import Liveness.Flow.Graph

namespace Liveness

/-- The equations of live variables over some edges. -/
def Equations.live (flows : List Flow) (kill gen : Table Label) (labels : List Label) :
    Equations Label where
  nodes := labels ++ flows.flatMap fun (a, b) => [a, b]
  successors := fun label => flows.filterMap fun (a, b) => if a = label then some b else none
  transfer := fun _ label out => (out \ kill.get label) ∪ gen.get label

/-- Solve the equations of live variables in at most `cap` sweeps. -/
def liveVariables (flows : List Flow) (kill gen : Table Label) (labels : List Label) (cap : Int) :
    Except Diverged (Solution Label) :=
  (Equations.live flows kill gen labels).solve cap

/-- The writes that no later read can see.  Of several names written at a label only the least is
looked at; labels without an exit set are not part of the graph. -/
def deadAssignments (kill exit : Table Label) : List (Label × String) :=
  kill.rows.filterMap fun (label, names) =>
    match names.least?, exit.get? label with
    | some name, some out => if name ∈ out then none else some (label, name)
    | _, _ => none

end Liveness
