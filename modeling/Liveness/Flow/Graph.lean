/-
Liveness/Flow/Graph.lean

Flow graphs over program point labels.  The labels of a graph are those on its
edges together with its entry and its exits, which matter for programs of a
single statement, where no edge touches them.
-/
import Liveness.Unique

namespace Liveness

/-- A program point, named by its character offset. -/
abbrev Label := Int

/-- An edge from a program point to one that may run right after it. -/
abbrev Flow := Label × Label

/-- A flow graph with its entry and its exits. -/
structure FlowGraph where
  flows : List Flow
  initial : Option Label
  finals : List Label
  deriving DecidableEq, Repr

namespace FlowGraph

/-- The labels of a graph in order of first appearance: entry, edges, exits. -/
def labels (g : FlowGraph) : List Label :=
  unique (g.initial.toList ++ g.flows.flatMap (fun (a, b) => [a, b]) ++ g.finals)

/-- The labels that may run right after a label. -/
def successors (g : FlowGraph) (label : Label) : List Label :=
  unique (g.flows.filterMap fun (a, b) => if a = label then some b else none)

/-- The labels that may run right before a label. -/
def predecessors (g : FlowGraph) (label : Label) : List Label :=
  unique (g.flows.filterMap fun (a, b) => if b = label then some a else none)

end FlowGraph

end Liveness
