/-
Liveness/Dataflow/Solver.lean

Backward may-equations over any set of nodes, solved by sweeping.  The exit set
of a node is the union of the entry sets of its successors, and its entry set is
its transfer applied to its exit set.  All sets start empty; a sweep visits every
node once, in a fixed order, and reads what it has written itself; the run ends
with the first sweep that changes nothing.

The number of sweeps is capped.  The cap is part of the behaviour, and it is
also what the recursion follows.
-/
import Liveness.Facts.Table
import Liveness.Unique

namespace Liveness

/-- A system of equations.  The transfer of a node may depend on the number of sweeps done. -/
structure Equations (ν : Type) where
  nodes : List ν
  successors : ν → List ν
  transfer : (sweeps : Nat) → ν → NameSet → NameSet

/-- An entry and an exit set for every node. -/
structure Assignment (ν : Type) where
  entry : Table ν
  exit : Table ν
  deriving DecidableEq

/-- A solution with the number of sweeps that it took. -/
structure Solution (ν : Type) where
  facts : Assignment ν
  passes : Nat
  deriving DecidableEq

/-- The cap was reached while sweeps still changed something. -/
structure Diverged where
  passes : Nat
  deriving DecidableEq, Repr

/-- The wording of a failure to settle. -/
def Diverged.message (d : Diverged) : String :=
  s!"no fixed point after {d.passes} passes"

namespace Equations

variable {ν : Type} [DecidableEq ν]

/-- The nodes in the order of a sweep, each once. -/
def order (eqs : Equations ν) : List ν :=
  unique eqs.nodes

/-- What holds at the exit of a node: all that holds at the entry of a successor. -/
def exitOf (eqs : Equations ν) (facts : Assignment ν) (node : ν) : NameSet :=
  (eqs.successors node).foldl (fun out next => out ∪ facts.entry.get next) ∅

/-- Evaluate the equations of one node. -/
def visit (eqs : Equations ν) (sweeps : Nat) (facts : Assignment ν) (node : ν) : Assignment ν :=
  let out := eqs.exitOf facts node
  { entry := facts.entry.set node (eqs.transfer sweeps node out)
    exit := facts.exit.set node out }

/-- Evaluate the equations of every node once. -/
def sweep (eqs : Equations ν) (sweeps : Nat) (facts : Assignment ν) : Assignment ν :=
  eqs.order.foldl (eqs.visit sweeps) facts

/-- Nothing holds anywhere. -/
def start (eqs : Equations ν) : Assignment ν :=
  { entry := .blank eqs.order, exit := .blank eqs.order }

/-- Sweep until nothing changes, at most `budget` times more. -/
def iterate (eqs : Equations ν) :
    (budget sweeps : Nat) → Assignment ν → Except Diverged (Solution ν)
  | 0, sweeps, _ => .error ⟨sweeps⟩
  | budget + 1, sweeps, facts =>
    let next := eqs.sweep sweeps facts
    if next = facts then .ok ⟨next, sweeps + 1⟩ else eqs.iterate budget (sweeps + 1) next

/-- Solve the equations in at most `cap` sweeps. -/
def solve (eqs : Equations ν) (cap : Int) : Except Diverged (Solution ν) :=
  eqs.iterate cap.toNat 0 eqs.start

/-- The transfers asked for by `iterate`, in order: each node with its exit set of that sweep. -/
def questionsFrom (eqs : Equations ν) :
    (budget sweeps : Nat) → Assignment ν → List (ν × NameSet)
  | 0, _, _ => []
  | budget + 1, sweeps, facts =>
    let next := eqs.sweep sweeps facts
    eqs.order.map (fun node => (node, next.exit.get node)) ++
      if next = facts then [] else eqs.questionsFrom budget (sweeps + 1) next

/-- The transfers asked for while solving, in order. -/
def questions (eqs : Equations ν) (cap : Int) : List (ν × NameSet) :=
  eqs.questionsFrom cap.toNat 0 eqs.start

end Equations

/-- The cap on sweeps unless another one is set. -/
def defaultCap : Int := 10000

/-! ### Transfers given as data -/

/-- A transfer: give the facts back, remove some and add some, or answer from a list in turn. -/
inductive Rule where
  | keep
  | genKill (gen kill : NameSet)
  | script (answers : List NameSet)

/-- Apply a rule after some sweeps. -/
def Rule.apply : Rule → (sweeps : Nat) → NameSet → NameSet
  | .keep, _, facts => facts
  | .genKill gen kill, _, facts => (facts \ kill) ∪ gen
  | .script answers, sweeps, _ => (answers[sweeps % answers.length]?).getD ∅

end Liveness
