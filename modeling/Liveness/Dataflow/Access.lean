/-
Liveness/Dataflow/Access.lean

What each label reads and writes.  Assignments and updates access variables at
their own offset, and so do calls: the plain variables among the arguments of an
observer call are read, those of other calls are not.  A test reads its variables
at its offset.  Observers are listed by name, and `none` stands for the calls
that have no name.

An access is recorded even if it reads and writes nothing, so that its label is
known to both tables.
-/
import Liveness.Facts.Table
import Liveness.Flow.Graph
import Liveness.Syntax.Stmt

namespace Liveness

/-- The variables read and written at a label. -/
structure Access where
  label : Label
  reads : List String
  writes : List String
  deriving DecidableEq, Repr

/-- Whether a call of `callee` is one whose arguments are read. -/
def Expr.isObserver (observers : List (Option String)) (callee : Expr) : Bool :=
  observers.contains callee.chainName?

/-- The access that an expression itself makes, its parts left out. -/
def Expr.access? (observers : List (Option String)) : Expr → Option Access
  | .assignment label operator (.identifier _ name) value =>
    some ⟨label, value.names ++ (if operator.isText "=" then [] else [name]), [name]⟩
  | .assignment label _ target value => some ⟨label, value.names ++ target.names, []⟩
  | .update label _ (.identifier _ name) => some ⟨label, [name], [name]⟩
  | .update label _ _ => some ⟨label, [], []⟩
  | .call label callee arguments =>
    let read :=
      if callee.isObserver observers then arguments.filterMap (·.bind Expr.bareName?) else []
    some ⟨label, read, []⟩
  | _ => none

/-- The accesses of an expression and its parts. -/
def Expr.accesses (observers : List (Option String)) (e : Expr) : List Access :=
  e.subexpressions.filterMap (·.access? observers)

/-- The accesses of an expression that may be left out. -/
def Expr.accesses? (observers : List (Option String)) : Option Expr → List Access
  | none => []
  | some e => e.accesses observers

/-- The accesses of a test: what it reads, and those inside it. -/
def Expr.testAccesses (observers : List (Option String)) (test : Expr) : List Access :=
  ⟨test.offset, test.names, []⟩ :: test.accesses observers

/-- The accesses of a statement, those of statements nested in it left out. -/
def Stmt.accesses (observers : List (Option String)) : Stmt → List Access
  | .exprStmt _ e => e.accesses observers
  | .declStmt _ declarators => declarators.flatMap fun d => Expr.accesses? observers d.init
  | .throwStmt _ argument => Expr.accesses? observers argument
  | .whileStmt _ test _ | .ifStmt _ test _ _ _ => test.testAccesses observers
  | _ => []

/-- The accesses of a program, in the order of the text. -/
def Program.accesses (observers : List (Option String)) (p : Program) : List Access :=
  p.statements.flatMap (·.accesses observers)

/-- The reads and the writes of each label. -/
structure Effects where
  gen : Table Label
  kill : Table Label

namespace Effects

/-- Record one more access. -/
def record (e : Effects) (a : Access) : Effects :=
  { gen := e.gen.add a.label (.ofList a.reads), kill := e.kill.add a.label (.ofList a.writes) }

/-- The effects of some accesses. -/
def ofAccesses (accesses : List Access) : Effects :=
  accesses.foldl record ⟨∅, ∅⟩

/-- Make sure that some labels are in both tables. -/
def cover (e : Effects) (labels : List Label) : Effects :=
  labels.foldl (fun e label => e.record ⟨label, [], []⟩) e

end Effects

/-- Calls that read their arguments unless others are named. -/
def defaultObservers : List String := ["console.log"]

/-- The reads and the writes of each label of a program. -/
def Program.effects (observers : List (Option String)) (p : Program) : Effects :=
  .ofAccesses (p.accesses observers)

end Liveness
