/-
Liveness/Flow/Build.lean

Flow graphs of programs.  Fragments and events both follow the structure of the
tree.  A statement after one that never completes normally adds nothing to the
graph and is noticed as unreachable; constant tests are folded on the way, so
nothing is noticed about code inside a region that is dropped.
-/
import Liveness.Flow.Fold
import Liveness.Flow.Fragment

namespace Liveness

mutual
/-- The fragment of a statement. -/
def Stmt.fragment : Stmt → Fragment
  | .exprStmt offset _ => .step offset
  | .declStmt offset _ => .step offset
  | .throwStmt offset _ => .throwing offset
  | .breakStmt offset _ => .breaking offset
  | .continueStmt offset _ => .continuing offset
  | .whileStmt _ test body =>
    if test.truth? = some false then .step test.offset else .loop test.offset body.fragment
  | .ifStmt _ test consequent none folded =>
    .choice test.offset true <|
      match Stmt.decided? folded test with
      | some false => [.empty]
      | _ => [consequent.fragment]
  | .ifStmt _ test consequent (some alternate) folded =>
    .choice test.offset false <|
      match Stmt.decided? folded test with
      | some true => [consequent.fragment]
      | some false => [alternate.fragment]
      | none => [consequent.fragment, alternate.fragment]
  | .tryStmt _ block handler none _ => .guarded block.fragment handler.fragment .empty
  | .tryStmt _ block handler (some finalizer) _ =>
    .guarded block.fragment handler.fragment finalizer.fragment
  | .blockStmt block => block.fragment
  | .unsupported .. => .empty
/-- The fragment of a block. -/
def Block.fragment : Block → Fragment
  | ⟨_, body⟩ => Stmt.sequence .empty body
/-- The fragment of a block whose first statements gave `f`. -/
def Stmt.sequence (f : Fragment) : List Stmt → Fragment
  | [] => f
  | s :: rest =>
    if f.reachesExit then Stmt.sequence (f.andThen s.offset s.fragment) rest else f
end

mutual
/-- What is noticed about a statement. -/
def Stmt.events : Stmt → List Event
  | .whileStmt _ test body =>
    if test.truth? = some false then Event.drop .whileBody body else body.events
  | .ifStmt _ test consequent none folded =>
    match Stmt.decided? folded test with
    | some false => Event.drop .ifConsequent consequent
    | _ => consequent.events
  | .ifStmt _ test consequent (some alternate) folded =>
    match Stmt.decided? folded test with
    | some true => Event.drop .ifAlternate alternate ++ consequent.events
    | some false => Event.drop .ifConsequent consequent ++ alternate.events
    | none => consequent.events ++ alternate.events
  | .tryStmt _ block handler none _ =>
    block.events ++
      (if block.fragment.isEmpty then Event.drop .catchClause handler else handler.events)
  | .tryStmt _ block handler (some finalizer) _ =>
    block.events ++
      (if block.fragment.isEmpty then Event.drop .catchClause handler else handler.events) ++
      finalizer.events
  | .blockStmt block => block.events
  | .unsupported offset tag => [.skipped tag offset]
  | _ => []
/-- What is noticed about a block. -/
def Block.events : Block → List Event
  | ⟨_, body⟩ => Stmt.sequenceEvents .empty body
/-- What is noticed about the statements of a block whose first statements gave `f`. -/
def Stmt.sequenceEvents (f : Fragment) : List Stmt → List Event
  | [] => []
  | s :: rest =>
    if f.reachesExit then
      s.events ++ Stmt.sequenceEvents (f.andThen s.offset s.fragment) rest
    else .unreachable s.kind s.offset :: Stmt.sequenceEvents f rest
end

/-- The findings about a block. -/
def Block.findings (b : Block) : List Finding :=
  b.events.filterMap Event.finding?

namespace Program

/-- The flow graph of a program. -/
def graph (p : Program) : FlowGraph :=
  let f := p.block.fragment
  { flows := f.flows, initial := f.initial, finals := f.finals }

/-- What is noticed about a program. -/
def events (p : Program) : List Event :=
  p.block.events

end Program

end Liveness
