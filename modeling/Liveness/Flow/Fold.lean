/-
Liveness/Flow/Fold.lean

What the flow graph builder notices, and the folding of constant `if`s.  A test
that is the literal `true`, `false` or `null` selects one branch; folding keeps
that branch and notices the other one, unless there is nothing in it.  Nested
statements are left alone.
-/
import Liveness.Finding
import Liveness.Json.Display
import Liveness.Syntax.Stmt

namespace Liveness

/-- The parts of statements that may be dead. -/
inductive Region where
  | ifConsequent
  | ifAlternate
  | whileBody
  | catchClause
  deriving DecidableEq, Repr

/-- The name of a region in reports. -/
def Region.name : Region → String
  | .ifConsequent => "if consequent"
  | .ifAlternate => "if alternate"
  | .whileBody => "while body"
  | .catchClause => "catch clause"

/-- What the builder notices about a statement. -/
inductive Event where
  /-- A statement that follows one which never completes normally. -/
  | unreachable (kind : Json) (offset : Int)
  /-- A block that no run enters. -/
  | dead (region : Region) (offset : Int)
  /-- A statement outside the analysed language. -/
  | skipped (kind : Json) (offset : Int)

/-- The finding that an event gives rise to. -/
def Event.finding? : Event → Option Finding
  | .unreachable kind offset => some (.unreachable kind.display offset)
  | .dead region offset => some (.deadBranch region.name offset)
  | .skipped .. => none

/-- Notice a block that no run enters, if there is something in it. -/
def Event.drop (region : Region) (block : Block) : List Event :=
  if block.isEmpty then [] else [.dead region block.offset]

/-- Notice a block that no run enters, if there is one. -/
def Event.drop? (region : Region) : Option Block → List Event
  | none => []
  | some block => Event.drop region block

/-- The branch that an `if` always takes; a folded statement has no choice left. -/
def Stmt.decided? (folded : Bool) (test : Expr) : Option Bool :=
  if folded then none else test.truth?

/-- Fold an `if` with a constant test, with what is noticed about the branch that goes away.
There is nothing to fold in any other statement. -/
def Stmt.fold? : Stmt → Option (Stmt × List Event)
  | .ifStmt offset test consequent alternate folded =>
    match decided? folded test with
    | none => none
    | some true => some (.ifStmt offset test consequent none true, Event.drop? .ifAlternate alternate)
    | some false =>
      some (.ifStmt offset test (alternate.getD ⟨consequent.offset, []⟩) none true,
        Event.drop .ifConsequent consequent)
  | _ => none

end Liveness
