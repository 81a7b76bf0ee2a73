/-
Liveness/Proofs/Runs.lean

What programs may execute.  A simple statement executes its own point, `if` and
`while` execute the point of their test, and nothing else is a point.  Variables
are not looked at: a test that is no literal `true`, `false` or `null` may go
either way, and so may the test of a statement that was folded before, in which
only the live branch is left.

Runs are taken under a `Reading`, which settles what the words leave open: what
is recorded of an executed point, whether any point may raise or only `throw`,
whether the statements of a guarded block may be left for its handler right after
their first point, and whether a test that is literally `true` may fall through
where no `else` stands in its way.  Two readings matter here.

* `Reading.structural` is the reading in which the flow graph speaks of programs:
  only labels are recorded, and the handler is entered from the first points of
  the statements it guards and from every `throw`.
* `Reading.strict` is the reading of the language itself: literal tests take
  their own side only, and any point may raise.  Points are recorded with their
  addresses, since two points may have one label.
-/
import Liveness.Flow.Fold
import Liveness.Flow.Graph
import Liveness.Proofs.Behaviour
import Liveness.Syntax.Part

namespace Liveness

/-- What is left open about the runs of a program. -/
structure Reading (α : Type) where
  /-- What is recorded of a point, by the address of its statement and its label. -/
  mark : List Step → Label → α
  /-- Whether every point may raise, and not only `throw`. -/
  raising : Bool
  /-- Whether a guarded statement may be left for the handler right after its first point. -/
  leaping : Bool
  /-- Whether a test that is literally `true` may fall through where there is no `else`. -/
  lenient : Bool

/-- A point with the address of the statement it belongs to. -/
structure Point where
  address : List Step
  label : Label
  deriving DecidableEq, Repr

namespace Reading

variable {α : Type}

/-- The reading of a program by the flow graph. -/
def structural : Reading Label :=
  { mark := fun _ label => label, raising := false, leaping := true, lenient := true }

/-- The reading of a program by the language; if `raising`, any point may raise. -/
def strict (raising : Bool) : Reading Point :=
  { mark := Point.mk, raising, leaping := false, lenient := false }

/-- A point is executed, which ends in the way `k` unless it raises. -/
def point (r : Reading α) (address : List Step) (label : Label) (k : Completion) : Behaviour α :=
  .single (r.mark address label) (k :: if r.raising then [.threw] else [])

/-- A statement of a block: if the block is guarded, it may be left early. -/
def within (r : Reading α) (guarded : Bool) (b : Behaviour α) : Behaviour α :=
  if r.leaping && guarded then b.leaping else b

end Reading

open Behaviour

variable {α : Type}

mutual
/-- The runs of the statement at an address. -/
def Stmt.runs (r : Reading α) (address : List Step) : Stmt → Behaviour α
  | .exprStmt offset _ => r.point address offset .normal
  | .declStmt offset _ => r.point address offset .normal
  | .throwStmt offset _ => r.point address offset .threw
  | .breakStmt offset _ => r.point address offset .broke
  | .continueStmt offset _ => r.point address offset .continued
  | .whileStmt _ test body =>
    .Loop (r.point address test.offset .normal)
      (test.truth? ≠ some false) (r.lenient = true ∨ test.truth? ≠ some true)
      (body.runs r false (address ++ [.child "body"]))
  | .ifStmt _ test consequent none folded =>
    (r.point address test.offset .normal).andThen <|
      .either (Stmt.decided? folded test ≠ some false)
        (consequent.runs r false (address ++ [.child "consequent"]))
        (r.lenient = true ∨ Stmt.decided? folded test ≠ some true) .idle
  | .ifStmt _ test consequent (some alternate) folded =>
    (r.point address test.offset .normal).andThen <|
      .either (Stmt.decided? folded test ≠ some false)
        (consequent.runs r false (address ++ [.child "consequent"]))
        (Stmt.decided? folded test ≠ some true)
        (alternate.runs r false (address ++ [.child "alternate"]))
  | .tryStmt _ block handler none _ =>
    (block.runs r true (address ++ [.child "block"])).caught
      (handler.runs r false (address ++ [.child "handler"]))
  | .tryStmt _ block handler (some finalizer) _ =>
    .closing
      ((block.runs r true (address ++ [.child "block"])).caught
        (handler.runs r false (address ++ [.child "handler"])))
      (finalizer.runs r false (address ++ [.child "finalizer"]))
  | .blockStmt block => block.runs r false address
  | .unsupported .. => .idle
/-- The runs of the block at an address, which may be guarded by a handler. -/
def Block.runs (r : Reading α) (guarded : Bool) (address : List Step) : Block → Behaviour α
  | ⟨_, body⟩ => Stmt.runsFrom r guarded (address ++ [.child "body"]) 0 body
/-- The runs of the statements of a block from the one at place `i` on. -/
def Stmt.runsFrom (r : Reading α) (guarded : Bool) (address : List Step) (i : Nat) :
    List Stmt → Behaviour α
  | [] => .idle
  | s :: rest =>
    (r.within guarded (s.runs r (address ++ [.item i]))).andThen
      (Stmt.runsFrom r guarded address (i + 1) rest)
end

/-- The runs of a program. -/
def Program.runs (r : Reading α) (p : Program) : Behaviour α :=
  p.block.runs r false []

end Liveness
