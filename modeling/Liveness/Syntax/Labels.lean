/-
Liveness/Syntax/Labels.lean

Labels of a program.  Every program point has its offset as a label, and a
program in which two points share one is refused: the second of them is at
fault, and the message names the kind of the first.
-/
import Liveness.Json.Display
import Liveness.Syntax.Error
import Liveness.Syntax.Stmt

namespace Liveness

/-- The labels of some statements after those in `seen`, with the kind of what each denotes. -/
def Stmt.labelsFrom (seen : List (Int × Json)) : List Stmt → Except Malformed (List (Int × Json))
  | [] => .ok seen
  | s :: rest =>
    match s.point? with
    | none => labelsFrom seen rest
    | some label =>
      match seen.lookup label with
      | some owner => .error ⟨s.kind.display, some label, .labelTaken owner.display⟩
      | none => labelsFrom (seen ++ [(label, s.pointKind)]) rest

/-- The labels of a program in the order of the text, with the kind of what each denotes. -/
def Program.labels (p : Program) : Except Malformed (List (Int × Json)) :=
  Stmt.labelsFrom [] p.statements

end Liveness
