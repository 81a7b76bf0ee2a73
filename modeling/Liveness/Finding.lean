/-
Liveness/Finding.lean

What the analysis reports.  A finding names the character offset it is about
and says in words what was found there; findings are reported, never raised.
-/
import Liveness.Json.Display

namespace Liveness

/-- The three kinds of findings. -/
inductive FindingKind where
  | unreachable
  | deadBranch
  | deadAssignment
  deriving DecidableEq, Repr

/-- The name of a kind in reports. -/
def FindingKind.name : FindingKind → String
  | .unreachable => "unreachable"
  | .deadBranch => "dead-branch"
  | .deadAssignment => "dead-assignment"

/-- The kind with a name. -/
def FindingKind.ofName? (name : String) : Option FindingKind :=
  [unreachable, deadBranch, deadAssignment].find? (·.name == name)

/-- A value that names no kind of finding. -/
structure UnknownKind where
  found : Json

/-- The wording of an unknown kind. -/
def UnknownKind.message (e : UnknownKind) : String :=
  s!"{e.found.literal} is not a valid DiagnosticKind"

/-- The kind that a value names. -/
def FindingKind.ofJson (j : Json) : Except UnknownKind FindingKind :=
  let kind? :=
    match j with
    | .str name => ofName? name
    | _ => none
  match kind? with
  | some kind => .ok kind
  | none => .error ⟨j⟩

/-- A finding at an offset. -/
structure Finding where
  kind : FindingKind
  offset : Int
  detail : String
  deriving DecidableEq, Repr

namespace Finding

/-- A finding as one line. -/
def text (f : Finding) : String :=
  s!"{f.kind.name} at char offset {f.offset}: {f.detail}"

/-- A statement that is never reached. -/
def unreachable (what : String) (offset : Int) : Finding :=
  ⟨.unreachable, offset, s!"unreachable {what}"⟩

/-- A part of a statement that is never entered. -/
def deadBranch (what : String) (offset : Int) : Finding :=
  ⟨.deadBranch, offset, s!"unreachable {what}"⟩

/-- A variable that is written and not read before it is written again. -/
def deadAssignment (name : String) (offset : Int) : Finding :=
  ⟨.deadAssignment, offset, s!"dead assignment to {name}"⟩

end Finding

end Liveness
