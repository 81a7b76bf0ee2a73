/-
Liveness/Syntax/Error.lean

Why a document is no program.  A malformed tree names the node at fault, its
offset where one is known, and the fault.  The other causes are documents whose
values are of a kind that the reader cannot even look into.
-/
import Liveness.Json.Reader

namespace Liveness

/-- What is wrong at a node. -/
inductive Fault where
  | startMissing
  | childMissing (key : String)
  | notANode (found : Json.Kind)
  | declarationsNotAList
  | notADeclarator (found : Json.Kind)
  | catchMissing
  | notAProgram (found : String)
  | notJson (path : String) (error : Json.ReadError)
  | labelTaken (owner : String)
  deriving DecidableEq, Repr

/-- The wording of a fault. -/
def Fault.message : Fault → String
  | .startMissing => "missing integer 'start'"
  | .childMissing key => s!"missing '{key}'"
  | .notANode found => s!"expected a node, got {found.name}"
  | .declarationsNotAList => "'declarations' must be a list"
  | .notADeclarator found => s!"expected a declarator, got {found.name}"
  | .catchMissing => "a catch clause is required"
  | .notAProgram found => s!"expected an ESTree Program, got {found}"
  | .notJson path error => s!"{path} is not valid JSON: {error.message}"
  | .labelTaken owner => s!"label already used by {owner}"

/-- A fault with the kind of the node that has it and the offset of that node. -/
structure Malformed where
  kind : String
  offset : Option Int
  fault : Fault
  deriving DecidableEq, Repr

/-- The wording of a malformed tree. -/
def Malformed.message (m : Malformed) : String :=
  let place :=
    match m.offset with
    | some offset => s!"offset {offset}"
    | none => "unknown offset"
  s!"{m.kind} at {place}: {m.fault.message}"

/-- Why a document cannot be read as a program. -/
inductive LoadError where
  /-- A node lacks what the analysis relies on. -/
  | malformed (m : Malformed)
  /-- A value stands where a list of nodes should be. -/
  | notASequence (found : Json.Kind)
  /-- The children of an operation start at values that have no order. -/
  | unordered
  /-- The type of a statement is a list or an object. -/
  | typeNotPlain (found : Json.Kind)
  /-- A value stands where a label or a parameter should be. -/
  | notARecord (found : Json.Kind)
  deriving DecidableEq, Repr

end Liveness
