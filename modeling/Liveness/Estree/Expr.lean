/-
Liveness/Estree/Expr.lean

Expressions out of ESTree documents.  Each form reads its own members; any
other node is an operation whose operands are the nodes found among its
members, sorted by where they start.

`Expr.read` recurses on the depth of the document that is left, so it is total,
and at depth zero nothing but a plain value can be there.
-/
import Liveness.Json.Display
import Liveness.Sorting
import Liveness.Sorting.Runs
import Liveness.Syntax.Error
import Liveness.Syntax.Expr

namespace Liveness.Estree

/-! ### Members that every node has -/

/-- The failure of a node with a known offset. -/
def malformed {α : Type} (kind : String) (offset : Option Int) (fault : Fault) :
    Except LoadError α :=
  .error (.malformed ⟨kind, offset, fault⟩)

/-- Where a node starts. -/
def startOf (node : Json) : Except LoadError Int :=
  match node.field "start" with
  | .int offset => .ok offset
  | _ =>
    let kind :=
      match node.get? "type" with
      | some type => type.display
      | none => "node"
    malformed kind none .startMissing

/-- The failure of a node that lacks a child. -/
def childMissing {α : Type} (node : Json) (key : String) : Except LoadError α := do
  let offset ← startOf node
  malformed (node.field "type").display (some offset) (.childMissing key)

/-- A member that has to be an object. -/
def child (node : Json) (key : String) : Except LoadError Json :=
  match node.field key with
  | .obj members => .ok (.obj members)
  | _ => childMissing node key

/-- The items of a member that should be a list.  A value that does not count as present is the
empty list, a text is a list of its characters and an object is a list of its keys. -/
def items (j : Json) : Except LoadError (List Json) :=
  if j.truthy then
    match j with
    | .arr items => .ok items
    | .str s => .ok (s.toList.map fun c => .str (String.singleton c))
    | .obj members => .ok (members.map fun m => .str m.1)
    | j => .error (.notASequence j.kind)
  else .ok []

/-! ### Operands -/

/-- Members that never hold operands. -/
def plainKeys : List String :=
  ["type", "start", "end", "loc", "range", "raw", "operator", "prefix", "sourceType"]

/-- A node: an object with a type. -/
def isNode (j : Json) : Bool :=
  j.has "type"

/-- The nodes in a member. -/
def nodesIn : Json → List Json
  | .arr items => items.filter isNode
  | j => if isNode j then [j] else []

/-- The nodes among the members of a node, in their order. -/
def childNodes : Json → List Json
  | .obj members =>
    members.flatMap fun (key, j) => if plainKeys.contains key then [] else nodesIn j
  | _ => []

/-- What siblings are sorted by: where they start, zero if they do not say. -/
def sortKey (node : Json) : Json :=
  (node.get? "start").getD (.int 0)

/-- Where a node starts, if that is an integer. -/
def place? (node : Json) : Option Int :=
  match sortKey node with
  | .int offset => some offset
  | _ => none

/-- Whether one node starts before another. -/
def startsBefore (a b : Json) : Except LoadError Bool :=
  match (sortKey a).less? (sortKey b) with
  | some answer => .ok answer
  | none => .error .unordered

/-- Siblings in the order of the text.  Integers are ordered, and every stable sort of them gives
the same list; among other values it matters which pairs are compared. -/
def sorted (nodes : List Json) : Except LoadError (List Json) :=
  if nodes.all fun node => (place? node).isSome then
    .ok (Sorting.byKey (fun node => (place? node).getD 0) nodes)
  else Sorting.byRuns startsBefore nodes

/-! ### Expressions -/

/-- The forms of expressions that read members of their own. -/
inductive ExprForm where
  | identifier | literal | member | call | assignment | update | parenthesized | operation
  deriving DecidableEq, Repr

/-- The form of an expression with a type. -/
def ExprForm.ofType : Json → ExprForm
  | .str type =>
    if type = "Identifier" then .identifier
    else if type = "Literal" then .literal
    else if type = "MemberExpression" then .member
    else if type = "CallExpression" then .call
    else if type = "AssignmentExpression" then .assignment
    else if type = "UpdateExpression" then .update
    else if type = "ParenthesizedExpression" then .parenthesized
    else .operation
  | _ => .operation

/-- The value of a literal.  The value of a regular expression is its text, which is never
decided as a test. -/
def literalValue (node : Json) : Json :=
  if node.has "regex" then
    let raw := node.field "raw"
    if raw.truthy then raw else .str ""
  else node.field "value"

end Liveness.Estree

namespace Liveness

open Estree in
/-- Read an expression from a node of at most the given depth. -/
def Expr.read : (depth : Nat) → Json → Except LoadError Expr
  | 0, j => malformed "expression" none (.notANode j.kind)
  | depth + 1, j =>
    match j.get? "type" with
    | none => malformed "expression" none (.notANode j.kind)
    | some type => do
      let offset ← startOf j
      match ExprForm.ofType type with
      | .identifier =>
        match j.field "name" with
        | .str name => return .identifier offset name
        | _ => malformed "Identifier" (some offset) (.childMissing "name")
      | .literal => return .literal offset (literalValue j) (j.field "raw")
      | .member =>
        let object ← read depth (← child j "object")
        let property ← read depth (← child j "property")
        return .member offset object property (j.field "computed").truthy
      | .call =>
        let callee ← read depth (← child j "callee")
        let arguments ← (← items (j.field "arguments")).mapM fun argument =>
          match argument with
          | .null => pure none
          | argument => some <$> read depth argument
        return .call offset callee arguments
      | .assignment =>
        let target ← read depth (← child j "left")
        let value ← read depth (← child j "right")
        return .assignment offset ((j.get? "operator").getD (.str "=")) target value
      | .update =>
        let target ← read depth (← child j "argument")
        return .update offset ((j.get? "operator").getD (.str "++")) target
      | .parenthesized => read depth (← child j "expression")
      | .operation =>
        let operands ← (← sorted (childNodes j)).mapM (read depth)
        return .operation offset type (j.field "operator") operands

/-- Read an expression that may be left out. -/
def Expr.readOptional (depth : Nat) : Json → Except LoadError (Option Expr)
  | .null => .ok none
  | j => some <$> Expr.read depth j

/-- Read an expression from a document. -/
def Expr.ofEstree (j : Json) : Except LoadError (Option Expr) :=
  Expr.readOptional j.depth j

end Liveness
