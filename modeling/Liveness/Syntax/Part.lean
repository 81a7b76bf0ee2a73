/-
Liveness/Syntax/Part.lean

Parts of a program by address.  An address is a list of steps from the program:
the name of a child, or the place of an item in a list of children.
-/
import Liveness.Syntax.Stmt

namespace Liveness

/-- A part of a program. -/
inductive Part where
  | program (program : Program)
  | block (block : Block)
  | stmt (stmt : Stmt)
  | declarator (declarator : Declarator)
  | expr (expr : Expr)
  | list (items : List (Option Part))

/-- One step of an address. -/
inductive Step where
  | child (name : String)
  | item (index : Nat)
  deriving DecidableEq, Repr

namespace Part

/-- A statement as a part: bare braces are the block between them. -/
def ofStmt : Stmt → Part
  | .blockStmt b => .block b
  | s => .stmt s

/-- Some statements as a part. -/
def ofBody (body : List Stmt) : Part :=
  .list (body.map fun s => some (ofStmt s))

/-- The children of an expression by name. -/
def exprChildren : Expr → List (String × Option Part)
  | .identifier .. | .literal .. => []
  | .member _ object property _ =>
    [("object", some (.expr object)), ("property", some (.expr property))]
  | .call _ callee arguments =>
    [("callee", some (.expr callee)), ("arguments", some (.list (arguments.map (·.map .expr))))]
  | .assignment _ _ target value =>
    [("target", some (.expr target)), ("value", some (.expr value))]
  | .update _ _ target => [("target", some (.expr target))]
  | .operation _ _ _ operands =>
    [("operands", some (.list (operands.map fun e => some (.expr e))))]

/-- The children of a statement by name. -/
def stmtChildren : Stmt → List (String × Option Part)
  | .exprStmt _ e => [("expression", some (.expr e))]
  | .declStmt _ ds => [("declarations", some (.list (ds.map fun d => some (.declarator d))))]
  | .whileStmt _ test body => [("test", some (.expr test)), ("body", some (.block body))]
  | .ifStmt _ test consequent alternate _ =>
    [("test", some (.expr test)), ("consequent", some (.block consequent)),
      ("alternate", alternate.map .block)]
  | .throwStmt _ argument => [("argument", argument.map .expr)]
  | .tryStmt _ guarded handler finalizer _ =>
    [("block", some (.block guarded)), ("handler", some (.block handler)),
      ("finalizer", finalizer.map .block)]
  | .blockStmt b => [("body", some (ofBody b.body))]
  | .breakStmt .. | .continueStmt .. | .unsupported .. => []

/-- The children of a part by name. -/
def children : Part → List (String × Option Part)
  | .program p => [("body", some (ofBody p.body))]
  | .block b => [("body", some (ofBody b.body))]
  | .stmt s => stmtChildren s
  | .declarator d => [("init", d.init.map .expr)]
  | .expr e => exprChildren e
  | .list _ => []

/-- The part one step further, if there is one. -/
def step? (part : Part) : Step → Option Part
  | .child name => (part.children.lookup name).join
  | .item index =>
    match part with
    | .list items => items[index]?.join
    | _ => none

/-- The part at an address, if there is one. -/
def at? (part : Part) (address : List Step) : Option Part :=
  address.foldlM step? part

/-- The block that a part is. -/
def block? : Part → Option Block
  | .program p => some p.block
  | .block b => some b
  | _ => none

end Part

end Liveness
