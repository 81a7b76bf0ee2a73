/-
Liveness/Estree/Program.lean

Statements and programs out of ESTree documents.  A lone statement in place of
a block becomes a block of one.  Labels of `break` and `continue` are kept but
ignored, and statements outside the analysed language are kept by their type
alone; both leave a note.
-/
import Liveness.Estree.Expr
import Liveness.Noted
import Liveness.Syntax.Stmt

namespace Liveness.Estree

/-- What reading a program leaves a note of. -/
inductive Note where
  | labelIgnored (kind : String) (offset : Int) (label : Json)
  | unsupported (kind : Json) (offset : Int)

/-- The wording of a note. -/
def Note.message : Note → String
  | .labelIgnored kind offset label => s!"{kind} at {offset}: label '{label.display}' ignored"
  | .unsupported kind offset => s!"unsupported statement {kind.display} at {offset}"

/-- Reading with notes. -/
abbrev Reading := Noted Note LoadError

/-- The forms of statements that the analysis knows. -/
inductive StmtForm where
  | expression | declaration | whileLoop | conditional | throwing | breaking | continuing
  | guarded | block | unknown
  deriving DecidableEq, Repr

/-- The form of a statement with a type. -/
def StmtForm.ofType : Json → StmtForm
  | .str type =>
    if type = "ExpressionStatement" then .expression
    else if type = "VariableDeclaration" then .declaration
    else if type = "WhileStatement" then .whileLoop
    else if type = "IfStatement" then .conditional
    else if type = "ThrowStatement" then .throwing
    else if type = "BreakStatement" then .breaking
    else if type = "ContinueStatement" then .continuing
    else if type = "TryStatement" then .guarded
    else if type = "BlockStatement" then .block
    else .unknown
  | _ => .unknown

/-- A member of a record that may be left out as a whole. -/
def memberOf (record : Json) (key : String) : Except LoadError Json :=
  if record.truthy then
    match record with
    | .obj members => .ok ((Json.obj members).field key)
    | j => .error (.notARecord j.kind)
  else .ok .null

/-- The label of a jump, with a note if there is one. -/
def readLabel (kind : String) (offset : Int) (j : Json) : Reading Json := do
  let label ← memberOf (j.field "label") "name"
  match label with
  | .null => return .null
  | label =>
    Noted.note (.labelIgnored kind offset label)
    return label

/-- The name of the parameter of a catch clause, `null` if it is no plain name. -/
def paramName (handler : Json) : Except LoadError Json := do
  let param := handler.field "param"
  let type ← memberOf param "type"
  let name ← memberOf param "name"
  return if type.isText "Identifier" then name else .null

/-- One variable of a declaration that starts at `offset`. -/
def readDeclarator (depth : Nat) (offset : Int) (j : Json) : Except LoadError Declarator :=
  match j with
  | .obj _ => do
    let start ← startOf j
    let target := j.field "id"
    let name := if (target.field "type").isText "Identifier" then target.field "name" else .null
    let init ← Expr.readOptional depth (j.field "init")
    return { offset := start, name, init }
  | _ => malformed "VariableDeclaration" (some offset) (.notADeclarator j.kind)

/-- The variables of a declaration that starts at `offset`. -/
def readDeclarators (depth : Nat) (offset : Int) (j : Json) :
    Except LoadError (List Declarator) :=
  if j.truthy then
    match j with
    | .arr items => items.mapM (readDeclarator depth offset)
    | _ => malformed "VariableDeclaration" (some offset) .declarationsNotAList
  else .ok []

/-- Read the block in the member `key` of a node, with a reader for its statements. -/
def readBlock (read : Json → Reading Stmt) (owner : Json) (key : String) : Reading Block :=
  match owner.field key with
  | .obj members => do
    let j := Json.obj members
    let offset ← startOf j
    if (j.field "type").isText "BlockStatement" then
      return ⟨offset, ← (← items (j.field "body")).mapM read⟩
    else return ⟨offset, [← read j]⟩
  | _ => childMissing owner key

/-- Read a block that may be left out. -/
def readBlock? (read : Json → Reading Stmt) (owner : Json) (key : String) :
    Reading (Option Block) :=
  match owner.field key with
  | .null => pure none
  | _ => some <$> readBlock read owner key

/-- A value that the type of a statement may be. -/
def isPlain : Json → Bool
  | .arr _ | .obj _ => false
  | _ => true

end Liveness.Estree

namespace Liveness

open Estree in
/-- Read a statement from a node of at most the given depth. -/
def Stmt.read : (depth : Nat) → Json → Reading Stmt
  | 0, j => malformed (α := Stmt) "statement" none (.notANode j.kind)
  | depth + 1, j =>
    match j.get? "type" with
    | none => malformed (α := Stmt) "statement" none (.notANode j.kind)
    | some type => do
      let offset ← startOf j
      match StmtForm.ofType type with
      | .expression =>
        let node ← child j "expression"
        return .exprStmt offset (← Expr.read depth node)
      | .declaration =>
        return .declStmt offset (← readDeclarators depth offset (j.field "declarations"))
      | .whileLoop =>
        let node ← child j "test"
        let test ← Expr.read depth node
        return .whileStmt offset test (← readBlock (read depth) j "body")
      | .conditional =>
        let node ← child j "test"
        let test ← Expr.read depth node
        let consequent ← readBlock (read depth) j "consequent"
        let alternate ← readBlock? (read depth) j "alternate"
        return .ifStmt offset test consequent alternate false
      | .throwing =>
        return .throwStmt offset (← Expr.readOptional depth (j.field "argument"))
      | .breaking => return .breakStmt offset (← readLabel "BreakStatement" offset j)
      | .continuing => return .continueStmt offset (← readLabel "ContinueStatement" offset j)
      | .guarded =>
        match j.field "handler" with
        | .obj members =>
          let handler := Json.obj members
          let block ← readBlock (read depth) j "block"
          let body ← readBlock (read depth) handler "body"
          let finalizer ← readBlock? (read depth) j "finalizer"
          return .tryStmt offset block body finalizer (← paramName handler)
        | _ => malformed (α := Stmt) "TryStatement" (some offset) .catchMissing
      | .block =>
        let nodes ← items (j.field "body")
        return .blockStmt ⟨offset, ← nodes.mapM (read depth)⟩
      | .unknown =>
        if isPlain type then
          Noted.note (.unsupported type offset)
          return .unsupported offset type
        else Noted.fail (.typeNotPlain type.kind)

open Estree in
/-- Read a program from a document, with notes. -/
def Program.read (tree : Json) : Reading Program :=
  if (tree.field "type").isText "Program" then do
    let offset ← startOf tree
    let nodes ← items (tree.field "body")
    return ⟨offset, ← nodes.mapM (Stmt.read tree.depth)⟩
  else
    let found :=
      match tree with
      | .obj _ => (tree.field "type").display
      | j => j.kind.name
    malformed (α := Program) "Program" none (.notAProgram found)

/-- The program that a document holds. -/
def Program.ofEstree (tree : Json) : Except LoadError Program :=
  (Program.read tree).result

end Liveness
