/-
Liveness/Syntax/Stmt.lean

Statements, blocks and programs.  A program point is a place where something
runs: a simple statement has one at its own offset, `if` and `while` have one at
their test.  Its offset is the label by which the analysis knows it.

`Block.statements` lists every statement nested in a block, outer ones first, in
the order of the text.
-/
import Liveness.Syntax.Expr

namespace Liveness

/-- One variable of a declaration; the name is `null` if it is a pattern. -/
structure Declarator where
  offset : Int
  name : Json
  init : Option Expr

mutual
/-- A statement.  Statements outside the analysed language keep their tag and nothing else. -/
inductive Stmt where
  | exprStmt (offset : Int) (expression : Expr)
  | declStmt (offset : Int) (declarators : List Declarator)
  | whileStmt (offset : Int) (test : Expr) (body : Block)
  | ifStmt (offset : Int) (test : Expr) (consequent : Block) (alternate : Option Block)
      (folded : Bool)
  | throwStmt (offset : Int) (argument : Option Expr)
  | breakStmt (offset : Int) (label : Json)
  | continueStmt (offset : Int) (label : Json)
  | tryStmt (offset : Int) (block handler : Block) (finalizer : Option Block) (param : Json)
  | blockStmt (block : Block)
  | unsupported (offset : Int) (tag : Json)
/-- A list of statements between braces, or a lone statement in their place. -/
structure Block where
  offset : Int
  body : List Stmt
end

instance : Inhabited Block := ⟨⟨0, []⟩⟩

instance : Inhabited Stmt := ⟨.blockStmt default⟩

namespace Stmt

/-- Where a statement starts. -/
def offset : Stmt → Int
  | exprStmt o _ | declStmt o _ | whileStmt o _ _ | ifStmt o _ _ _ _ | throwStmt o _
  | breakStmt o _ | continueStmt o _ | tryStmt o _ _ _ _ | unsupported o _ => o
  | blockStmt b => b.offset

/-- The kind of a statement, as its document names it. -/
def kind : Stmt → Json
  | exprStmt .. => .str "ExpressionStatement"
  | declStmt .. => .str "VariableDeclaration"
  | whileStmt .. => .str "WhileStatement"
  | ifStmt .. => .str "IfStatement"
  | throwStmt .. => .str "ThrowStatement"
  | breakStmt .. => .str "BreakStatement"
  | continueStmt .. => .str "ContinueStatement"
  | tryStmt .. => .str "TryStatement"
  | blockStmt .. => .str "BlockStatement"
  | unsupported _ tag => tag

/-- The label of a statement's own program point. -/
def point? : Stmt → Option Int
  | exprStmt o _ | declStmt o _ | throwStmt o _ | breakStmt o _ | continueStmt o _ => some o
  | whileStmt _ test _ | ifStmt _ test _ _ _ => some test.offset
  | tryStmt .. | blockStmt .. | unsupported .. => none

/-- The kind of what the label of a statement denotes: its test if it has one, else itself. -/
def pointKind : Stmt → Json
  | whileStmt _ test _ | ifStmt _ test _ _ _ => test.kind
  | s => s.kind

/-- The blocks directly inside a statement, in the order of the text. -/
def blocks : Stmt → List Block
  | whileStmt _ _ body => [body]
  | ifStmt _ _ consequent alternate _ => consequent :: alternate.toList
  | tryStmt _ block handler finalizer _ => block :: handler :: finalizer.toList
  | blockStmt block => [block]
  | _ => []

end Stmt

mutual
/-- All statements nested in a statement, itself left out, in the order of the text. -/
def Stmt.nested : Stmt → List Stmt
  | .whileStmt _ _ body => body.statements
  | .ifStmt _ _ consequent none _ => consequent.statements
  | .ifStmt _ _ consequent (some alternate) _ => consequent.statements ++ alternate.statements
  | .tryStmt _ block handler none _ => block.statements ++ handler.statements
  | .tryStmt _ block handler (some finalizer) _ =>
    block.statements ++ (handler.statements ++ finalizer.statements)
  | .blockStmt block => block.statements
  | _ => []
/-- All statements nested in a block, in the order of the text. -/
def Block.statements : Block → List Stmt
  | ⟨_, body⟩ => Stmt.flatten body
/-- Some statements with all statements nested in them. -/
def Stmt.flatten : List Stmt → List Stmt
  | [] => []
  | s :: rest => s :: (s.nested ++ Stmt.flatten rest)
end

/-- Whether a block has no statement at all. -/
def Block.isEmpty (b : Block) : Bool :=
  b.body.isEmpty

/-- A whole program. -/
structure Program where
  offset : Int
  body : List Stmt

namespace Program

instance : Inhabited Program := ⟨⟨0, []⟩⟩

/-- The statements of a program as one block. -/
def block (p : Program) : Block :=
  ⟨p.offset, p.body⟩

/-- All statements of a program, outer ones first, in the order of the text. -/
def statements (p : Program) : List Stmt :=
  p.block.statements

end Program

end Liveness
