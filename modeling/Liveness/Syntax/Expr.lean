/-
Liveness/Syntax/Expr.lean

Expressions of the analysed language.  Seven forms matter to the analysis:
names, literals, member accesses, calls, assignments, updates, and all the rest,
which are operations on their operands.  Every expression knows the character
offset at which it starts.

Two walks go over an expression.  `subexpressions` lists every node in the order
of the text, and `names` lists the variables that are read: it leaves out the
property of `a.b`, which is a name but no variable.
-/
import Liveness.Json.Basic

namespace Liveness

/-- An expression.  The tag of an operation, operators and literal values are kept as the
document has them; an argument of a call may be left out. -/
inductive Expr where
  | identifier (offset : Int) (name : String)
  | literal (offset : Int) (value raw : Json)
  | member (offset : Int) (object property : Expr) (computed : Bool)
  | call (offset : Int) (callee : Expr) (arguments : List (Option Expr))
  | assignment (offset : Int) (operator : Json) (target value : Expr)
  | update (offset : Int) (operator : Json) (target : Expr)
  | operation (offset : Int) (tag operator : Json) (operands : List Expr)

namespace Expr

/-- Where an expression starts. -/
def offset : Expr → Int
  | identifier o _ | literal o _ _ | member o _ _ _ | call o _ _
  | assignment o _ _ _ | update o _ _ | operation o _ _ _ => o

/-- The kind of an expression, as its document names it. -/
def kind : Expr → Json
  | identifier .. => .str "Identifier"
  | literal .. => .str "Literal"
  | member .. => .str "MemberExpression"
  | call .. => .str "CallExpression"
  | assignment .. => .str "AssignmentExpression"
  | update .. => .str "UpdateExpression"
  | operation _ tag _ _ => tag

/-- The branch that a literal selects as a test: only booleans and `null` are decided. -/
def truth? : Expr → Option Bool
  | literal _ (.bool b) _ => some b
  | literal _ .null _ => some false
  | _ => none

/-- The name of a variable or of a plain chain of members such as `console.log`. -/
def chainName? : Expr → Option String
  | identifier _ name => some name
  | member _ object (identifier _ name) false => object.chainName?.map (· ++ "." ++ name)
  | _ => none

/-- The name of an expression that is a variable. -/
def bareName? : Expr → Option String
  | identifier _ name => some name
  | _ => none

mutual
/-- An expression and all expressions inside it, in the order of the text. -/
def subexpressions : Expr → List Expr
  | e@(identifier ..) => [e]
  | e@(literal ..) => [e]
  | e@(member _ object property _) => e :: (object.subexpressions ++ property.subexpressions)
  | e@(call _ callee arguments) => e :: (callee.subexpressions ++ inArguments arguments)
  | e@(assignment _ _ target value) => e :: (target.subexpressions ++ value.subexpressions)
  | e@(update _ _ target) => e :: target.subexpressions
  | e@(operation _ _ _ operands) => e :: inOperands operands
/-- All expressions inside the arguments of a call. -/
def inArguments : List (Option Expr) → List Expr
  | [] => []
  | none :: rest => inArguments rest
  | some e :: rest => e.subexpressions ++ inArguments rest
/-- All expressions inside the operands of an operation. -/
def inOperands : List Expr → List Expr
  | [] => []
  | e :: rest => e.subexpressions ++ inOperands rest
end

mutual
/-- The variables that an expression reads, in the order of the text, with repetitions. -/
def names : Expr → List String
  | identifier _ name => [name]
  | literal .. => []
  | member _ object property computed =>
    object.names ++ if computed then property.names else []
  | call _ callee arguments => callee.names ++ argumentNames arguments
  | assignment _ _ target value => target.names ++ value.names
  | update _ _ target => target.names
  | operation _ _ _ operands => operandNames operands
/-- The variables that the arguments of a call read. -/
def argumentNames : List (Option Expr) → List String
  | [] => []
  | none :: rest => argumentNames rest
  | some e :: rest => e.names ++ argumentNames rest
/-- The variables that the operands of an operation read. -/
def operandNames : List Expr → List String
  | [] => []
  | e :: rest => e.names ++ operandNames rest
end

end Expr

end Liveness
