import LimeLang.Token

/-! Programs as trees. A part that could not be read is kept as `missing`, so that every source
has a tree. -/

namespace LimeLang

inductive InfixOp
  | add | sub | mul | div | rem | pow
  | lt | gt | le | ge | eq | ne
deriving DecidableEq, Repr

namespace InfixOp

def text : InfixOp → String
  | add => "+"
  | sub => "-"
  | mul => "*"
  | div => "/"
  | rem => "%"
  | pow => "^"
  | lt => "<"
  | gt => ">"
  | le => "<="
  | ge => ">="
  | eq => "=="
  | ne => "!="

def level : InfixOp → Nat
  | eq | ne => 1
  | lt | gt | le | ge => 2
  | add | sub => 3
  | mul | div | rem => 4
  | pow => 5

end InfixOp

inductive PrefixOp
  | neg | not
deriving DecidableEq, Repr

def PrefixOp.text : PrefixOp → String
  | neg => "-"
  | not => "!"

inductive StepOp
  | increment | decrement
deriving DecidableEq, Repr

def StepOp.text : StepOp → String
  | increment => "++"
  | decrement => "--"

/-- Binding strength of prefix operators, of calls, and of steps. -/
def prefixLevel : Nat := 6

def callLevel : Nat := 7

def stepLevel : Nat := 8

/-- A parameter of a function; its name and type are whatever literals stood there. -/
structure Param where
  name : Literal
  type : Literal
deriving DecidableEq, Repr

mutual

inductive Expr
  | missing
  | int (n : Nat)
  | float (x : Number.Double)
  | ident (name : String)
  | bool (b : Bool)
  | str (s : String)
  | infixed (left : Expr) (op : InfixOp) (right : Expr)
  | prefixed (op : PrefixOp) (right : Expr)
  | stepped (left : Expr) (op : StepOp)
  | call (callee : Expr) (args : List Expr)
  /-- A call whose list of arguments was not closed. -/
  | openCall (callee : Expr)
  | ifThen (condition : Expr) (body : List Stmt)
  | ifElse (condition : Expr) (body alternative : List Stmt)

inductive Stmt
  | missing
  | expr (e : Expr)
  /-- An expression without a statement around it, as the step of a loop. -/
  | bare (e : Expr)
  | letVar (name : String) (value : Expr) (type : String)
  | ret (value : Expr)
  | fn (name : String) (params : Option (List Param)) (returnType : Literal) (body : List Stmt)
  | assign (target : Literal) (op : Literal) (value : Expr)
  | whileLoop (condition : Expr) (body : List Stmt)
  | breakLoop
  | continueLoop
  | forLoop (init : Stmt) (condition : Expr) (step : Stmt) (body : List Stmt)
  | importPallet (path : String)

end

abbrev Program := List Stmt

/-- The plain assignment operator. -/
def plainAssign : Literal := .text "="

/-- The kind of node an expression is. -/
def Expr.kind : Expr → String
  | .missing => "NoneType"
  | .int _ => "IntegerLiteral"
  | .float _ => "FloatLiteral"
  | .ident _ => "IdentifierLiteral"
  | .bool _ => "BooleanLiteral"
  | .str _ => "StringLiteral"
  | .infixed .. => "InfixExpression"
  | .prefixed .. => "PrefixExpression"
  | .stepped .. => "PostfixExpression"
  | .call .. | .openCall .. => "CallExpression"
  | .ifThen .. | .ifElse .. => "IfStatement"

def Stmt.kind : Stmt → String
  | .missing => "NoneType"
  | .expr _ => "ExpressionStatement"
  | .bare e => e.kind
  | .letVar .. => "LetStatement"
  | .ret _ => "ReturnStatement"
  | .fn .. => "FunctionStatement"
  | .assign .. => "AssignStatement"
  | .whileLoop .. => "WhileStatement"
  | .breakLoop => "BreakStatement"
  | .continueLoop => "ContinueStatement"
  | .forLoop .. => "ForStatement"
  | .importPallet _ => "ImportStatement"

end LimeLang
