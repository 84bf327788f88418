import LimeLang.Code.Run
import LimeLang.Tree
import Mathlib.Logic.Function.Basic

/-! Programs on integers and what they mean. Integers are words of 32 bits, read as signed numbers;
arithmetic wraps. Meaning is given on trees, with a limit on how deep calls and how long loops
go. -/

namespace LimeLang

open Code (Outcome)

abbrev Word := BitVec 32

namespace InfixOp

/-- Arithmetic on signed numbers. Division truncates; there is none by zero. The least number by -1
wraps to itself, with remainder zero, where a machine may leave both undefined. -/
def compute? : InfixOp → Word → Word → Option Word
  | add, x, y => some (.ofInt 32 (x.toInt + y.toInt))
  | sub, x, y => some (.ofInt 32 (x.toInt - y.toInt))
  | mul, x, y => some (.ofInt 32 (x.toInt * y.toInt))
  | div, x, y => if y = 0 then none else some (.ofInt 32 (x.toInt.tdiv y.toInt))
  | rem, x, y => if y = 0 then none else some (.ofInt 32 (x.toInt.tmod y.toInt))
  | _, _, _ => none

def decide? : InfixOp → Word → Word → Option Bool
  | lt, x, y => some (x.toInt < y.toInt)
  | le, x, y => some (x.toInt ≤ y.toInt)
  | gt, x, y => some (x.toInt > y.toInt)
  | ge, x, y => some (x.toInt ≥ y.toInt)
  | eq, x, y => some (x.toInt = y.toInt)
  | _, _, _ => none

def isArithmetic : InfixOp → Bool
  | add | sub | mul | div | rem => true
  | _ => false

def isComparison : InfixOp → Bool
  | lt | le | gt | ge | eq => true
  | _ => false

def ofAssignment? : String → Option InfixOp
  | "+=" => some add
  | "-=" => some sub
  | "*=" => some mul
  | "/=" => some div
  | _ => none

end InfixOp

namespace Code.Outcome

variable {α β : Type}

protected def bind (x : Outcome α) (f : α → Outcome β) : Outcome β :=
  match x with
  | .done a => f a
  | .stuck => .stuck
  | .outOfFuel => .outOfFuel

instance : Monad Outcome where
  pure := .done
  bind := Outcome.bind

def ofOption : Option α → Outcome α
  | some a => .done a
  | none => .stuck

end Code.Outcome

abbrev Store := String → Word

mutual

/-- The value of an expression, where `call` says what calls give. -/
def Expr.eval (call : String → List Word → Outcome Word) (σ : Store) : Expr → Outcome Word
  | .int n => .done (.ofInt 32 n)
  | .ident x => .done (σ x)
  | .infixed l op r => do
    let x ← l.eval call σ
    let y ← r.eval call σ
    .ofOption (op.compute? x y)
  | .prefixed .neg x => do
    let x ← x.eval call σ
    return .ofInt 32 (-x.toInt)
  | .call (.ident f) args => do call f (← evalAll call σ args)
  | _ => .stuck

def evalAll (call : String → List Word → Outcome Word) (σ : Store) : List Expr → Outcome (List Word)
  | [] => return []
  | x :: xs => do
    let w ← x.eval call σ
    return w :: (← evalAll call σ xs)

end

def Expr.test (call : String → List Word → Outcome Word) (σ : Store) : Expr → Outcome Bool
  | .infixed l op r => do
    let x ← l.eval call σ
    let y ← r.eval call σ
    .ofOption (op.decide? x y)
  | _ => .stuck

/-- How control leaves statements: to the ones behind them, or out of the call. -/
inductive Flow
  | goOn (σ : Store)
  | returned (w : Word)

/-- At most `n` rounds of a loop. -/
def iterate (test : Store → Outcome Bool) (body : Store → Outcome Flow) : Nat → Store → Outcome Flow
  | 0, _ => .outOfFuel
  | n + 1, σ => do
    if ← test σ then
      match ← body σ with
      | .goOn σ => iterate test body n σ
      | .returned w => return .returned w
    else return .goOn σ

def StepOp.change : StepOp → Int
  | increment => 1
  | decrement => -1

mutual

def Expr.exec (call : String → List Word → Outcome Word) (rounds : Nat) : Expr → Store →
    Outcome Flow
  | .stepped (.ident x) op, σ =>
    return .goOn (Function.update σ x (.ofInt 32 ((σ x).toInt + op.change)))
  | .call f args, σ => do
    let _ ← (Expr.call f args).eval call σ
    return .goOn σ
  | .ifThen c body, σ => do
    if ← c.test call σ then execAll call rounds body σ else return .goOn σ
  | .ifElse c body alternative, σ => do
    if ← c.test call σ then execAll call rounds body σ else execAll call rounds alternative σ
  | _, _ => .stuck

def Stmt.exec (call : String → List Word → Outcome Word) (rounds : Nat) : Stmt → Store →
    Outcome Flow
  | .expr x, σ => x.exec call rounds σ
  | .letVar x v _, σ => do
    let w ← v.eval call σ
    return .goOn (Function.update σ x w)
  | .assign (.text x) (.text op) v, σ => do
    let w ← v.eval call σ
    if op = "=" then return .goOn (Function.update σ x w)
    else
      let w ← .ofOption ((InfixOp.ofAssignment? op).bind fun op => op.compute? (σ x) w)
      return .goOn (Function.update σ x w)
  | .whileLoop c body, σ =>
    iterate (fun σ => c.test call σ) (fun σ => execAll call rounds body σ) rounds σ
  | .ret v, σ => do
    let w ← v.eval call σ
    return .returned w
  | _, _ => .stuck

def execAll (call : String → List Word → Outcome Word) (rounds : Nat) :
    List Stmt → Store → Outcome Flow
  | [], σ => return .goOn σ
  | s :: ss, σ => do
    match ← s.exec call rounds σ with
    | .goOn σ => execAll call rounds ss σ
    | .returned w => return .returned w

end

def Param.label (p : Param) : String :=
  match p.name with
  | .text s => s
  | _ => ""

def function? (p : Program) (f : String) : Option (List Param × List Stmt) :=
  p.findSome? fun
    | .fn name (some params) _ body => if name = f then some (params, body) else none
    | _ => none

def Store.ofArgs : List String → List Word → Store
  | x :: xs, w :: ws => Function.update (ofArgs xs ws) x w
  | _, _ => fun _ => 0

/-- Calls of the functions of a program, at most `n` of them inside of each other and with less than
`n` rounds of every loop. -/
def callIn (p : Program) : Nat → String → List Word → Outcome Word
  | 0, _, _ => .outOfFuel
  | n + 1, f, args =>
    match function? p f with
    | none => .stuck
    | some (params, body) => do
      match ← execAll (callIn p n) n body (.ofArgs (params.map Param.label) args) with
      | .returned w => return w
      | .goOn _ => .stuck

abbrev Signatures := List (String × Nat)

section Class

variable (e : Edition) (fs : Signatures)

mutual

def Expr.isInteger (vars : List String) : Expr → Bool
  | .int _ => true
  | .ident x => vars.contains x
  | .infixed l op r => op.isArithmetic && l.isInteger vars && r.isInteger vars
  | .prefixed .neg x => e.has .compoundAssignment && x.isInteger vars
  | .call (.ident f) args => fs.contains (f, args.length) && areIntegers vars args
  | _ => false

def areIntegers (vars : List String) : List Expr → Bool
  | [] => true
  | x :: xs => x.isInteger vars && areIntegers vars xs

end

def Expr.isCondition (vars : List String) : Expr → Bool
  | .infixed l op r => op.isComparison && l.isInteger e fs vars && r.isInteger e fs vars
  | _ => false

def Stmt.isReturn : Stmt → Bool
  | .ret _ => true
  | _ => false

def Edition.assigns (e : Edition) (op : String) : Bool :=
  op = "=" || e.has .compoundAssignment && (InfixOp.ofAssignment? op).isSome

mutual

def Expr.isIntegerStmt (vars : List String) : Expr → Bool
  | .stepped (.ident x) _ => e.has .stepping && vars.contains x
  | .call f args => (Expr.call f args).isInteger e fs vars
  | .ifThen c body => c.isCondition e fs vars && areIntegerStmts vars body
  | .ifElse c body alternative =>
    c.isCondition e fs vars && areIntegerStmts vars body && areIntegerStmts vars alternative
  | _ => false

/-- Statements without declarations. A loop goes round: its body does not end in a return. -/
def Stmt.isIntegerStmt (vars : List String) : Stmt → Bool
  | .expr x => x.isIntegerStmt vars
  | .assign (.text x) (.text op) v => vars.contains x && e.assigns op && v.isInteger e fs vars
  | .whileLoop c body =>
    c.isCondition e fs vars && areIntegerStmts vars body && !body.getLast?.any Stmt.isReturn
  | .ret v => v.isInteger e fs vars
  | _ => false

def areIntegerStmts (vars : List String) : List Stmt → Bool
  | [] => true
  | s :: ss => s.isIntegerStmt vars && areIntegerStmts vars ss && (ss.isEmpty || !s.isReturn)

end

def builtinNames : List String := ["printf", "true", "false"]

def isVariableName (fs : Signatures) (x : String) : Bool :=
  !(fs.map Prod.fst).contains x && !builtinNames.contains x

/-- The body of a function: declarations stand only here. -/
def isIntegerBody : List String → List Stmt → Bool
  | vars, .letVar x v type :: ss =>
    type = "int" && v.isInteger e fs vars && !vars.contains x && isVariableName fs x &&
      isIntegerBody (x :: vars) ss
  | vars, [s] => s.isReturn && s.isIntegerStmt e fs vars
  | vars, s :: ss => s.isIntegerStmt e fs vars && !s.isReturn && isIntegerBody vars ss
  | _, [] => false

end Class

def Param.isInteger (p : Param) : Bool := p.name = .text p.label && p.type = .text "int"

def Stmt.signature : Stmt → String × Nat
  | .fn name (some params) _ _ => (name, params.length)
  | _ => ("", 0)

/-- A function behind the given ones. It may call them and itself. -/
def Stmt.isIntegerFunction (e : Edition) (fs : Signatures) : Stmt → Bool
  | .fn name (some params) type body =>
    isVariableName fs name && type = .text "int" && params.all Param.isInteger &&
      decide (params.map Param.label).Nodup &&
      (params.map Param.label).all (isVariableName ((name, params.length) :: fs)) &&
      isIntegerBody e ((name, params.length) :: fs) (params.map Param.label) body
  | _ => false

def areIntegerFunctions (e : Edition) : Signatures → Program → Bool
  | _, [] => true
  | fs, f :: p => f.isIntegerFunction e fs && areIntegerFunctions e (f.signature :: fs) p

def signatures (p : Program) : Signatures := p.map Stmt.signature

end LimeLang
