import LimeLang.Compile.Emit

/-! Values of expressions: the instructions that compute one, and the operand and type that
stand for it. Both may be absent where an operation has no meaning. -/

namespace LimeLang

open Code (Operand Ty BinaryOp Relation)

structure Typed where
  value : Option Operand
  ty : Option Ty

def Typed.of (x : Operand) (t : Ty) : Typed := ⟨some x, some t⟩

def Typed.isInt (x : Typed) : Bool := x.ty.any Ty.isInt

def Typed.isFloat (x : Typed) : Bool := x.ty = some .float

namespace InfixOp

def relation? : InfixOp → Option Relation
  | lt => some .lt
  | le => some .le
  | gt => some .gt
  | ge => some .ge
  | eq => some .eq
  | _ => none

def intOp? (e : Edition) : InfixOp → Option BinaryOp
  | add => some .add
  | sub => some .sub
  | mul => some .mul
  | div => some .sdiv
  | rem => if e.has .remainders then some .srem else none
  | _ => none

def floatOp? : InfixOp → Option BinaryOp
  | add => some .fadd
  | sub => some .fsub
  | mul => some .fmul
  | div => some .fdiv
  | rem => some .frem
  | _ => none

end InfixOp

/-- The name that an expression in the place of a callee or a variable gives. -/
def Expr.literal? : Expr → Option Literal
  | .int n => some (.int n)
  | .float x => some (.float x)
  | .ident s => some (.text s)
  | .bool b => some (.int b.toNat)
  | .str s => some (.text s)
  | _ => none

/-- That name as messages show it. -/
def Expr.shown : Expr → String
  | .bool b => if b then "True" else "False"
  | x => (x.literal?.map Literal.display).getD ""

namespace Gen

def named (x : Expr) : Gen Literal :=
  match x.literal? with
  | some l => pure l
  | none => throw (.notNamed x.kind)

/-- The binding of a name that has to be bound. -/
def binding (name : Literal) : Gen Binding := do
  match ← lookup name with
  | some b => return b
  | none => throw .nothingToUnpack

def infixed (e : Edition) (op : InfixOp) (l r : Typed) : Gen Typed := do
  if r.isInt && l.isInt then
    match op.relation? with
    | some rel => return .of (← compareInts rel l.value r.value) .i1
    | none =>
      match op.intOp? e with
      | some b => return .of (← binary b l.value r.value) .i32
      | none => return ⟨none, some .i32⟩
  else if r.isFloat && l.isFloat && e.has .remainders then
    match op.relation? with
    | some rel => return .of (← compareFloats rel l.value r.value) .i1
    | none =>
      match op.floatOp? with
      | some b => return .of (← binary b l.value r.value) .float
      | none => return ⟨none, some .float⟩
  else return ⟨none, none⟩

def minusOne : Number.Double := Number.Binary.ofInt (-1)

/-- Negation is a multiplication. The opposite of a floating point number is always false. -/
def prefixed (op : PrefixOp) (x : Typed) : Gen Typed := do
  if x.isFloat then
    match op with
    | .neg => return .of (← binary .fmul x.value (some (.float minusOne))) .float
    | .not => return .of (.int .i1 0) .float
  else if x.isInt then
    match op with
    | .neg => return .of (← binary .mul x.value (some (.int .i32 (-1)))) .i32
    | .not => return .of (← complement x.value) .i32
  else return ⟨none, none⟩

/-- An escaped newline stands for a newline and a null character. -/
def unescape : List Char → List Char
  | [] => []
  | '\\' :: 'n' :: cs => '\n' :: '\x00' :: unescape cs
  | c :: cs => c :: unescape cs

def stringName (n : Nat) : String := "__str_" ++ toString n

/-- A string becomes a constant of its own, closed by a null character. The size of its type
counts characters. -/
def string (s : String) : Gen Typed := do
  let chars := unescape s.toList ++ ['\x00']
  let item : Code.Constant := {
    name := stringName (← countUp)
    isInternal := true
    ty := .array chars.length .i8
    initial := .bytes (chars.flatMap String.utf8EncodeChar) }
  addItem (.constant item)
  return .of (.global item.name (.pointer item.ty)) (.pointer item.ty)

def printfName : Literal := .text "printf"

/-- The pointer that a value was loaded from, if it is the result of a load. -/
def loadedFrom? (x : Operand) : Gen (Option Operand) := do
  match x with
  | .result name _ =>
    let s ← get
    let i := s.place.bind fun p => (s.assembly.routine? p.routine).bind (·.instr? name)
    match i with
    | some ⟨_, .load p⟩ => return some p
    | _ => return none
  | _ => return none

/-- The format of a `printf`: a loaded string is loaded again; otherwise it is the string
numbered by the counter. -/
def format (first : Operand) : Gen Operand := do
  match ← loadedFrom? first with
  | some p => bitcast (← load p) .bytes
  | none =>
    let name := stringName (← get).counter
    match (← get).assembly.item? name with
    | some i => bitcast i.operand .bytes
    | none => throw (.unknownGlobal (stringName (← get).counter))

def printf (args : List Typed) : Gen Typed := do
  match args with
  | [] => throw .noFormat
  | first :: rest =>
    let b ← binding printfName
    let slot ← alloca first.ty
    store first.value slot
    let x ← format (← need first.value)
    return .of (← call b.value (some x :: rest.map Typed.value)) .i32

/-- A call, with its arguments computed. -/
def applied (e : Edition) (name : Literal) (args : List Typed) : Gen Typed := do
  if e.has .strings && name = printfName then printf args
  else
    let b ← binding name
    return .of (← call b.value (args.map Typed.value)) b.ty

mutual

def value (e : Edition) : Expr → Gen Typed
  | .missing => throw .missingNode
  | .int n => return .of (.int .i32 n) .i32
  | .float x => return .of (.float x) .float
  | .ident s => do
    let b ← binding (.text s)
    return .of (← load b.value) b.ty
  | .bool b => do
    if e.has .calls then print (if b then "True" else "False")
    return .of (.int .i1 b.toNat) .i1
  | .str s => string s
  | .infixed l op r => do
    let x ← value e l
    let y ← value e r
    infixed e op x y
  | .prefixed op r => do prefixed op (← value e r)
  | .call f args => do
    let name ← named f
    applied e name (← values e args)
  | .openCall f => do
    let _ ← named f
    throw .missingArguments
  | .stepped .. | .ifThen .. | .ifElse .. => throw .nothingToUnpack

def values (e : Edition) : List Expr → Gen (List Typed)
  | [] => return []
  | x :: xs => do
    let v ← value e x
    return v :: (← values e xs)

end

end Gen

end LimeLang
