import LimeLang.Compile.Value

/-! Code for statements. What an import does is left open here. -/

namespace LimeLang

open Code (Operand Ty)

/-- The types that an edition has names for. -/
def Edition.type? (e : Edition) : Literal → Option Ty
  | .text "int" => some .i32
  | .text "float" => some .float
  | .text "bool" => if e.has .conditions then some .i1 else none
  | .text "void" => if e.has .strings then some .void else none
  | .text "str" => if e.has .strings then some .bytes else none
  | _ => none

/-- A block's name with a suffix; a long name is cut. -/
def suffixed (name suffix : String) : String :=
  if 50 < name.length then String.ofList (name.toList.take 25) ++ ".." ++ suffix else name ++ suffix

namespace Gen

def typeNamed (e : Edition) (l : Literal) : Gen Ty :=
  match e.type? l with
  | some t => pure t
  | none => throw (.unknownType l)

def typesNamed (e : Edition) : List Literal → Gen (List Ty)
  | [] => return []
  | l :: ls => do
    let t ← typeNamed e l
    return t :: (← typesNamed e ls)

/-- A variable that is already there is only stored to. In the edition that brought variables
a name stands for the value and not for its slot. -/
def letVar (e : Edition) (name : String) (x : Typed) : Gen Unit := do
  match ← lookup (.text name) with
  | some b => store x.value b.value
  | none =>
    let slot ← alloca x.ty
    store x.value slot
    let bound := if e.has .functions then slot else x.value.getD slot
    define (.text name) ⟨bound, x.ty.getD .void⟩

def assignOp? : Literal → Option (Code.BinaryOp × Code.BinaryOp)
  | .text "+=" => some (.add, .fadd)
  | .text "-=" => some (.sub, .fsub)
  | .text "*=" => some (.mul, .fmul)
  | .text "/=" => some (.sdiv, .fdiv)
  | _ => none

/-- Assignment with an operator. Where an integer meets a floating point number the integer is
converted. -/
def updateVar (op : Literal) (b : Binding) (x : Typed) : Gen Unit := do
  let old ← load b.value
  let old ← if old.ty.isInt && x.isFloat then toFloat (some old) else pure old
  let new ← if old.ty = .float && x.isInt then do pure (some (← toFloat x.value)) else pure x.value
  if op = plainAssign then store new b.value
  else
    match assignOp? op with
    | some (onInts, onFloats) =>
      let v ← binary (if old.ty.isInt && x.isInt then onInts else onFloats) (some old) new
      store (some v) b.value
    | none =>
      print "Unsupported Assignment Operator"
      store none b.value

def one : Number.Double := Number.Binary.ofInt 1

def step (op : StepOp) (x : Expr) : Gen Unit := do
  let name ← named x
  match ← lookup name with
  | none => record (.stepUndeclared x.shown)
  | some b =>
    let old ← load b.value
    if old.ty.isInt then
      let v ← binary (if op = .increment then .add else .sub) (some old) (some (.int .i32 1))
      store (some v) b.value
    else if old.ty = .float then
      let v ← binary (if op = .increment then .fadd else .fsub) (some old) (some (.float one))
      store (some v) b.value
    else store none b.value

/-- The current place, for a branch. -/
def branchPlace : Gen Place := do
  match (← get).place with
  | some p => return p
  | none => throw .noBlockName

/-- Leads the current block to another one, unless it ends already. -/
def closeWith (target : Place) : Gen Unit := do
  match (← get).place with
  | none => pure ()
  | some p => if !(← isTerminated p) then branch target

/-- Slots for parameters, filled with the arguments. -/
def slots : List (String × Ty) → Gen (List Operand)
  | [] => return []
  | (name, t) :: ps => do
    let slot ← alloca (some t)
    store (some (.result name t)) slot
    return slot :: (← slots ps)

def defineParams : List (Literal × Operand × Ty) → Gen Unit
  | [] => pure ()
  | (name, slot, t) :: ps => do
    define name ⟨slot, t⟩
    defineParams ps

/-- Everything of a routine before its body: its types, its entry block, its parameters and the
scope in which they and the routine's own name are defined. -/
def openRoutine (e : Edition) (name : String) (params : List Param) (returnType : Literal) :
    Gen Binding := do
  let types ← typesNamed e (params.map Param.type)
  let result ← typeNamed e returnType
  let r := Code.Routine.declare name result types false
  addItem (.routine r)
  let entry ← addBlockTo name (name ++ "_entry")
  startBuilder entry
  let ptrs ← slots r.params
  enterScope
  defineParams ((params.map Param.name).zip (ptrs.zip types))
  let b : Binding := ⟨r.operand, result⟩
  define (.text name) b
  return b

mutual

/-- An expression as a statement. Its value is not used; most literals leave no code at all. -/
def effect (e : Edition) (importer : String → Gen Unit) : Expr → Gen Unit
  | .missing => throw .missingNode
  | .int _ | .float _ | .ident _ | .bool _ | .str _ | .prefixed .. => pure ()
  | .infixed l op r => do
    let _ ← value e (.infixed l op r)
  | .call f args => do
    let _ ← value e (.call f args)
  | .openCall f => do
    let _ ← value e (.openCall f)
  | .stepped x op => step op x
  | .ifThen c body => do
    let test ← value e c
    let p ← branchPlace
    let onTrue ← addBlock (suffixed p.block ".if")
    let after ← addBlock (suffixed p.block ".endif")
    branchOn test.value onTrue after
    moveTo (some onTrue)
    statements e importer body
    closeWith after
    moveTo (some after)
  | .ifElse c body alternative => do
    let test ← value e c
    let p ← branchPlace
    let onTrue ← addBlock (suffixed p.block ".if")
    let onFalse ← addBlock (suffixed p.block ".else")
    let after ← addBlock (suffixed p.block ".endif")
    branchOn test.value onTrue onFalse
    moveTo (some onTrue)
    statements e importer body
    closeWith after
    moveTo (some onFalse)
    statements e importer alternative
    closeWith after
    moveTo (some after)

def statement (e : Edition) (importer : String → Gen Unit) : Stmt → Gen Unit
  | .missing => throw .missingNode
  | .expr x => effect e importer x
  | .bare x => effect e importer x
  | .letVar name x _ => do letVar e name (← value e x)
  | .ret x => do ret (← value e x).value
  | .fn name params returnType body => do
    match params with
    | none => throw .missingParameters
    | some params =>
      let builder := (← get).builder
      let place := (← get).place
      let depth := (← get).scopes.length
      let b ← openRoutine e name params returnType
      statements e importer body
      leaveScopes depth
      define (.text name) b
      resumeBuilder builder place
  | .assign target op x => do
    if e.has .compoundAssignment then
      match ← lookup target with
      | none => record (.assignUndeclared target.display)
      | some b => updateVar op b (← value e x)
    else
      let v ← value e x
      match ← lookup target with
      | none => record (.assignUndeclared target.display)
      | some b => store v.value b.value
  | .whileLoop c body => do
    let test ← value e c
    let n ← countUp
    let entry ← addBlock ("while_loop_entry_" ++ toString n)
    let exit ← addBlock ("while_loop_otherwise_" ++ toString n)
    branchOn test.value entry exit
    moveToStart entry
    statements e importer body
    let test ← value e c
    branchOn test.value entry exit
    moveToStart exit
  | .breakLoop => do
    match (← get).loops.breakpoints with
    | [] => throw .noLoop
    | q :: _ => branch q
  | .continueLoop => do
    match (← get).loops.continues with
    | [] => throw .noLoop
    | q :: _ => branch q
  | .forLoop init c next body => do
    enterScope
    statement e importer init
    let n ← countUp
    let entry ← addBlock ("for_loop_entry_" ++ toString n)
    let exit ← addBlock ("for_loop_otherwise_" ++ toString n)
    modify fun s => { s with loops := s.loops.enter entry exit }
    branch entry
    moveToStart entry
    statements e importer body
    statement e importer next
    let test ← value e c
    branchOn test.value entry exit
    moveToStart exit
    modify fun s => { s with loops := s.loops.leave }
  | .importPallet path => importer path

def statements (e : Edition) (importer : String → Gen Unit) : List Stmt → Gen Unit
  | [] => pure ()
  | s :: ss => do
    statement e importer s
    statements e importer ss

end

/-- A whole program. Before functions could be declared, the statements of a program were the
body of its only routine. -/
def program (e : Edition) (importer : String → Gen Unit) (p : Program) : Gen Unit := do
  if e.has .functions then statements e importer p
  else
    addItem (.routine (.declare "main" .i32 [] false))
    let entry ← addBlockTo "main" "main_entry"
    startBuilder entry
    statements e importer p
    ret (some (.int .i32 69))

end Gen

end LimeLang
