import LimeLang.Compile.Session

/-! Single instructions with the checks that come before them. -/

namespace LimeLang.Gen

open Code (Operand Ty BinaryOp Relation Op)

def need : Option Operand → Gen Operand
  | some x => pure x
  | none => throw .missingOperand

def binary (op : BinaryOp) (left right : Option Operand) : Gen Operand := do
  let l ← need left
  let r ← need right
  if l.ty = r.ty then emit (.binary op l r) else throw (.operandTypes l.ty r.ty)

/-- Only the left side of a comparison has to be there. -/
def compareInts (rel : Relation) (left right : Option Operand) : Gen Operand := do
  emit (.icmp rel (← need left) right)

def compareFloats (rel : Relation) (left right : Option Operand) : Gen Operand := do
  emit (.fcmp rel (← need left) right)

/-- Flips all bits. -/
def complement (value : Option Operand) : Gen Operand := do
  let v ← need value
  binary .xor v (some (.int v.ty (-1)))

/-- A cast to the type that a value already has is the value itself. -/
def toFloat (value : Option Operand) : Gen Operand := do
  let v ← need value
  if v.ty = .float then return v else emit (.sitofp v .float)

def bitcast (v : Operand) (target : Ty) : Gen Operand :=
  if v.ty = target then return v else emit (.bitcast v target)

def alloca : Option Ty → Gen Operand
  | none => throw .untypedSlot
  | some .void => throw .voidSlot
  | some t => emit (.alloca t)

/-- A value as messages show it: a constant with its type, an instruction by its line. -/
def describe (x : Operand) : Gen String := do
  match x with
  | .result name _ =>
    let s ← get
    let i := s.place.bind fun p => (s.assembly.routine? p.routine).bind (·.instr? name)
    match i.map Code.Instr.text with
    | some (.ok text) => return text
    | _ => return x.typedText
  | _ => return x.typedText

def load (pointer : Operand) : Gen Operand := do
  if pointer.ty.isPointer then emit (.load pointer)
  else throw (.loadFrom pointer.ty (← describe pointer))

def store (value : Option Operand) (pointer : Operand) : Gen Unit := do
  match pointer.ty with
  | .pointer target =>
    let v ← need value
    if target = v.ty then
      let _ ← emit (.store v pointer)
    else throw (.storeType v.ty pointer.ty)
  | t => throw (.storeTo t (← describe pointer))

/-- Checks the arguments for the parameters from number `i` on. -/
def checkArguments : Nat → List Ty → List (Option Operand) → Gen Unit
  | _, [], _ => pure ()
  | _, _ :: _, [] => throw .tooFewArguments
  | i, t :: ts, a :: as => do
    let x ← need a
    if x.ty = t then checkArguments (i + 1) ts as else throw (.argumentType i t x.ty)

/-- More arguments than parameters are let through. -/
def call (callee : Operand) (args : List (Option Operand)) : Gen Operand := do
  match Code.calleeType? callee.ty with
  | none => throw (.notFunction callee.ty)
  | some (_, params, _) =>
    checkArguments 1 params args
    emit (.call callee args)

def ret (value : Option Operand) : Gen Unit := do
  let _ ← emit (.ret value)

def branch (target : Place) : Gen Unit := do
  let _ ← emit (.br target.block)

def branchOn (condition : Option Operand) (onTrue onFalse : Place) : Gen Unit := do
  let _ ← emit (.condBr condition onTrue.block onFalse.block)

end LimeLang.Gen
