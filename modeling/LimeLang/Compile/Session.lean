import LimeLang.Code.Text
import LimeLang.Files
import LimeLang.Scope
import LimeLang.Token.Scan
import LimeLang.Tree.Parse

/-! The state of code generation. A session lives through failures: what was done before one
stays done, so that later sources go on from there. -/

namespace LimeLang

open Code (Operand Ty)

/-- Why code generation stops. -/
inductive Failure
  | missingNode
  | missingOperand
  | missingParameters
  | missingArguments
  | nothingToUnpack
  | notNamed (kind : String)
  | operandTypes (left right : Ty)
  | loadFrom (ty : Ty) (text : String)
  | storeTo (ty : Ty) (text : String)
  | storeType (value pointer : Ty)
  | notFunction (ty : Ty)
  | tooFewArguments
  | argumentType (index : Nat) (expected given : Ty)
  | untypedSlot
  | voidSlot
  | noBlock
  | noBlockParent
  | noBlockName
  | terminated
  | blockInUse
  | duplicateName (name : String)
  | unknownType (type : Literal)
  | unknownGlobal (name : String)
  | noLoop
  | noFormat
  | file (error : FileError)
  | numberTooLong (error : NumberTooLong)
  | brokenPallet
  | importsTooDeep
deriving DecidableEq, Repr

def Failure.message : Failure → String
  | missingNode | missingOperand => Code.Absent.type.message
  | missingParameters => "'NoneType' object is not iterable"
  | missingArguments => "object of type 'NoneType' has no len()"
  | nothingToUnpack => "cannot unpack non-iterable NoneType object"
  | notNamed kind => "'" ++ kind ++ "' object has no attribute 'value'"
  | operandTypes l r => "Operands must be the same type, got (" ++ l.text ++ ", " ++ r.text ++ ")"
  | loadFrom t text => "cannot load from value of type " ++ t.text ++ " ('" ++ text ++
      "'): not a pointer"
  | storeTo t text => "cannot store to value of type " ++ t.text ++ " ('" ++ text ++
      "'): not a pointer"
  | storeType v p => "cannot store " ++ v.text ++ " to " ++ p.text ++ ": mismatching types"
  | notFunction t => "Not a function: " ++ t.text
  | tooFewArguments | noLoop | noFormat => "list index out of range"
  | argumentType i expected given =>
    "Type of #" ++ toString i ++ " arg mismatch: " ++ expected.text ++ " != " ++ given.text
  | untypedSlot => "'NoneType' object has no attribute 'as_pointer'"
  | voidSlot | noBlock | terminated | blockInUse => ""
  | noBlockParent => "'NoneType' object has no attribute 'parent'"
  | noBlockName => "'NoneType' object has no attribute 'name'"
  | duplicateName name => name
  | unknownType type => type.quoted
  | unknownGlobal name => Text.quoted name
  | file error => error.message
  | numberTooLong error => error.message
  | brokenPallet => "1"
  | importsTooDeep => "maximum recursion depth exceeded"

/-- Mistakes in a program that do not stop code generation. -/
inductive CompileError
  | assignUndeclared (name : String)
  | stepUndeclared (name : String)
deriving DecidableEq, Repr

def CompileError.message : CompileError → String
  | assignUndeclared name =>
    "COMPILE ERROR: Identifier " ++ name ++ " has not been declared before it was re-assigned."
  | stepUndeclared name =>
    "COMPILE ERROR: Identifier " ++ name ++
      " has not been declared before it was used in a PostfixExpression."

/-- What a name stands for: a value, mostly a pointer, and the type recorded with it. -/
structure Binding where
  value : Operand
  ty : Ty
deriving DecidableEq, Repr

/-- A block of a routine. -/
structure Place where
  routine : String
  block : String
deriving DecidableEq, Repr

/-- The blocks that `continue` and `break` lead to, those of the innermost loop first. -/
structure Loops where
  continues : List Place
  breakpoints : List Place
deriving DecidableEq, Repr

namespace Loops

def enter (l : Loops) (entry exit : Place) : Loops :=
  ⟨entry :: l.continues, exit :: l.breakpoints⟩

def leave (l : Loops) : Loops := ⟨l.continues.tail, l.breakpoints.tail⟩

end Loops

structure Session where
  assembly : Code.Assembly
  scopes : Chain Binding
  /-- The builder that writes instructions. Builders are numbered as they are made. -/
  builder : Nat
  /-- How many builders have been made. -/
  builders : Nat
  /-- Where the next instruction goes. -/
  place : Option Place
  counter : Nat
  errors : List CompileError
  loops : Loops
  /-- The imported files, in the order in which their imports were finished. -/
  pallets : List String
  /-- The import paths that were opened, as they are written and in order. -/
  opened : List String
  output : List String

/-- Code generation keeps the session when it fails. -/
abbrev Gen := ExceptT Failure (StateM Session)

namespace Gen

def run {α : Type} (g : Gen α) (s : Session) : Except Failure α × Session := ExceptT.run g s

def print (line : String) : Gen Unit := modify fun s => { s with output := s.output ++ [line] }

def record (e : CompileError) : Gen Unit := modify fun s => { s with errors := s.errors ++ [e] }

/-- Counts up and gives the new number. -/
def countUp : Gen Nat := do
  modify fun s => { s with counter := s.counter + 1 }
  return (← get).counter

def lookup (name : Literal) : Gen (Option Binding) := do return (← get).scopes.find? name

def define (name : Literal) (b : Binding) : Gen Unit :=
  modify fun s => { s with scopes := s.scopes.define name b }

def enterScope : Gen Unit := modify fun s => { s with scopes := s.scopes.enter }

def leaveScopes (depth : Nat) : Gen Unit :=
  modify fun s => { s with scopes := s.scopes.leaveTo depth }

def moveTo (p : Option Place) : Gen Unit := modify fun s => { s with place := p }

/-- Goes to the start of a block. Instructions are only ever put behind others, so the block has to
be empty. -/
def moveToStart (p : Place) : Gen Unit := do
  if (((← get).assembly.routine? p.routine).bind (·.block? p.block)).any (·.instrs.isEmpty) then
    moveTo (some p)
  else throw .blockInUse

/-- Makes a builder that stands in the given block, and goes on with it. -/
def startBuilder (p : Place) : Gen Unit :=
  modify fun s => { s with builder := s.builders, builders := s.builders + 1, place := some p }

/-- Goes back to an earlier builder and the place where it stood. -/
def resumeBuilder (builder : Nat) (p : Option Place) : Gen Unit :=
  modify fun s => { s with builder, place := p }

/-- Adds a global under a name that must be new. -/
def addItem (i : Code.Item) : Gen Unit := do
  let s ← get
  match s.assembly.item? i.name with
  | some _ => throw (.duplicateName i.name)
  | none => set { s with assembly := s.assembly.add i }

/-- Appends a block to a routine. -/
def addBlockTo (routine name : String) : Gen Place := do
  let s ← get
  match s.assembly.routine? routine with
  | none => throw .noBlockParent
  | some r =>
    let (block, r') := r.addBlock name
    set { s with assembly := s.assembly.modifyRoutine routine fun _ => r' }
    return ⟨routine, block⟩

/-- Appends a block to the current routine. -/
def addBlock (name : String) : Gen Place := do
  match (← get).place with
  | none => throw .noBlockParent
  | some p => addBlockTo p.routine name

/-- Whether the block at a place has its terminator. -/
def isTerminated (p : Place) : Gen Bool := do
  match ((← get).assembly.routine? p.routine).bind (·.block? p.block) with
  | none => return false
  | some b => return b.isTerminated

/-- Appends an instruction to the current block. The name is taken before a second terminator
is refused. -/
def emit (op : Code.Op) : Gen Operand := do
  let s ← get
  match s.place with
  | none => throw .noBlock
  | some p =>
    match s.assembly.routine? p.routine with
    | none => throw .noBlock
    | some r =>
      let (name, r') := r.takeName
      set { s with assembly := s.assembly.modifyRoutine p.routine fun _ => r' }
      if op.isTerminator && (← isTerminated p) then throw .terminated
      else
        modify fun s => { s with
          assembly := s.assembly.modifyRoutine p.routine (·.addInstr p.block ⟨name, op⟩) }
        return .result name op.ty

end Gen

end LimeLang
