import LimeLang.Code.Operand

/-! Instructions, blocks, routines and assemblies. An operand that the program failed to
produce is kept as absent where instructions let it pass. -/

namespace LimeLang.Code

inductive BinaryOp
  | add | sub | mul | sdiv | srem | xor
  | fadd | fsub | fmul | fdiv | frem
deriving DecidableEq, Repr

def BinaryOp.text : BinaryOp → String
  | add => "add"
  | sub => "sub"
  | mul => "mul"
  | sdiv => "sdiv"
  | srem => "srem"
  | xor => "xor"
  | fadd => "fadd"
  | fsub => "fsub"
  | fmul => "fmul"
  | fdiv => "fdiv"
  | frem => "frem"

/-- Whether an operation is on floating point numbers. -/
def BinaryOp.isFloat : BinaryOp → Bool
  | fadd | fsub | fmul | fdiv | frem => true
  | _ => false

inductive Relation
  | eq | lt | le | gt | ge
deriving DecidableEq, Repr

/-- Signed comparison of integers. -/
def Relation.signedText : Relation → String
  | eq => "eq"
  | lt => "slt"
  | le => "sle"
  | gt => "sgt"
  | ge => "sge"

/-- Comparison of floating point numbers that is false for unordered ones. -/
def Relation.orderedText : Relation → String
  | eq => "oeq"
  | lt => "olt"
  | le => "ole"
  | gt => "ogt"
  | ge => "oge"

inductive Op
  | binary (op : BinaryOp) (left right : Operand)
  | icmp (rel : Relation) (left : Operand) (right : Option Operand)
  | fcmp (rel : Relation) (left : Operand) (right : Option Operand)
  | sitofp (value : Operand) (target : Ty)
  | bitcast (value : Operand) (target : Ty)
  | alloca (ty : Ty)
  | load (pointer : Operand)
  | store (value pointer : Operand)
  | call (callee : Operand) (args : List (Option Operand))
  | br (target : String)
  | condBr (condition : Option Operand) (onTrue onFalse : String)
  | ret (value : Option Operand)
deriving DecidableEq, Repr

/-- The type of what a callee is, if it can be called. -/
def calleeType? : Ty → Option (Ty × List Ty × Bool)
  | .pointer (.function r ps v) => some (r, ps, v)
  | .function r ps v => some (r, ps, v)
  | _ => none

namespace Op

/-- The type of the result. -/
def ty : Op → Ty
  | binary _ l _ => l.ty
  | icmp .. => .i1
  | fcmp .. => .i1
  | sitofp _ t => t
  | bitcast _ t => t
  | alloca t => .pointer t
  | load p => match p.ty with
    | .pointer t => t
    | _ => .void
  | call f _ => match calleeType? f.ty with
    | some (r, _) => r
    | none => .void
  | store .. | br _ | condBr .. | ret _ => .void

def isTerminator : Op → Bool
  | br _ | condBr .. | ret _ => true
  | _ => false

/-- The blocks that control may go to. -/
def targets : Op → List String
  | br t => [t]
  | condBr _ t f => [t, f]
  | _ => []

/-- The operands, absent ones left out. -/
def operands : Op → List Operand
  | binary _ l r => [l, r]
  | icmp _ l r | fcmp _ l r => l :: r.toList
  | sitofp v _ | bitcast v _ => [v]
  | alloca _ | br _ => []
  | load p => [p]
  | store v p => [v, p]
  | call f args => f :: args.filterMap id
  | condBr c _ _ => c.toList
  | ret v => v.toList

end Op

/-- An instruction with the name of its result; a name is taken even if there is no result. -/
structure Instr where
  name : String
  op : Op
deriving DecidableEq, Repr

structure Block where
  name : String
  instrs : List Instr
deriving DecidableEq, Repr

def Block.isTerminated (b : Block) : Bool := b.instrs.any (·.op.isTerminator)

/-- The names in use in a routine. A name that is taken gets a number appended; numbers are
counted for each name. -/
structure Names where
  used : List String
  counts : List (String × Nat)
deriving DecidableEq, Repr

namespace Names

/-- The empty name is never free. -/
def initial : Names := ⟨[""], []⟩

def count (s : Names) (base : String) : Nat := (s.counts.lookup base).getD 0

def setCount (s : Names) (base : String) (n : Nat) : Names :=
  { s with counts := (base, n) :: s.counts.filter fun p => p.1 ≠ base }

def numbered (base : String) (n : Nat) : String := base ++ "." ++ toString n

/-- Tries `name`, then the numbered forms of `base`. With as many tries as names are used one
of them is free. -/
def deduplicate : Nat → Names → String → String → String × Names
  | 0, s, _, name => (name, s)
  | fuel + 1, s, base, name =>
    if s.used.contains name then
      let n := s.count base + 1
      deduplicate fuel (s.setCount base n) base (numbered base n)
    else (name, s)

def register (s : Names) (base : String) : String × Names :=
  let r := deduplicate (s.used.length + 1) s base base
  (r.1, { r.2 with used := r.1 :: r.2.used })

end Names

structure Routine where
  name : String
  result : Ty
  params : List (String × Ty)
  variadic : Bool
  blocks : List Block
  names : Names
deriving DecidableEq, Repr

namespace Routine

/-- The names of parameters, in a routine with this many. -/
def takeNames : Names → List Ty → List (String × Ty) × Names
  | s, [] => ([], s)
  | s, t :: ts =>
    let r := s.register ""
    let rest := takeNames r.2 ts
    ((r.1, t) :: rest.1, rest.2)

/-- A routine without blocks. Its parameters take a name each, and so does its result. -/
def declare (name : String) (result : Ty) (params : List Ty) (variadic : Bool) : Routine :=
  let r := takeNames .initial params
  { name, result, params := r.1, variadic, blocks := [], names := (r.2.register "").2 }

def ty (r : Routine) : Ty := .function r.result (r.params.map Prod.snd) r.variadic

def operand (r : Routine) : Operand := .global r.name (.pointer r.ty)

def block? (r : Routine) (name : String) : Option Block := r.blocks.find? (·.name == name)

def instr? (r : Routine) (name : String) : Option Instr :=
  (r.blocks.flatMap Block.instrs).find? (·.name == name)

/-- Appends an empty block and gives the name it got. -/
def addBlock (r : Routine) (name : String) : String × Routine :=
  let n := r.names.register name
  (n.1, { r with blocks := r.blocks ++ [⟨n.1, []⟩], names := n.2 })

/-- Takes a name for a result. -/
def takeName (r : Routine) : String × Routine :=
  let n := r.names.register ""
  (n.1, { r with names := n.2 })

/-- Appends an instruction to a block. -/
def addInstr (r : Routine) (block : String) (i : Instr) : Routine :=
  { r with blocks := r.blocks.map fun b =>
      if b.name = block then { b with instrs := b.instrs ++ [i] } else b }

end Routine

inductive Initial
  | int (value : Int)
  | bytes (value : List UInt8)
deriving DecidableEq, Repr

/-- A constant global. -/
structure Constant where
  name : String
  isInternal : Bool
  ty : Ty
  initial : Initial
deriving DecidableEq, Repr

inductive Item
  | constant (c : Constant)
  | routine (r : Routine)
deriving DecidableEq, Repr

namespace Item

def name : Item → String
  | constant c => c.name
  | routine r => r.name

def operand : Item → Operand
  | constant c => .global c.name (.pointer c.ty)
  | routine r => r.operand

end Item

/-- The globals in order of creation. -/
structure Assembly where
  items : List Item
deriving DecidableEq, Repr

namespace Assembly

def item? (a : Assembly) (name : String) : Option Item := a.items.find? (·.name == name)

def routine? (a : Assembly) (name : String) : Option Routine :=
  match a.item? name with
  | some (.routine r) => some r
  | _ => none

def add (a : Assembly) (i : Item) : Assembly := ⟨a.items ++ [i]⟩

def modifyRoutine (a : Assembly) (name : String) (f : Routine → Routine) : Assembly :=
  ⟨a.items.map fun
    | .routine r => if r.name = name then .routine (f r) else .routine r
    | i => i⟩

end Assembly

end LimeLang.Code
