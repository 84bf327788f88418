import LimeLang.Code.Instr

/-! What makes an assembly fit to run: blocks that end once, jumps that stay inside, operands
of the right type, and values that are computed before they are used. -/

namespace LimeLang.Code

/-- Exactly one terminator, at the end. -/
def endsOnce : List Instr → Bool
  | [] => false
  | [i] => i.op.isTerminator
  | i :: is => !i.op.isTerminator && endsOnce is

theorem endsOnce_cons_cons (i j : Instr) (is : List Instr) :
    endsOnce (i :: j :: is) = (!i.op.isTerminator && endsOnce (j :: is)) := rfl

theorem endsOnce_append {is : List Instr} (h : is.all fun i => !i.op.isTerminator)
    (last : Instr) : endsOnce (is ++ [last]) = last.op.isTerminator := by
  induction is with
  | nil => rfl
  | cons i is ih =>
    simp only [List.all_cons, Bool.and_eq_true] at h
    cases is with
    | nil => simp [endsOnce, h.1]
    | cons j is =>
      have hh := ih h.2
      simp only [List.cons_append] at hh ⊢
      simp [endsOnce_cons_cons, h.1, hh]

def Block.isClosed (b : Block) : Bool := endsOnce b.instrs

/-- The blocks that control may go to from a block. -/
def Block.targets (b : Block) : List String := b.instrs.flatMap (·.op.targets)

/-- Types whose values instructions can hold. -/
def Ty.isFirstClass : Ty → Bool
  | .void | .function .. => false
  | _ => true

/-- Whether an operand can stand where a type is expected. An integer constant is written
without its type and fits every integer type. -/
def Operand.fits (x : Operand) (t : Ty) : Bool :=
  match x with
  | .int .. => t.isInt
  | _ => x.ty = t

def argsFit : List Ty → Bool → List (Option Operand) → Bool
  | [], _, [] => true
  | [], variadic, some x :: xs => variadic && x.ty.isFirstClass && argsFit [] variadic xs
  | t :: ts, variadic, some x :: xs => x.ty = t && argsFit ts variadic xs
  | _, _, none :: _ => false
  | _ :: _, _, [] => false

/-- Whether the operands of an operation have the right types, in a routine with this result. -/
def Op.isTyped (result : Ty) : Op → Bool
  | binary op l r => l.ty = r.ty && if op.isFloat then l.ty = .float else l.ty.isInt
  | icmp _ l (some r) => (l.ty.isInt || l.ty.isPointer) && r.fits l.ty
  | fcmp _ l (some r) => l.ty = .float && r.ty = .float
  | icmp _ _ none | fcmp _ _ none => false
  | sitofp v t => v.ty.isInt && t = .float
  | bitcast v t => v.ty.isPointer && t.isPointer
  | alloca t => t.isFirstClass
  | load p => match p.ty with
    | .pointer t => t.isFirstClass
    | _ => false
  | store v p => v.ty.isFirstClass && p.ty = .pointer v.ty
  | call f args => match f.ty with
    | .pointer (.function _ params variadic) => argsFit params variadic args
    | _ => false
  | br _ => true
  | condBr (some c) _ _ => c.ty = .i1
  | condBr none _ _ => false
  | ret (some v) => v.ty.isFirstClass && v.ty = result
  | ret none => false

/-- Whether an instruction computes the named value. A void result has no name. -/
def Instr.defines (i : Instr) (name : String) (t : Ty) : Bool :=
  i.name = name && i.op.ty = t && t ≠ .void

def Block.defines (b : Block) (name : String) (t : Ty) : Bool :=
  b.instrs.any (·.defines name t)

namespace Routine

def targetsOf (r : Routine) (block : String) : List String :=
  match r.block? block with
  | some b => b.targets
  | none => []

/-- The blocks seen when control goes on from the pending ones and stops at those seen before. -/
def explore (r : Routine) : Nat → List String → List String → List String
  | 0, _, seen => seen
  | _, [], seen => seen
  | fuel + 1, b :: pending, seen =>
    if seen.contains b then explore r fuel pending seen
    else explore r fuel (r.targetsOf b ++ pending) (b :: seen)

/-- The blocks reached from the entry when control stops at the given ones. Each jump is
followed at most once. -/
def reached (r : Routine) (stops : List String) : List String :=
  match r.blocks with
  | [] => []
  | entry :: _ => r.explore (2 + (r.blocks.flatMap Block.targets).length) [entry.name] stops

/-- Whether control cannot get to `b` without passing `a`. -/
def dominates (r : Routine) (a b : String) : Bool :=
  a = b || !(r.reached [a]).contains b

def isReachable (r : Routine) (b : String) : Bool := (r.reached []).contains b

/-- Whether a value is at hand in block `b` behind the instructions `before`. In a block that
control never gets to, order does not matter. -/
def isAtHand (r : Routine) (b : String) (before : List Instr) (name : String) (t : Ty) : Bool :=
  r.params.contains (name, t) || before.any (·.defines name t) ||
    r.blocks.any fun a =>
      a.defines name t && (a.name ≠ b && r.dominates a.name b || !r.isReachable b)

def isUsable (r : Routine) (b : String) (before : List Instr) : Operand → Bool
  | .result name t => r.isAtHand b before name t
  | _ => true

/-- Checks the instructions of block `b` that come after `before`. -/
def checkInstrs (r : Routine) (b : String) (before : List Instr) : List Instr → Bool
  | [] => true
  | i :: is =>
    i.op.isTyped r.result && i.op.operands.all (r.isUsable b before) &&
      i.op.targets.all (fun t => (r.block? t).isSome) && r.checkInstrs b (i :: before) is

def isAccepted (r : Routine) : Bool :=
  r.blocks.all fun b => b.isClosed && r.checkInstrs b.name [] b.instrs

end Routine

/-- The bytes of a string have to fill its type. -/
def Constant.isAccepted (c : Constant) : Bool :=
  match c.ty, c.initial with
  | .array n t, .bytes bs => t = .i8 && bs.length = n
  | .int _, .int _ => true
  | _, _ => false

def Item.isAccepted : Item → Bool
  | constant c => c.isAccepted
  | routine r => r.isAccepted

def Assembly.isAccepted (a : Assembly) : Bool := a.items.all Item.isAccepted

end LimeLang.Code
