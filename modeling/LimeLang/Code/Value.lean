import LimeLang.Code.Instr
import LimeLang.Number.Arithmetic

/-! Values of running code and the operations on them. Integers wrap; floating point numbers
are rounded to single precision after every operation. -/

namespace LimeLang.Code

/-- A value. A pointer leads to a slot of the running routine or to a global. -/
inductive Value
  | int (width : Nat) (bits : BitVec width)
  | float (x : Number.Single)
  | slot (index : Nat)
  | global (name : String)
deriving DecidableEq, Repr

/-- Operations on integers. Division truncates; there is none by zero. The least number by -1
wraps to itself, with remainder zero, where a machine may leave both undefined. -/
def BinaryOp.onInts (op : BinaryOp) {w : Nat} (x y : BitVec w) : Option (BitVec w) :=
  match op with
  | add => some (x + y)
  | sub => some (x - y)
  | mul => some (x * y)
  | sdiv => if y = 0 then none else some (x.sdiv y)
  | srem => if y = 0 then none else some (x.srem y)
  | xor => some (x ^^^ y)
  | _ => none

def BinaryOp.onFloats (op : BinaryOp) (x y : Number.Single) : Option Number.Single :=
  match op with
  | fadd => some (x.add y)
  | fsub => some (x.sub y)
  | fmul => some (x.mul y)
  | fdiv => some (x.div y)
  | frem => some (x.rem y)
  | _ => none

def Relation.onInts (rel : Relation) {w : Nat} (x y : BitVec w) : Bool :=
  match rel with
  | eq => x == y
  | lt => x.slt y
  | le => x.sle y
  | gt => y.slt x
  | ge => y.sle x

def Relation.admits : Relation → Ordering → Bool
  | eq, .eq => true
  | lt, .lt => true
  | le, .lt | le, .eq => true
  | gt, .gt => true
  | ge, .gt | ge, .eq => true
  | _, _ => false

/-- No relation holds between unordered numbers. -/
def Relation.onFloats (rel : Relation) (x y : Number.Single) : Bool :=
  (x.compare? y).any rel.admits

namespace Value

def ofBool (b : Bool) : Value := int 1 (BitVec.ofBool b)

def binary (op : BinaryOp) : Value → Value → Option Value
  | int w x, int v y => if h : v = w then (op.onInts x (y.cast h)).map (int w) else none
  | float x, float y => (op.onFloats x y).map float
  | _, _ => none

theorem binary_int (op : BinaryOp) {w : Nat} (x y : BitVec w) :
    binary op (int w x) (int w y) = (op.onInts x y).map (int w) := by simp [binary]

def icmp (rel : Relation) : Value → Value → Option Value
  | int w x, int v y => if h : v = w then some (ofBool (rel.onInts x (y.cast h))) else none
  | x, y => if rel = .eq then some (ofBool (x = y)) else none

theorem icmp_int (rel : Relation) {w : Nat} (x y : BitVec w) :
    icmp rel (int w x) (int w y) = some (ofBool (rel.onInts x y)) := by simp [icmp]

def fcmp (rel : Relation) : Value → Value → Option Value
  | float x, float y => some (ofBool (rel.onFloats x y))
  | _, _ => none

def toFloat : Value → Option Value
  | int _ x => some (float (Number.Binary.ofInt x.toInt))
  | _ => none

/-- Whether a condition holds. -/
def truth? : Value → Option Bool
  | int 1 x => some (x == 1)
  | _ => none

theorem truth?_ofBool (b : Bool) : truth? (ofBool b) = some b := by cases b <;> rfl

end Value

end LimeLang.Code
