import LimeLang.Code.Type
import LimeLang.Number.Layout
import LimeLang.Text.Quoted

/-! Operands: constants, globals, and the results of instructions, each with its type. -/

namespace LimeLang.Code

inductive Operand
  | int (ty : Ty) (value : Int)
  | float (value : Number.Double)
  | global (name : String) (ty : Ty)
  | result (name : String) (ty : Ty)
deriving DecidableEq, Repr

/-- A single precision constant is written as the double that it is equal to. -/
def floatText (x : Number.Double) : String :=
  let bits := ((x.convert .single).convert .double).bits
  let digits := '0' :: 'x' :: Text.hex 1 bits
  String.ofList (List.replicate (16 - digits.length) ' ' ++ digits)

def globalText (name : String) : String := "@\"" ++ name ++ "\""

def localText (name : String) : String := "%\"" ++ name ++ "\""

def labelText (name : String) : String := "label " ++ localText name

namespace Operand

def ty : Operand → Ty
  | int t _ => t
  | float _ => .float
  | global _ t => t
  | result _ t => t

/-- The operand as instructions refer to it. -/
def text : Operand → String
  | int _ n => toString n
  | float x => floatText x
  | global name _ => globalText name
  | result name _ => localText name

def typedText (x : Operand) : String := x.ty.text ++ " " ++ x.text

end Operand

end LimeLang.Code
