import LimeLang.Code.Instr

/-! The text of an assembly. An instruction with an absent operand has no text. -/

namespace LimeLang.Code

/-- What was asked of an absent operand. -/
inductive Absent
  | type
  | reference
deriving DecidableEq, Repr

def Absent.message : Absent → String
  | type => "'NoneType' object has no attribute 'type'"
  | reference => "'NoneType' object has no attribute 'get_reference'"

def Operand.text? : Option Operand → Except Absent String
  | some x => .ok x.text
  | none => .error .reference

def Operand.typedText? : Option Operand → Except Absent String
  | some x => .ok x.typedText
  | none => .error .type

def compareText (word : String) (left : Operand) (right : Option Operand) :
    Except Absent String := do
  let r ← Operand.text? right
  return word ++ " " ++ left.typedText ++ ", " ++ r

def Op.text : Op → Except Absent String
  | binary op l r => .ok (op.text ++ " " ++ l.typedText ++ ", " ++ r.text)
  | icmp rel l r => compareText ("icmp " ++ rel.signedText) l r
  | fcmp rel l r => compareText ("fcmp " ++ rel.orderedText) l r
  | sitofp v t => .ok ("sitofp " ++ v.typedText ++ " to " ++ t.text)
  | bitcast v t => .ok ("bitcast " ++ v.typedText ++ " to " ++ t.text)
  | alloca t => .ok ("alloca " ++ t.text)
  | load p => .ok ("load " ++ (Op.load p).ty.text ++ ", " ++ p.typedText)
  | store v p => .ok ("store " ++ v.typedText ++ ", " ++ p.typedText)
  | call f args => do
    let texts ← args.mapM Operand.typedText?
    let ty := match calleeType? f.ty with
      | some (r, ps, v) => if v then Ty.function r ps v else r
      | none => .void
    return "call " ++ ty.text ++ " " ++ f.text ++ "(" ++ ", ".intercalate texts ++ ")"
  | br t => .ok ("br " ++ labelText t)
  | condBr c t f => do
    let condition ← Operand.typedText? c
    return "br " ++ condition ++ ", " ++ labelText t ++ ", " ++ labelText f
  | ret none => .ok "ret"
  | ret (some v) => .ok ("ret " ++ v.typedText)

/-- An instruction's line; only results that are not void are named. -/
def Instr.text (i : Instr) : Except Absent String := do
  let t ← i.op.text
  return if i.op.ty = .void then t else localText i.name ++ " = " ++ t

def isLabelStart (c : Char) : Bool :=
  ('a' ≤ c && c ≤ 'z') || ('A' ≤ c && c ≤ 'Z') || c = '-' || c = '$' || c = '.' || c = '_'

def isLabelChar (c : Char) : Bool := isLabelStart c || ('0' ≤ c && c ≤ '9')

/-- The name at the head of a block, quoted if it is not a plain word. -/
def headText (name : String) : String :=
  match name.toList with
  | c :: cs => if isLabelStart c && cs.all isLabelChar then name else "\"" ++ name ++ "\""
  | [] => "\"\""

def Block.text (b : Block) : Except Absent String := do
  let lines ← b.instrs.mapM Instr.text
  return headText b.name ++ ":\n" ++ String.join (lines.map fun l => "  " ++ l ++ "\n")

/-- Bytes that stand for themselves in a string constant. -/
def isPlainByte (b : UInt8) : Bool := 0x20 ≤ b && b < 0x7f && b ≠ 0x22 && b ≠ 0x5c

def byteText (b : UInt8) : List Char :=
  if isPlainByte b then [Char.ofNat b.toNat] else '\\' :: Text.hex 2 b.toNat

def Initial.text : Initial → String
  | int n => toString n
  | bytes bs => "c\"" ++ String.ofList (bs.flatMap byteText) ++ "\""

def Constant.text (c : Constant) : String :=
  globalText c.name ++ " = " ++ (if c.isInternal then "internal " else "") ++ "constant " ++
    c.ty.text ++ " " ++ c.initial.text

def Routine.text (r : Routine) : Except Absent String := do
  let params := r.params.map fun p => p.2.text ++ " " ++ localText p.1
  let head := (if r.blocks.isEmpty then "declare " else "define ") ++ r.result.text ++ " " ++
    globalText r.name ++ "(" ++ ", ".intercalate (params ++ if r.variadic then ["..."] else []) ++
    ")\n"
  if r.blocks.isEmpty then return head
  else
    let blocks ← r.blocks.mapM Block.text
    return head ++ "\x7b\n" ++ String.join blocks ++ "\x7d\n"

def Item.text : Item → Except Absent String
  | constant c => .ok c.text
  | routine r => r.text

def Assembly.text (a : Assembly) (triple : String) : Except Absent String := do
  let items ← a.items.mapM Item.text
  return "\n".intercalate (["; ModuleID = \"main\"", "target triple = \"" ++ triple ++ "\"",
    "target datalayout = \"\"", ""] ++ items)

/-- The triple of an assembly that is not meant for a particular machine. -/
def unknownTriple : String := "unknown-unknown-unknown"

end LimeLang.Code
