import LimeLang.Code.Printf

/-! Running code. A call has values and slots of its own, so that nothing but its result and
what it prints is seen outside. -/

namespace LimeLang.Code

/-- Named values, each name at most once. -/
abbrev Values := List (String × Value)

namespace Values

def get? : Values → String → Option Value
  | [], _ => none
  | (m, x) :: vs, n => if m = n then some x else get? vs n

def set : Values → String → Value → Values
  | [], n, x => [(n, x)]
  | (m, y) :: vs, n, x => if m = n then (m, x) :: vs else (m, y) :: set vs n x

theorem get?_set_same (vs : Values) (n : String) (x : Value) : get? (set vs n x) n = some x := by
  induction vs with
  | nil => simp [set, get?]
  | cons p vs ih =>
    obtain ⟨m, y⟩ := p
    by_cases h : m = n <;> simp [set, get?, h, ih]

theorem get?_set_other (vs : Values) {m n : String} (h : m ≠ n) (x : Value) :
    get? (set vs m x) n = get? vs n := by
  induction vs with
  | nil => simp [set, get?, h]
  | cons p vs ih =>
    obtain ⟨k, y⟩ := p
    by_cases hk : k = m
    · simp [set, get?, hk, h]
    · simp [set, get?, hk, ih]

end Values

/-- The state of a call. A slot is empty until something is stored in it. -/
structure Frame where
  values : Values
  slots : Array (Option Value)
deriving DecidableEq, Repr

namespace Frame

/-- The value of an operand where type `t` is expected: an integer is cut to its width. -/
def valueAs? (f : Frame) (t : Ty) : Operand → Option Value
  | .int _ n => match t with
    | .int w => some (.int w (BitVec.ofInt w n))
    | _ => none
  | .float x => some (.float (x.convert .single))
  | .global name _ => some (.global name)
  | .result name _ => f.values.get? name

def value? (f : Frame) (x : Operand) : Option Value := f.valueAs? x.ty x

def loadSlot? (f : Frame) (i : Nat) : Option Value := (f.slots[i]?).join

def storeSlot? (f : Frame) (i : Nat) (x : Value) : Option Frame :=
  if i < f.slots.size then some { f with slots := f.slots.setIfInBounds i (some x) } else none

def setValue (f : Frame) (name : String) (x : Value) : Frame :=
  { f with values := f.values.set name x }

/-- Runs an instruction that neither calls nor jumps. -/
def step? (a : Assembly) (f : Frame) (i : Instr) : Option Frame :=
  match i.op with
  | .binary op l r => do
    let x ← f.value? l
    let y ← f.value? r
    return f.setValue i.name (← x.binary op y)
  | .icmp rel l (some r) => do
    let x ← f.value? l
    let y ← f.valueAs? l.ty r
    return f.setValue i.name (← x.icmp rel y)
  | .fcmp rel l (some r) => do
    let x ← f.value? l
    let y ← f.value? r
    return f.setValue i.name (← x.fcmp rel y)
  | .sitofp v _ => do
    let x ← f.value? v
    return f.setValue i.name (← x.toFloat)
  | .bitcast v _ => do return f.setValue i.name (← f.value? v)
  | .alloca _ =>
    some { values := f.values.set i.name (.slot f.slots.size), slots := f.slots.push none }
  | .load p => do
    match ← f.value? p with
    | .slot n => return f.setValue i.name (← f.loadSlot? n)
    | .global name =>
      match a.item? name with
      | some (.constant ⟨_, _, .int w, .int n⟩) =>
        return f.setValue i.name (.int w (BitVec.ofInt w n))
      | _ => none
    | _ => none
  | .store v p => do
    let x ← f.value? v
    match ← f.value? p with
    | .slot n => f.storeSlot? n x
    | _ => none
  | _ => none

/-- The values of arguments. -/
def args? (f : Frame) : List (Option Operand) → Option (List Value)
  | [] => some []
  | none :: _ => none
  | some x :: xs => do
    let v ← f.value? x
    return v :: (← f.args? xs)

end Frame

/-- The frame of a call before its first instruction. -/
def Routine.frame (r : Routine) (args : List Value) : Frame :=
  ⟨(r.params.map Prod.fst).zip args, #[]⟩

/-- How running ends. -/
inductive Outcome (α : Type)
  | done (result : α)
  | stuck
  | outOfFuel
deriving DecidableEq, Repr

namespace Assembly

/-- Runs the instructions of a block to the end of the call. The output holds the bytes
printed so far, last one first. -/
def run (a : Assembly) (r : Routine) : Nat → List Instr → Frame → List UInt8 →
    Outcome (Value × List UInt8)
  | 0, _, _, _ => .outOfFuel
  | _, [], _, _ => .stuck
  | fuel + 1, i :: is, f, out =>
    match i.op with
    | .br t =>
      match r.block? t with
      | some b => run a r fuel b.instrs f out
      | none => .stuck
    | .condBr (some c) t e =>
      match (f.value? c).bind Value.truth? with
      | none => .stuck
      | some holds =>
        match r.block? (if holds then t else e) with
        | some b => run a r fuel b.instrs f out
        | none => .stuck
    | .ret (some v) =>
      match f.value? v with
      | some x => .done (x, out)
      | none => .stuck
    | .call (.global name _) args =>
      match a.routine? name, f.args? args with
      | some callee, some xs =>
        match callee.blocks with
        | entry :: _ =>
          match run a callee fuel entry.instrs (callee.frame xs) out with
          | .done (x, out) => run a r fuel is (f.setValue i.name x) out
          | .stuck => .stuck
          | .outOfFuel => .outOfFuel
        | [] =>
          match xs with
          | [] => .stuck
          | format :: rest =>
            match (a.bytesAt? format).bind (a.printf · rest) with
            | none => .stuck
            | some text =>
              run a r fuel is (f.setValue i.name (.int 32 (BitVec.ofNat 32 text.length)))
                (text.reverse ++ out)
      | _, _ => .stuck
    | _ =>
      match f.step? a i with
      | some f => run a r fuel is f out
      | none => .stuck

/-- Calls a routine; the result comes with the bytes printed. -/
def call (a : Assembly) (fuel : Nat) (name : String) (args : List Value) :
    Outcome (Value × List UInt8) :=
  match a.routine? name with
  | none => .stuck
  | some r =>
    match r.blocks with
    | [] => .stuck
    | entry :: _ =>
      match a.run r fuel entry.instrs (r.frame args) [] with
      | .done (x, out) => .done (x, out.reverse)
      | .stuck => .stuck
      | .outOfFuel => .outOfFuel

end Assembly

end LimeLang.Code
