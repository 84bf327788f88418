import LimeLang.Proofs.ExpressionTypes
import LimeLang.Proofs.NameTracking

/-! Where values come from that are generated without failure. A number that a call-free expression
gives is the value of a formula. -/

namespace LimeLang

open Code

namespace Expr

inductive CallFree : Expr → Prop
  | int (n : Nat) : CallFree (.int n)
  | float (x : Number.Double) : CallFree (.float x)
  | bool (b : Bool) : CallFree (.bool b)
  | str (s : String) : CallFree (.str s)
  | ident (y : String) : CallFree (.ident y)
  | infixed {l r : Expr} {op : InfixOp} (hl : CallFree l) (hr : CallFree r) :
      CallFree (.infixed l op r)
  | prefixed {x : Expr} {op : PrefixOp} (hx : CallFree x) : CallFree (.prefixed op x)

end Expr

/-- The test that an operation makes for sides of a type. -/
def Typed.isOf (x : Typed) : Scalar → Bool
  | .int => x.isInt
  | .float => x.isFloat
  | .bool => false

theorem Typed.eq_of_isOf {x : Typed} {σ τ : Scalar} (h : x.isOf σ = true) (hτ : τ.isNumber = true)
    (hx : x.ty = some τ.ty) : σ = τ := by
  cases σ <;> cases τ <;> simp_all [isOf, isInt, isFloat, Scalar.isNumber, Scalar.ty, Ty.isInt,
    Ty.i32]

theorem Gives.of_ok {α : Type} {x : Gen α} {s t : Session} {Q : α → Session →
    Prop} {a : α} (h : Gives x s Q) (hrun : x.run s = (.ok a, t)) : Q a t := by
  obtain ⟨b, u, hrun', hQ⟩ := h
  rw [hrun] at hrun'
  cases hrun'
  exact hQ

def Code.Constant.ofString (n : Nat) (text : String) : Constant where
  name := Gen.stringName n
  isInternal := true
  ty := .array (Gen.unescape text.toList ++ ['\x00']).length .i8
  initial := .bytes ((Gen.unescape text.toList ++ ['\x00']).flatMap String.utf8EncodeChar)

theorem Gen.string_ok {text : String} {s t : Session} {r : Typed}
    (h : (Gen.string text).run s = (.ok r, t)) :
    let c : Item := .constant (.ofString (s.counter + 1) text)
    r = .of c.operand c.operand.ty ∧ s.assembly.item? c.name = none ∧
      t = { s with counter := s.counter + 1, assembly := s.assembly.add c } := by
  obtain ⟨_, s₁, hcount, h⟩ := Gen.bind_ok h
  cases hcount
  obtain ⟨_, s₂, hadd, h⟩ := Gen.bind_ok h
  cases h
  cases hitem : s.assembly.item? (Gen.stringName (s.counter + 1)) with
  | some i =>
    rw [Gen.run_addItem_taken hitem] at hadd
    cases hadd
  | none =>
    rw [Gen.run_addItem hitem] at hadd
    cases hadd
    exact ⟨rfl, hitem, rfl⟩

theorem Gen.binding_ok {l : Literal} {s t : Session} {b : Binding}
    (h : (Gen.binding l).run s = (.ok b, t)) : s.scopes.find? l = some b ∧ s = t := by
  cases hb : s.scopes.find? l with
  | none =>
    rw [Gen.binding, Gen.run_bind, show (Gen.lookup l).run s = (.ok (s.scopes.find? l), s) from rfl,
      hb] at h
    cases h
  | some c =>
    rw [run_binding hb] at h
    cases h
    exact ⟨rfl, rfl⟩

section Inversion

variable {e : Edition} {s t : Session} {p : Place} {u v w : Operand} {x y r : Typed} {τ : Scalar}

theorem emit_ty {op : Op} (hs : s.Stands p) (hop : op.isTerminator = false)
    (h : (Gen.emit op).run s = (.ok v, t)) : v.ty = op.ty := by
  obtain ⟨m, rfl, -⟩ := (hs.emit hop).of_ok h
  rfl

theorem binary_ok {b : BinaryOp} {l r : Option Operand} (hs : s.Stands p)
    (h : (Gen.binary b l r).run s = (.ok u, t)) : ∃ v w, l = some v ∧ r = some w ∧ v.ty = w.ty ∧
      u.ty = v.ty := by
  cases l with
  | none => cases h
  | some v =>
    cases r with
    | none => cases h
    | some w =>
      by_cases hty : v.ty = w.ty
      · rw [Gen.binary_eq_emit hty] at h
        exact ⟨v, w, rfl, rfl, hty, emit_ty hs rfl h⟩
      · simp only [Gen.binary, Gen.need, pure_bind, if_neg hty] at h
        cases h

theorem number_ty_ne_i1 (hτ : τ.isNumber = true) : τ.ty ≠ .i1 := by
  cases τ <;> simp_all [Scalar.isNumber, Scalar.ty, Ty.i32, Ty.i1]

theorem load_ok (hs : s.Stands p) (h : (Gen.load v).run s = (.ok w, t)) : v.ty = .pointer w.ty := by
  by_cases hv : v.ty.isPointer = true
  · obtain ⟨m, rfl, -⟩ := (hs.load hv).of_ok h
    cases hptr : v.ty with
    | pointer t => rw [Operand.ty, Op.ty, hptr]
    | _ => simp [hptr, Ty.isPointer] at hv
  · rw [Gen.load, if_neg hv] at h
    obtain ⟨_, _, -, h⟩ := Gen.bind_ok h
    cases h

theorem compareInts_ty {rel : Relation} {l r : Option Operand} (hs : s.Stands p)
    (h : (Gen.compareInts rel l r).run s = (.ok u, t)) : u.ty = .i1 := by
  cases l with
  | none => cases h
  | some v => exact emit_ty hs rfl h

theorem compareFloats_ty {rel : Relation} {l r : Option Operand} (hs : s.Stands p)
    (h : (Gen.compareFloats rel l r).run s = (.ok u, t)) : u.ty = .i1 := by
  cases l with
  | none => cases h
  | some v => exact emit_ty hs rfl h

/-- An operation that compares or calculates, with results of type `T`. -/
def Gen.operation (T : Ty) (compare : Relation → Gen Operand) (l r : Option Operand) :
    Option Relation → Option BinaryOp → Gen Typed
  | some rel, _ => do return .of (← compare rel) .i1
  | none, some b => do return .of (← binary b l r) T
  | none, none => return ⟨none, some T⟩

theorem infixed_eq_operation (op : InfixOp) (x y : Typed) : Gen.infixed e op x y =
    if y.isInt && x.isInt then
      Gen.operation .i32 (Gen.compareInts · x.value y.value) x.value y.value op.relation?
        (op.intOp? e)
    else if y.isFloat && x.isFloat && e.has .remainders then
      Gen.operation .float (Gen.compareFloats · x.value y.value) x.value y.value op.relation?
        op.floatOp?
    else return ⟨none, none⟩ := by
  rw [Gen.infixed]
  cases op.relation? <;> cases op.intOp? e <;> cases op.floatOp? <;> rfl

theorem operation_number {T : Ty} {compare : Relation → Gen Operand} {l r : Option Operand}
    {rel? : Option Relation} {op? : Option BinaryOp} (hs : s.Stands p)
    (hcompare : ∀ rel u t, (compare rel).run s = (.ok u, t) → u.ty = .i1)
    (h : (Gen.operation T compare l r rel? op?).run s = (.ok x, t)) (hv : x.value = some v)
    (hτ : τ.isNumber = true) (hty : v.ty = τ.ty) :
    x.ty = some T ∧ rel? = none ∧ ∃ b v₁ v₂, op? = some b ∧ l = some v₁ ∧ r = some v₂ ∧
      v₁.ty = τ.ty ∧ v₂.ty = τ.ty := by
  cases rel? with
  | some rel =>
    obtain ⟨u, s₁, hu, hret⟩ := Gen.bind_ok h
    cases hret
    obtain rfl := Option.some.inj hv
    exact absurd (hty.symm.trans (hcompare rel u _ hu)) (number_ty_ne_i1 hτ)
  | none =>
    cases op? with
    | none =>
      cases h
      cases hv
    | some b =>
      obtain ⟨u, s₁, hu, hret⟩ := Gen.bind_ok h
      cases hret
      obtain rfl := Option.some.inj hv
      obtain ⟨v₁, v₂, hl, hr, hsides, hu⟩ := binary_ok hs hu
      have hv₁ : v₁.ty = τ.ty := hu.symm.trans hty
      exact ⟨rfl, rfl, b, v₁, v₂, rfl, hl, hr, hv₁, hsides.symm.trans hv₁⟩

theorem infixed_number {op : InfixOp} (hs : s.Stands p)
    (h : (Gen.infixed e op x y).run s = (.ok r, t))
    (hv : r.value = some v) (hτ : τ.isNumber = true) (hty : v.ty = τ.ty) :
    ∃ σ b v₁ v₂, x.isOf σ = true ∧ r.ty = some σ.ty ∧ op.join? e σ.ty = some (.binary b) ∧
      x.value = some v₁ ∧ y.value = some v₂ ∧ v₁.ty = τ.ty ∧ v₂.ty = τ.ty := by
  rw [infixed_eq_operation] at h
  split_ifs at h with hints hfloats
  · rw [Bool.and_eq_true] at hints
    obtain ⟨hr, hrel, b, v₁, v₂, hop, hx, hy, hv₁, hv₂⟩ :=
      operation_number hs (fun _ _ _ => compareInts_ty hs) h hv hτ hty
    have hjoin : op.join? e .i32 = some (.binary b) := by
      simp [InfixOp.join?, hrel, hop]
    exact ⟨.int, b, v₁, v₂, hints.2, hr, hjoin, hx, hy, hv₁, hv₂⟩
  · simp only [Bool.and_eq_true] at hfloats
    obtain ⟨hr, hrel, b, v₁, v₂, hop, hx, hy, hv₁, hv₂⟩ :=
      operation_number hs (fun _ _ _ => compareFloats_ty hs) h hv hτ hty
    have hjoin : op.join? e .float = some (.binary b) := by
      simp [InfixOp.join?, Ty.i32, hrel, hop, hfloats.2]
    exact ⟨.float, b, v₁, v₂, hfloats.1.2, hr, hjoin, hx, hy, hv₁, hv₂⟩
  · cases h
    cases hv

theorem prefixed_number {op : PrefixOp} (hs : s.Stands p)
    (h : (Gen.prefixed op x).run s = (.ok r, t))
    (hv : r.value = some v) (hτ : τ.isNumber = true) (hty : v.ty = τ.ty) :
    ∃ σ b ψ v₁, x.isOf σ = true ∧ r.ty = some σ.ty ∧ op.join? σ.ty = some (.binary b, ψ) ∧
      x.value = some v₁ ∧ v₁.ty = τ.ty := by
  have hbinary : ∀ {b : BinaryOp} {T : Ty} {w : Operand},
      (do return .of (← Gen.binary b x.value (some w)) T : Gen Typed).run s = (.ok r, t) →
        r.ty = some T ∧ ∃ v₁, x.value = some v₁ ∧ v₁.ty = τ.ty := by
    intro b T w hrun
    obtain ⟨u, s₁, hu, hret⟩ := Gen.bind_ok hrun
    cases hret
    obtain rfl := Option.some.inj hv
    obtain ⟨v₁, _, hx, -, -, hu⟩ := binary_ok hs hu
    exact ⟨rfl, v₁, hx, hu.symm.trans hty⟩
  rw [Gen.prefixed.eq_def] at h
  split_ifs at h with hfloat hint
  · cases op with
    | neg =>
      obtain ⟨hr, v₁, hx, hv₁⟩ := hbinary h
      exact ⟨.float, .fmul, .float Gen.minusOne, v₁, hfloat, hr, rfl, hx, hv₁⟩
    | not =>
      cases h
      obtain rfl := Option.some.inj hv
      exact absurd hty.symm (number_ty_ne_i1 hτ)
  · cases op with
    | neg =>
      obtain ⟨hr, v₁, hx, hv₁⟩ := hbinary h
      exact ⟨.int, .mul, .int (-1), v₁, hint, hr, rfl, hx, hv₁⟩
    | not =>
      cases hx : x.value with
      | none =>
        simp only [hx] at h
        cases h
      | some w =>
        have hcomplement : Gen.complement x.value = Gen.binary .xor x.value
            (some (.int w.ty (-1))) := by
          rw [hx]
          rfl
        rw [hcomplement] at h
        obtain ⟨hr, v₁, hx', hv₁⟩ := hbinary h
        exact ⟨.int, .xor, .int (-1), v₁, hint, hr, rfl, hx ▸ hx', hv₁⟩
  · cases h
    cases hv

/-- A variable that is loaded as a number is a slot of its recorded type. -/
theorem Session.Valid.number {b : Binding} {l : Literal} (hs : s.Valid)
    (hb : s.scopes.find? l = some b) (hτ : τ.isNumber = true) (hty : b.value.ty = .pointer τ.ty) :
    ∃ n, b = ⟨.result n (.pointer τ.ty), τ.ty⟩ := by
  rcases hs.typed.find? hb with ⟨_, _, n, -, -, hvalue⟩ | ⟨r, -, hvalue, -⟩ | ⟨i, hi, -, hvalue, -⟩
  · rw [hvalue] at hty
    have hb : b.ty = τ.ty := Ty.pointer.inj hty
    obtain ⟨value, ty⟩ := b
    subst hb
    exact ⟨n, congrArg (Binding.mk · τ.ty) hvalue⟩
  · rw [hvalue] at hty
    cases τ <;> cases hty
  · rw [hvalue] at hty
    rcases List.mem_pair.mp hi with rfl | rfl
    · exact absurd (Ty.pointer.inj hty).symm (number_ty_ne_i1 hτ)
    · exact absurd (Ty.pointer.inj hty).symm (number_ty_ne_i1 hτ)

/-- Where a call-free expression gives a number, it has a formula. -/
theorem Expr.CallFree.means {x : Expr} (hx : x.CallFree) (hs : s.Valid) (hp : s.place = some p)
    (h : (Gen.value e x).run s = (.ok r, t)) (hv : r.value = some v) (hτ : τ.isNumber = true)
    (hty : v.ty = τ.ty) : r.ty = some τ.ty ∧ ∃ φ, x.Means e s.scopes φ ∧ φ.ty = τ.ty := by
  -- the type of the value decides: labels may be wrong, but not on what is a number
  induction hx generalizing s t r v with
  | int n =>
    rw [Gen.value] at h
    cases h
    obtain rfl := Option.some.inj hv
    obtain rfl : Scalar.int = τ := Scalar.ty_injective hty
    exact ⟨rfl, _, .int n, rfl⟩
  | float x =>
    rw [Gen.value] at h
    cases h
    obtain rfl := Option.some.inj hv
    obtain rfl : Scalar.float = τ := Scalar.ty_injective hty
    exact ⟨rfl, _, .float x, rfl⟩
  | bool b =>
    obtain ⟨_, hrun⟩ := value_bool e b s
    rw [h] at hrun
    cases hrun
    obtain rfl := Option.some.inj hv
    exact absurd hty.symm (number_ty_ne_i1 hτ)
  | str text =>
    rw [Gen.value] at h
    obtain ⟨rfl, -⟩ := Gen.string_ok h
    obtain rfl := Option.some.inj hv
    cases τ <;> cases hty
  | ident y =>
    rw [Gen.value] at h
    obtain ⟨b, s₁, hb, h⟩ := Gen.bind_ok h
    obtain ⟨hfind, rfl⟩ := Gen.binding_ok hb
    obtain ⟨w, s₂, hw, h⟩ := Gen.bind_ok h
    cases h
    obtain rfl := Option.some.inj hv
    obtain ⟨n, rfl⟩ := hs.number hfind hτ (hty ▸ load_ok (hs.stands hp) hw)
    exact ⟨rfl, _, .ident hfind rfl, rfl⟩
  | @infixed y z op _ _ ihl ihr =>
    rw [Gen.value] at h
    obtain ⟨x₁, s₁, h₁, h⟩ := Gen.bind_ok h
    obtain ⟨x₂, s₂, h₂, h⟩ := Gen.bind_ok h
    have hq₁ := (quiet.value e y).of_run h₁
    have hq₂ := (quiet.value e z).of_run h₂
    have hp₁ := hq₁.place.trans hp
    have hs₂ := (hq₂.valid (hq₁.valid hs)).stands (hq₂.place.trans hp₁)
    obtain ⟨σ, b, v₁, v₂, hσ, hrty, hjoin, hx₁, hx₂, hv₁, hv₂⟩ := infixed_number hs₂ h hv hτ hty
    obtain ⟨hxty, φ, hφ, hφty⟩ := ihl hs hp h₁ hx₁ hv₁
    obtain ⟨-, ψ, hψ, hψty⟩ := ihr (hq₁.valid hs) hp₁ h₂ hx₂ hv₂
    rw [hq₁.scopes] at hψ
    obtain rfl := Typed.eq_of_isOf hσ hτ hxty
    exact ⟨hrty, .join (.binary b) φ ψ, .infixed hφ hψ (hφty.trans hψty.symm) (hφty ▸ hjoin), hφty⟩
  | @prefixed y op _ ih =>
    rw [Gen.value] at h
    obtain ⟨x₁, s₁, h₁, h⟩ := Gen.bind_ok h
    have hq₁ := (quiet.value e y).of_run h₁
    have hs₁ := (hq₁.valid hs).stands (hq₁.place.trans hp)
    obtain ⟨σ, b, ψ, v₁, hσ, hrty, hjoin, hx₁, hv₁⟩ := prefixed_number hs₁ h hv hτ hty
    obtain ⟨hxty, φ, hφ, hφty⟩ := ih hs hp h₁ hx₁ hv₁
    obtain rfl := Typed.eq_of_isOf hσ hτ hxty
    exact ⟨hrty, .join (.binary b) φ ψ, .prefixed hφ (hφty ▸ hjoin), hφty⟩

end Inversion

end LimeLang
