import LimeLang.Proofs.ReachableSessions
import LimeLang.Proofs.Simulation
import LimeLang.Proofs.ValueLowering

/-! The code of an expression without calls and strings is straight. What it computes is said by a
formula, in which its results have no names; running the code gives what the formula says, in every
frame, and leaves the slots alone. -/

namespace LimeLang

open Code

variable {p : Place} {s : Session}

namespace Code.Frame

def loaded? (a : Assembly) (f : Frame) (p : Operand) : Option Value := do
  match ← f.value? p with
  | .slot n => f.loadSlot? n
  | .global name =>
    match a.item? name with
    | some (.constant ⟨_, _, .int w, .int n⟩) => some (.int w (BitVec.ofInt w n))
    | _ => none
  | _ => none

def through? (a : Assembly) (f : Frame) : List Instr → Option Frame
  | [] => some f
  | i :: is => (f.step? a i).bind fun g => g.through? a is

variable {a : Assembly} {f : Frame} {m : String} {is js : List Instr}

theorem step?_load (p : Operand) : f.step? a ⟨m, .load p⟩ = (f.loaded? a p).map (f.setValue m) := by
  simp only [step?, loaded?]
  cases f.value? p with
  | none => rfl
  | some x =>
    cases x with
    | slot n =>
      simp only [Option.bind_eq_bind, Option.bind_some]
      cases f.loadSlot? n <;> rfl
    | global name =>
      simp only [Option.bind_eq_bind, Option.bind_some]
      cases a.item? name with
      | none => rfl
      | some item =>
        cases item with
        | routine r => rfl
        | constant c =>
          obtain ⟨_, _, ty, initial⟩ := c
          cases ty <;> cases initial <;> rfl
    | _ => rfl

theorem through?_append : f.through? a (is ++ js) = (f.through? a is).bind (·.through? a js) := by
  induction is generalizing f with
  | nil => rfl
  | cons i is ih =>
    simp only [List.cons_append, through?]
    cases f.step? a i with
    | none => rfl
    | some g => exact ih

theorem through?_singleton (i : Instr) : f.through? a [i] = f.step? a i := by
  simp [through?]

end Code.Frame

/-- Running the instructions takes a frame to another one, or gets stuck: step by step, and so in
every call that comes to them. -/
structure Executes (a : Assembly) (is : List Instr) (f : Frame) (o : Option Frame) : Prop where
  steps : f.through? a is = o
  run : ∀ (r : Routine) (rest : List Instr) (n : Nat) (out : List UInt8),
    a.run r (n + is.length) (is ++ rest) f out = o.elim .stuck fun g => a.run r n rest g out

theorem executes_through {a : Assembly} {is : List Instr} (h : ∀ i ∈ is, i.op.isStraight = true)
    (f : Frame) : Executes a is f (f.through? a is) := by
  refine ⟨rfl, fun r rest n out => ?_⟩
  induction is generalizing f with
  | nil => rfl
  | cons i is ih =>
    obtain ⟨hi, his⟩ := List.forall_mem_cons.mp h
    rw [List.length_cons, ← Nat.add_assoc, List.cons_append, Assembly.run_straight hi,
      Frame.through?]
    cases f.step? a i with
    | none => rfl
    | some g => exact ih his g

/-- The operations on two operands. -/
inductive Join
  | binary (op : BinaryOp)
  | icmp (rel : Relation)
  | fcmp (rel : Relation)

namespace Join

def op : Join → Operand → Operand → Op
  | binary o, v, w => .binary o v w
  | icmp rel, v, w => .icmp rel v (some w)
  | fcmp rel, v, w => .fcmp rel v (some w)

/-- The type of the result, for sides of type `t`. -/
def ty : Join → Ty → Ty
  | binary _, t => t
  | _, _ => .i1

def combine? : Join → Value → Value → Option Value
  | binary o => Value.binary o
  | icmp rel => Value.icmp rel
  | fcmp rel => Value.fcmp rel

variable (j : Join) (v w : Operand)

theorem op_ty : (j.op v w).ty = j.ty v.ty := by
  cases j <;> rfl

theorem op_isStraight : (j.op v w).isStraight = true := by
  cases j <;> rfl

theorem op_isTerminator : (j.op v w).isTerminator = false := by
  cases j <;> rfl

variable {v w}

theorem step?_op {a : Assembly} {f : Frame} {m : String} {x y : Value} (hty : v.ty = w.ty)
    (hx : f.value? v = some x) (hy : f.value? w = some y) :
    f.step? a ⟨m, j.op v w⟩ = (j.combine? x y).map (f.setValue m) := by
  cases j with
  | binary o =>
    simp only [op, combine?, Frame.step?, hx, hy, Option.bind_eq_bind, Option.bind_some]
    cases x.binary o y <;> rfl
  | icmp rel =>
    rw [Frame.value?, ← hty] at hy
    simp only [op, combine?, Frame.step?, hx, hy, Option.bind_eq_bind, Option.bind_some]
    cases x.icmp rel y <;> rfl
  | fcmp rel =>
    simp only [op, combine?, Frame.step?, hx, hy, Option.bind_eq_bind, Option.bind_some]
    cases x.fcmp rel y <;> rfl

end Join

/-- What straight code computes from numbers and from what it loads. -/
inductive Formula
  | int (n : Int)
  | float (x : Number.Double)
  | load (pointer : Operand)
  | join (j : Join) (left right : Formula)

namespace Formula

def ty : Formula → Ty
  | int _ => .i32
  | float _ => .float
  | load p => (Op.load p).ty
  | join j l _ => j.ty l.ty

def isTyped : Formula → Bool
  | join _ l r => l.ty = r.ty && l.isTyped && r.isTyped
  | _ => true

def pointers : Formula → List Operand
  | load p => [p]
  | join _ l r => l.pointers ++ r.pointers
  | _ => []

def value? (a : Assembly) (f : Frame) : Formula → Option Value
  | int n => some (.int 32 (.ofInt 32 n))
  | float x => some (.float (x.convert .single))
  | load p => f.loaded? a p
  | join j l r => (l.value? a f).bind fun x => (r.value? a f).bind fun y => j.combine? x y

/-- The code of a formula, with the operand that stands for its value. -/
inductive Coded : Formula → List Instr → Operand → Prop
  | int {n : Int} : Coded (.int n) [] (.int .i32 n)
  | float {x : Number.Double} : Coded (.float x) [] (.float x)
  | load {p : Operand} {m : String} : Coded (.load p) [⟨m, .load p⟩] (.result m (Op.load p).ty)
  | join {j : Join} {l r : Formula} {is js : List Instr} {v w : Operand} {m : String}
    (hl : Coded l is v) (hr : Coded r js w) :
    Coded (.join j l r) (is ++ js ++ [⟨m, j.op v w⟩]) (.result m (j.ty v.ty))

/-- No pointer of the formula is one of these names. -/
def Avoids (φ : Formula) (names : List String) : Prop := ∀ n t, .result n t ∈ φ.pointers → n ∉ names

variable {φ ψ : Formula} {a : Assembly} {is js : List Instr} {v w : Operand} {f g : Frame}
  {names names' : List String}

theorem Avoids.mono (h : φ.Avoids names) (hsub : names' ⊆ names) : φ.Avoids names' :=
  fun n t hn hmem => h n t hn (hsub hmem)

theorem value?_agrees (hfg : Agrees names f g) (h : φ.Avoids names) :
    φ.value? a g = φ.value? a f := by
  induction φ with
  | int n | float x => rfl
  | load p =>
    have hp : g.value? p = f.value? p := by
      refine hfg.value? fun n t hn => h n t ?_
      rw [hn]
      exact List.mem_singleton_self _
    rw [value?, value?, Frame.loaded?, Frame.loaded?, hp]
    simp only [Frame.loadSlot?, hfg.slots]
  | join j l r ihl ihr =>
    rw [value?, value?, ihl fun n t hn => h n t (List.mem_append_left _ hn),
      ihr fun n t hn => h n t (List.mem_append_right _ hn)]

namespace Coded

theorem operand_ty (h : φ.Coded is v) : v.ty = φ.ty := by
  induction h with
  | int | float | load => rfl
  | join _ _ ihl _ => rw [Formula.ty, ← ihl]; rfl

theorem operand_name (h : φ.Coded is v) {m : String} {t : Ty} (hv : v = .result m t) :
    m ∈ is.map Instr.name := by
  cases h with
  | int | float => cases hv
  | load | join => simp_all

theorem isStraight (h : φ.Coded is v) : ∀ i ∈ is, i.op.isStraight = true := by
  induction h with
  | int | float => simp
  | load => simp [Op.isStraight]
  | join _ _ ihl ihr =>
    intro i hi
    rcases List.mem_append.mp hi with hi | hi
    · exact (List.mem_append.mp hi).elim (ihl i) (ihr i)
    · rw [List.mem_singleton.mp hi]
      exact Join.op_isStraight _ _ _

end Coded

end Formula

/-- The instructions put a value in the place of an operand, or get stuck if there is none. Nothing
else changes but the values of their own names. -/
def Delivers (a : Assembly) (f : Frame) (is : List Instr) (v : Operand) : Option Value → Prop
  | some x => ∃ g, f.through? a is = some g ∧ Agrees (is.map Instr.name) f g ∧ g.value? v = some x
  | none => f.through? a is = none

namespace Delivers

variable {a : Assembly} {f : Frame} {is js : List Instr} {v w : Operand} {x : Option Value}
  {i : Instr} {t : Ty}

theorem of_step (h : f.step? a i = x.map (f.setValue i.name)) :
    Delivers a f [i] (.result i.name t) x := by
  cases x with
  | none => rw [Delivers, Frame.through?_singleton, h, Option.map_none]
  | some x =>
    refine ⟨f.setValue i.name x, ?_, .setValue f i.name x, value?_setValue f i.name t x⟩
    rw [Frame.through?_singleton, h, Option.map_some]

theorem bind {k : Value → Option Value} (h : Delivers a f is v x)
    (hk : ∀ g y, Agrees (is.map Instr.name) f g → g.value? v = some y → Delivers a g js w (k y)) :
    Delivers a f (is ++ js) w (x.bind k) := by
  cases x with
  | none =>
    rw [Option.bind_none, Delivers, Frame.through?_append, show f.through? a is = none from h,
      Option.bind_none]
  | some y =>
    obtain ⟨g, hg, hfg, hy⟩ := h
    have hrest := hk g y hfg hy
    have hall : f.through? a (is ++ js) = g.through? a js := by
      rw [Frame.through?_append, hg, Option.bind_some]
    rw [Option.bind_some]
    cases hz : k y with
    | none =>
      rw [hz] at hrest
      exact hall.trans hrest
    | some z =>
      rw [hz] at hrest
      obtain ⟨g', hg', hgg', hz'⟩ := hrest
      refine ⟨g', hall.trans hg', ?_, hz'⟩
      rw [List.map_append]
      exact hfg.trans hgg'

theorem load (p : Operand) (m : String) :
    Delivers a f [⟨m, .load p⟩] (.result m t) (f.loaded? a p) :=
  of_step (Frame.step?_load p)

end Delivers

namespace Formula.Coded

variable {φ : Formula} {a : Assembly} {is : List Instr} {v : Operand}

/-- Code gives the value of its formula. The left side of an operation outlives the code of the
right one, because no name is given twice. -/
theorem delivers (h : φ.Coded is v) (hφ : φ.isTyped = true) (hnodup : (is.map Instr.name).Nodup)
    (hapart : φ.Avoids (is.map Instr.name)) (f : Frame) : Delivers a f is v (φ.value? a f) := by
  induction h generalizing f with
  | int | float => exact ⟨f, rfl, .refl _ f, rfl⟩
  | load => exact .load _ _
  | @join j l r is js v w m hl hr ihl ihr =>
    simp only [isTyped, Bool.and_eq_true, decide_eq_true_eq] at hφ
    rw [List.map_append, List.map_append] at hnodup hapart
    obtain ⟨hnodup, -, -⟩ := List.nodup_append.mp hnodup
    obtain ⟨hl', hr', hdisjoint⟩ := List.nodup_append.mp hnodup
    have hapart : (Formula.join j l r).Avoids (is.map Instr.name ++ js.map Instr.name) :=
      hapart.mono (List.subset_append_left _ _)
    have hleft : l.Avoids (is.map Instr.name) :=
      fun n t hn hmem => hapart n t (List.mem_append_left _ hn) (List.mem_append_left _ hmem)
    have hright : r.Avoids (is.map Instr.name ++ js.map Instr.name) :=
      fun n t hn => hapart n t (List.mem_append_right _ hn)
    rw [List.append_assoc, value?]
    refine (ihl hφ.1.2 hl' hleft f).bind fun g x hfg hx => ?_
    rw [← value?_agrees hfg (hright.mono (List.subset_append_left _ _))]
    refine (ihr hφ.2 hr' (hright.mono (List.subset_append_right _ _)) g).bind fun g' y hgg' hy => ?_
    have hx' : g'.value? v = some x := by
      rw [hgg'.value? fun n t hn hmem => hdisjoint n (hl.operand_name hn) n hmem rfl, hx]
    exact .of_step (j.step?_op (by rw [hl.operand_ty, hr.operand_ty, hφ.1.1]) hx' hy)

end Formula.Coded

theorem Session.Valid.stands (hs : s.Valid) (hp : s.place = some p) : s.Stands p :=
  ⟨hp, hs.sound, hs.placed p hp⟩

theorem Reachable.stands {e : Edition} (he : e.has .functions = true) (hs : Reachable e s)
    (hp : s.place = some p) : s.Stands p := (hs.valid he).stands hp

/-- A session in the middle of a function, where the statement behind the given ones has failed. -/
def Session.within (e : Edition) (body : List Stmt) : Session :=
  ((Gen.node e (Gen.importer e ⟨[], []⟩ 1)
    (.stmt (.fn "main" (some []) (.text "int") (body ++ [.missing])))).run (.start e)).2

/-- Where such a session writes on. -/
def mainEntry : Place := ⟨"main", "main_entry"⟩

theorem Session.within_reachable (e : Edition) (body : List Stmt) : Reachable e (.within e body) :=
  .compile _ _ _ .start

/-- How an operator joins two values of type `t`. -/
def InfixOp.join? (e : Edition) (op : InfixOp) (t : Ty) : Option Join :=
  if t = .i32 then (op.relation?.map .icmp).or ((op.intOp? e).map .binary)
  else if t = .float ∧ e.has .remainders = true then (op.relation?.map .fcmp).or
    (op.floatOp?.map .binary)
  else none

/-- A sign joins a value of type `t` with a number. -/
def PrefixOp.join? : PrefixOp → Ty → Option (Join × Formula)
  | neg, t =>
    if t = .i32 then some (.binary .mul, .int (-1))
    else if t = .float then some (.binary .fmul, .float Gen.minusOne)
    else none
  | not, t => if t = .i32 then some (.binary .xor, .int (-1)) else none

/-- The formula of an expression on numbers of one type, with variables found in scopes. -/
inductive Expr.Means (e : Edition) (c : Chain Binding) : Expr → Formula → Prop
  | int (n : Nat) : Means e c (.int n) (.int n)
  | float (x : Number.Double) : Means e c (.float x) (.float x)
  | ident {y : String} {v : Operand} {t : Ty} (hy : c.find? (.text y) = some ⟨v, t⟩)
    (hv : v.ty = .pointer t) : Means e c (.ident y) (.load v)
  | infixed {l r : Expr} {φ ψ : Formula} {op : InfixOp} {j : Join} (hl : Means e c l φ)
    (hr : Means e c r ψ)
    (hty : φ.ty = ψ.ty) (hj : op.join? e φ.ty = some j) : Means e c (.infixed l op r) (.join j φ ψ)
  | prefixed {x : Expr} {φ ψ : Formula} {op : PrefixOp} {j : Join} (hx : Means e c x φ)
    (hj : op.join? φ.ty = some (j, ψ)) : Means e c (.prefixed op x) (.join j φ ψ)

/-- The end of an operation on two values of type `t`. An operator that does not join them gives no
value, but still a type. -/
def Gen.join (t : Ty) (v w : Operand) : Option Join → Gen Typed
  | some j => do return .of (← emit (j.op v w)) (j.ty t)
  | none => return ⟨none, some t⟩

theorem Session.Stands.join (h : s.Stands p) (t : Ty) (v w : Operand) (j : Join) :
    Gives (Gen.join t v w (some j)) s fun r u =>
      ∃ m, r = .of (.result m (j.ty v.ty)) (j.ty t) ∧ Emitted p s [⟨m, j.op v w⟩] u := by
  refine .bind ((h.emit (j.op_isTerminator v w)).mono ?_)
  rintro _ u ⟨m, rfl, hu⟩
  rw [j.op_ty]
  exact .pure ⟨m, rfl, hu⟩

def Expr.variables : Expr → List String
  | .ident y => [y]
  | .infixed l _ r => l.variables ++ r.variables
  | .prefixed _ x => x.variables
  | _ => []

/-- The slots of the variables have names that the routine `ρ` has given. -/
def Session.Knows (s : Session) (ρ : String) (x : Expr) : Prop :=
  ∀ y ∈ x.variables, ∀ b n t, s.scopes.find? (.text y) = some b → b.value = .result n t →
    n ∈ s.assembly.used ρ

section Joining

variable {e : Edition} {v w : Operand} {t : Ty} {j : Join}

theorem binary_eq_join {b : BinaryOp} (h : v.ty = w.ty) :
    Gen.binary b (some v) (some w) = Gen.emit ((Join.binary b).op v w) := Gen.binary_eq_emit h

theorem infixed_floats (he : e.has .remainders = true) (op : InfixOp) :
    Gen.infixed e op (.of v .float) (.of w .float) =
      match op.relation? with
      | some rel => do return .of (← Gen.compareFloats rel (some v) (some w)) .i1
      | none =>
        match op.floatOp? with
        | some b => do return .of (← Gen.binary b (some v) (some w)) .float
        | none => return ⟨none, some .float⟩ := by
  rw [Gen.infixed, he]
  rfl

theorem infixed_join (op : InfixOp) (ht : t = .i32 ∨ t = .float ∧ e.has .remainders = true)
    (hty : v.ty = w.ty) : Gen.infixed e op (.of v t) (.of w t) = Gen.join t v w (op.join? e t) := by
  rcases ht with rfl | ⟨rfl, he⟩
  · rw [infixed_ints, InfixOp.join?, if_pos rfl]
    cases op.relation? with
    | some rel => rfl
    | none =>
      cases op.intOp? e with
      | none => rfl
      | some b =>
        dsimp only
        rw [binary_eq_join hty]
        rfl
  · rw [infixed_floats he, InfixOp.join?, if_neg Ty.noConfusion, if_pos ⟨rfl, he⟩]
    cases op.relation? with
    | some rel => rfl
    | none =>
      cases op.floatOp? with
      | none => rfl
      | some b =>
        dsimp only
        rw [binary_eq_join hty]
        rfl

theorem InfixOp.join?_type {op : InfixOp} (h : op.join? e t = some j) :
    t = .i32 ∨ t = .float ∧ e.has .remainders = true := by
  rw [join?] at h
  split_ifs at h with hint hfloat
  · exact .inl hint
  · exact .inr hfloat

theorem prefixed_join {op : PrefixOp} {ψ : Formula} (hj : op.join? t = some (j, ψ))
    (hv : v.ty = t) :
    ∃ w, ψ.Coded [] w ∧ w.ty = t ∧ Gen.prefixed op (.of v t) = Gen.join t v w (some j) := by
  cases op with
  | neg =>
    rw [PrefixOp.join?] at hj
    split_ifs at hj with hint hfloat
    · subst hint
      obtain ⟨rfl, rfl⟩ := Prod.mk.inj (Option.some.inj hj)
      refine ⟨_, .int, rfl, ?_⟩
      rw [Gen.join, ← binary_eq_join hv]
      rfl
    · subst hfloat
      obtain ⟨rfl, rfl⟩ := Prod.mk.inj (Option.some.inj hj)
      refine ⟨_, .float, rfl, ?_⟩
      rw [Gen.join, ← binary_eq_join hv]
      rfl
  | not =>
    rw [PrefixOp.join?] at hj
    split_ifs at hj with hint
    subst hint
    obtain ⟨rfl, rfl⟩ := Prod.mk.inj (Option.some.inj hj)
    refine ⟨_, .int, rfl, ?_⟩
    have hcomplement : Gen.complement (some v) = Gen.binary .xor (some v)
        (some (.int .i32 (-1))) := by
      rw [← hv]
      rfl
    rw [Gen.join, ← binary_eq_join hv, ← hcomplement]
    rfl

theorem PrefixOp.join?_ty {op : PrefixOp} {ψ : Formula} (h : op.join? t = some (j, ψ)) :
    ψ.ty = t ∧ ψ.isTyped = true ∧ ψ.pointers = [] := by
  cases op with
  | neg =>
    rw [join?] at h
    split_ifs at h with hint hfloat
    · obtain ⟨rfl, rfl⟩ := Prod.mk.inj (Option.some.inj h)
      exact ⟨hint.symm, rfl, rfl⟩
    · obtain ⟨rfl, rfl⟩ := Prod.mk.inj (Option.some.inj h)
      exact ⟨hfloat.symm, rfl, rfl⟩
  | not =>
    rw [join?] at h
    split_ifs at h with hint
    obtain ⟨rfl, rfl⟩ := Prod.mk.inj (Option.some.inj h)
    exact ⟨hint.symm, rfl, rfl⟩

end Joining

namespace Expr.Means

variable {e : Edition} {c : Chain Binding} {x : Expr} {φ : Formula}

theorem isTyped (h : x.Means e c φ) : φ.isTyped = true := by
  induction h with
  | int | float | ident => rfl
  | infixed _ _ hty _ ihl ihr => simp [Formula.isTyped, hty, ihl, ihr]
  | prefixed _ hj ih =>
    obtain ⟨hty, hψ, -⟩ := PrefixOp.join?_ty hj
    simp [Formula.isTyped, hty, hψ, ih]

/-- An expression with a formula has code for it, and comes with the type of the formula. -/
theorem gives (h : x.Means e c φ) (hc : s.scopes = c) (hs : s.Stands p) :
    Gives (Gen.value e x) s fun r t =>
      ∃ v is, r = .of v φ.ty ∧ φ.Coded is v ∧ Emitted p s is t := by
  induction h generalizing s with
  | int | float =>
    rw [Gen.value]
    exact .pure ⟨_, [], rfl, by constructor, .refl hs.sound⟩
  | @ident y v t hy hv =>
    rw [Gen.value]
    refine .bind_run (run_binding (hc ▸ hy)) (.bind ((hs.load (by rw [hv]; rfl)).mono ?_))
    rintro _ u ⟨m, rfl, hu⟩
    have hty : (Op.load v).ty = t := by rw [Op.ty, hv]
    exact .pure ⟨_, _, by rw [Formula.ty, hty], .load, hu⟩
  | @infixed l r φ ψ op j _ _ hty hj ihl ihr =>
    rw [Gen.value]
    refine .bind ((ihl hc hs).mono ?_)
    rintro _ t ⟨v, is, rfl, hv, ht⟩
    refine .bind ((ihr (ht.scopes.trans hc) (hs.emitted ht)).mono ?_)
    rintro _ u ⟨w, js, rfl, hw, hu⟩
    rw [← hty, infixed_join op (InfixOp.join?_type hj) (by rw [hv.operand_ty, hw.operand_ty, hty]),
      hj]
    refine (((hs.emitted ht).emitted hu).join φ.ty v w j).mono ?_
    rintro _ u' ⟨m, rfl, hu'⟩
    exact ⟨_, _, rfl, .join hv hw, (ht.trans hu).trans hu'⟩
  | @prefixed x φ ψ op j _ hj ih =>
    rw [Gen.value]
    refine .bind ((ih hc hs).mono ?_)
    rintro _ t ⟨v, is, rfl, hv, ht⟩
    obtain ⟨w, hw, -, hprefixed⟩ := prefixed_join hj hv.operand_ty
    rw [hprefixed]
    refine ((hs.emitted ht).join φ.ty v w j).mono ?_
    rintro _ u ⟨m, rfl, hu⟩
    have hall := ht.trans hu
    rw [← List.append_nil is] at hall
    exact ⟨_, _, rfl, .join hv hw, hall⟩

theorem variable_of_pointer (h : x.Means e c φ) {v : Operand} (hv : v ∈ φ.pointers) :
    ∃ y ∈ x.variables, ∃ t, c.find? (.text y) = some ⟨v, t⟩ := by
  induction h with
  | int | float => simp [Formula.pointers] at hv
  | @ident y w t hy _ =>
    obtain rfl := List.mem_singleton.mp hv
    exact ⟨y, List.mem_singleton_self y, t, hy⟩
  | infixed _ _ _ _ ihl ihr =>
    rcases List.mem_append.mp hv with hv | hv
    · obtain ⟨y, hy, hfind⟩ := ihl hv
      exact ⟨y, List.mem_append_left _ hy, hfind⟩
    · obtain ⟨y, hy, hfind⟩ := ihr hv
      exact ⟨y, List.mem_append_right _ hy, hfind⟩
  | prefixed _ hj ih =>
    rw [Formula.pointers, (PrefixOp.join?_ty hj).2.2, List.append_nil] at hv
    exact ih hv

/-- The new names are none that the routine has given before, so the slots stay within reach. -/
theorem delivers {s t : Session} {is : List Instr} {v : Operand} (h : x.Means e s.scopes φ)
    (hknows : s.Knows p.routine x) (hv : φ.Coded is v) (ht : Emitted p s is t) (a : Assembly)
    (f : Frame) : Delivers a f is v (φ.value? a f) := by
  refine hv.delivers h.isTyped ht.appended.taken.nodup (fun n t hn hmem => ?_) f
  obtain ⟨y, hy, u, hfind⟩ := h.variable_of_pointer hn
  exact ht.appended.taken.fresh n hmem (hknows y hy _ n t hfind rfl)

end Expr.Means

end LimeLang
