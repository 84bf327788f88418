import LimeLang.Proofs.Formulas

/-! Types of expressions, by the usual rules, and the types that generated code has for them. They
agree unless an expression denies something: `!=` gives no value, and `!` labels a truth value as an
integer. -/

namespace LimeLang

open Code

variable {op : InfixOp}

inductive Scalar
  | int
  | float
  | bool
deriving DecidableEq

namespace Scalar

def ty : Scalar → Ty
  | int => .i32
  | float => .float
  | bool => .i1

def isNumber : Scalar → Bool
  | int | float => true
  | bool => false

theorem ty_injective {σ τ : Scalar} (h : σ.ty = τ.ty) : σ = τ := by
  cases σ <;> cases τ <;> simp_all [ty, Ty.i32, Ty.i1]

end Scalar

def InfixOp.isTest : InfixOp → Bool
  | lt | gt | le | ge | eq | ne => true
  | _ => false

namespace Expr

/-- The usual typing rules. A variable has the type of its slot. -/
inductive HasType (c : Chain Binding) : Expr → Scalar → Prop
  | int (n : Nat) : HasType c (.int n) .int
  | float (x : Number.Double) : HasType c (.float x) .float
  | bool (b : Bool) : HasType c (.bool b) .bool
  | ident {y : String} {v : Operand} {τ : Scalar} (hy : c.find? (.text y) = some ⟨v, τ.ty⟩)
    (hv : v.ty = .pointer τ.ty) : HasType c (.ident y) τ
  | arithmetic {l r : Expr} {op : InfixOp} {τ : Scalar} (hop : op.isArithmetic = true)
    (hτ : τ.isNumber = true) (hl : HasType c l τ) (hr : HasType c r τ) :
    HasType c (.infixed l op r) τ
  | test {l r : Expr} {op : InfixOp} {τ : Scalar} (hop : op.isTest = true) (hτ : τ.isNumber = true)
    (hl : HasType c l τ) (hr : HasType c r τ) : HasType c (.infixed l op r) .bool
  | neg {x : Expr} {τ : Scalar} (hτ : τ.isNumber = true) (hx : HasType c x τ) :
    HasType c (.prefixed .neg x) τ
  | not {x : Expr} (hx : HasType c x .bool) : HasType c (.prefixed .not x) .bool

def isDenial : Expr → Bool
  | .infixed _ .ne _ => true
  | .prefixed .not _ => true
  | _ => false

/-- What is left without the signs of negation in front. -/
def core : Expr → Expr
  | .prefixed .not x => x.core
  | x => x

end Expr

section Typing

variable {e : Edition} {c : Chain Binding} {x : Expr} {τ : Scalar}

theorem InfixOp.isTest_of_isArithmetic (h : op.isArithmetic = true) : op.isTest = false := by
  cases op <;> simp_all [isArithmetic, isTest]

theorem Expr.HasType.unique {σ : Scalar} (h : x.HasType c σ) (h' : x.HasType c τ) : σ = τ := by
  induction h generalizing τ with
  | int | float | bool =>
    cases h'
    rfl
  | ident hy _ =>
    cases h' with
    | ident hy' _ =>
      rw [hy] at hy'
      exact Scalar.ty_injective (Binding.mk.inj (Option.some.inj hy')).2
  | arithmetic hop _ _ _ ihl _ =>
    cases h' with
    | arithmetic _ _ hl _ => exact ihl hl
    | test hop' => rw [InfixOp.isTest_of_isArithmetic hop] at hop'; cases hop'
  | test hop =>
    cases h' with
    | arithmetic hop' => rw [InfixOp.isTest_of_isArithmetic hop'] at hop; cases hop
    | test => rfl
  | neg _ _ ih =>
    cases h' with
    | neg _ hx => exact ih hx
  | not =>
    cases h'
    rfl

theorem InfixOp.join?_of_isArithmetic (he : e.has .remainders = true)
    (hop : op.isArithmetic = true) (hτ : τ.isNumber = true) :
    ∃ b, op.join? e τ.ty = some (.binary b) := by
  cases τ <;> cases op <;>
    simp_all [Scalar.isNumber, Scalar.ty, isArithmetic, join?, relation?, intOp?, floatOp?, Ty.i32]

theorem InfixOp.join?_of_isTest (he : e.has .remainders = true) (hop : op.isTest = true)
    (hne : op ≠ .ne) (hτ : τ.isNumber = true) :
    ∃ j, op.join? e τ.ty = some j ∧ ∀ t, j.ty t = .i1 := by
  cases τ <;> cases op <;>
    simp_all [Scalar.isNumber, Scalar.ty, isTest, join?, relation?, Ty.i32, Join.ty]

theorem InfixOp.join?_ne (hτ : τ.isNumber = true) : InfixOp.ne.join? e τ.ty = none := by
  cases τ <;> simp_all [Scalar.isNumber, Scalar.ty, join?, relation?, intOp?, floatOp?]

theorem PrefixOp.join?_neg (hτ : τ.isNumber = true) :
    ∃ b ψ, PrefixOp.neg.join? τ.ty = some (.binary b, ψ) := by
  cases τ <;> simp_all [Scalar.isNumber, Scalar.ty, join?, Ty.i32]

theorem Expr.HasType.number (he : e.has .remainders = true) (h : x.HasType c τ)
    (hτ : τ.isNumber = true) : ∃ φ, x.Means e c φ ∧ φ.ty = τ.ty := by
  induction h with
  | int n => exact ⟨_, .int n, rfl⟩
  | float x => exact ⟨_, .float x, rfl⟩
  | bool | test | not => cases hτ
  | ident hy hv => exact ⟨_, .ident hy hv, by rw [Formula.ty, Op.ty, hv]⟩
  | arithmetic hop _ _ _ ihl ihr =>
    obtain ⟨φ, hφ, htl⟩ := ihl hτ
    obtain ⟨ψ, hψ, htr⟩ := ihr hτ
    obtain ⟨b, hb⟩ := InfixOp.join?_of_isArithmetic he hop hτ
    exact ⟨.join (.binary b) φ ψ, .infixed hφ hψ (htl.trans htr.symm) (htl ▸ hb), htl⟩
  | neg _ _ ih =>
    obtain ⟨φ, hφ, hty⟩ := ih hτ
    obtain ⟨b, ψ, hb⟩ := PrefixOp.join?_neg hτ
    exact ⟨.join (.binary b) φ ψ, .prefixed hφ (hty ▸ hb), hty⟩

theorem Expr.HasType.truth (he : e.has .remainders = true) (h : x.HasType c .bool)
    (hx : x.isDenial = false) : (∃ b, x = .bool b) ∨ ∃ φ, x.Means e c φ ∧ φ.ty = .i1 := by
  cases h with
  | bool b => exact .inl ⟨b, rfl⟩
  | ident hy hv => exact .inr ⟨_, .ident hy hv, by rw [Formula.ty, Op.ty, hv]; rfl⟩
  | @test l r op σ hop hσ hl hr =>
    obtain ⟨φ, hφ, htl⟩ := hl.number he hσ
    obtain ⟨ψ, hψ, htr⟩ := hr.number he hσ
    have hne : op ≠ .ne := by
      rintro rfl
      cases hx
    obtain ⟨j, hj, hty⟩ := InfixOp.join?_of_isTest he hop hne hσ
    exact .inr ⟨_, .infixed hφ hψ (htl.trans htr.symm) (htl ▸ hj), hty _⟩
  | arithmetic _ hτ | neg hτ => cases hτ
  | not => cases hx

end Typing

section Values

variable {e : Edition} {s t : Session} {p : Place} {x y l r : Expr} {τ : Scalar}

theorem value_bool (e : Edition) (b : Bool) (s : Session) : ∃ lines,
    (Gen.value e (.bool b)).run s = (.ok (.of (.int .i1 b.toNat) .i1),
      { s with output := lines }) := by
  rw [Gen.value]
  cases e.has .calls with
  | false => exact ⟨s.output, rfl⟩
  | true => exact ⟨_, rfl⟩

/-- Without a denial in front, expressions have values of their types. -/
theorem Expr.HasType.gives (he : e.has .remainders = true) (hs : s.Stands p)
    (h : x.HasType s.scopes τ) (hx : x.isDenial = false) :
    Gives (Gen.value e x) s fun r t => ∃ v, r = .of v τ.ty ∧ v.ty = τ.ty ∧ t.Stands p := by
  have hmeans : ∀ φ, x.Means e s.scopes φ → φ.ty = τ.ty →
      Gives (Gen.value e x) s fun r t => ∃ v, r = .of v τ.ty ∧ v.ty = τ.ty ∧ t.Stands p := by
    intro φ hφ hty
    refine (hφ.gives rfl hs).mono ?_
    rintro _ t ⟨v, is, rfl, hv, ht⟩
    exact ⟨v, by rw [hty], hv.operand_ty.trans hty, hs.emitted ht⟩
  by_cases hτ : τ.isNumber = true
  · obtain ⟨φ, hφ, hty⟩ := h.number he hτ
    exact hmeans φ hφ hty
  · obtain rfl : τ = .bool := by
      cases τ <;> simp_all [Scalar.isNumber]
    rcases h.truth he hx with ⟨b, rfl⟩ | ⟨φ, hφ, hty⟩
    · obtain ⟨lines, hrun⟩ := value_bool e b s
      exact .of_run hrun ⟨_, rfl, rfl, hs.place, hs.sound, hs.block⟩
    · exact hmeans φ hφ hty

theorem inequality_gives (he : e.has .remainders = true) (hs : s.Stands p) (hτ : τ.isNumber = true)
    (hl : l.HasType s.scopes τ) (hr : r.HasType s.scopes τ) :
    Gives (Gen.value e (.infixed l .ne r)) s fun v _ => v = ⟨none, some τ.ty⟩ := by
  obtain ⟨φ, hφ, htl⟩ := hl.number he hτ
  obtain ⟨ψ, hψ, htr⟩ := hr.number he hτ
  rw [Gen.value]
  refine .bind ((hφ.gives rfl hs).mono ?_)
  rintro _ t ⟨v, is, rfl, hv, ht⟩
  refine .bind ((hψ.gives ht.scopes (hs.emitted ht)).mono ?_)
  rintro _ u ⟨w, js, rfl, hw, hu⟩
  have hsides : τ.ty = .i32 ∨ τ.ty = .float ∧ e.has .remainders = true := by
    cases τ <;> simp_all [Scalar.ty, Scalar.isNumber]
  rw [htl, htr, infixed_join .ne hsides (by rw [hv.operand_ty, hw.operand_ty, htl, htr]),
    InfixOp.join?_ne hτ]
  exact .pure rfl

theorem Expr.HasType.run_inequality (he : e.has .remainders = true) (hs : s.Stands p) {σ : Scalar}
    (h : (Expr.infixed l .ne r).HasType s.scopes τ) (hl : l.HasType s.scopes σ) :
    ∃ t, (Gen.value e (.infixed l .ne r)).run s = (.ok ⟨none, some σ.ty⟩, t) := by
  cases h with
  | arithmetic hop => cases hop
  | test _ hσ hl' hr =>
    obtain rfl := hl.unique hl'
    obtain ⟨_, t, hrun, rfl⟩ := inequality_gives he hs hσ hl hr
    exact ⟨t, hrun⟩

theorem negated_bit (hs : s.Stands p) {v : Operand} (hv : v.ty = .i1) (k : Nat) :
    Gives (Gen.prefixed .not (.of v (.int k))) s fun r t =>
      ∃ w, r = .of w .i32 ∧ w.ty = .i1 ∧ t.Stands p := by
  have hnot : Gen.prefixed .not (.of v (.int k)) =
      (do return .of (← Gen.binary .xor (some v) (some (.int v.ty (-1)))) .i32) := rfl
  have hones : v.ty = (Operand.int v.ty (-1)).ty := rfl
  rw [hnot]
  refine .bind ((hs.binary hones).mono ?_)
  rintro _ t ⟨m, rfl, ht⟩
  exact .pure ⟨_, rfl, hv, hs.emitted ht⟩

theorem run_value_not {v : Typed} (h : (Gen.value e y).run s = (.ok v, t)) :
    (Gen.value e (.prefixed .not y)).run s = (Gen.prefixed .not v).run t := by
  rw [Gen.value, Gen.run_bind_of_ok h]

theorem run_value_not_error {f : Failure} (h : (Gen.value e y).run s = (.error f, t)) :
    (Gen.value e (.prefixed .not y)).run s = (.error f, t) := by
  rw [Gen.value, Gen.run_bind, h]

/-- What the negation of an expression gives depends on what is left without the signs in front: a
truth value becomes a bit labelled as an integer, integers that are compared with `!=` are an error,
and of floating point numbers there is a constant. -/
structure Denied (e : Edition) (s : Session) (p : Place) (y : Expr) : Prop where
  bit : y.core.isDenial = false → Gives (Gen.value e (.prefixed .not y)) s fun r t =>
    ∃ v, r = .of v .i32 ∧ v.ty = .i1 ∧ t.Stands p
  ints : ∀ l r, y.core = .infixed l .ne r → l.HasType s.scopes .int →
    ∃ t, (Gen.value e (.prefixed .not y)).run s = (.error .missingOperand, t)
  floats : ∀ l r, y.core = .infixed l .ne r → l.HasType s.scopes .float →
    ∃ t, (Gen.value e (.prefixed .not y)).run s = (.ok (.of (.int .i1 0) .float), t)

theorem Expr.HasType.denied_inner (he : e.has .remainders = true) (hs : s.Stands p)
    (hy : y.HasType s.scopes .bool) (hcore : y.core = y) : Denied e s p y where
  bit h := by
    rw [hcore] at h
    obtain ⟨_, t, hrun, v, rfl, hv, ht⟩ := hy.gives he hs h
    obtain ⟨w, u, hrun', hw⟩ := negated_bit ht hv 1
    exact .of_run ((run_value_not hrun).trans hrun') hw
  ints l r h hl := by
    rw [hcore] at h
    subst h
    obtain ⟨t, hrun⟩ := hy.run_inequality he hs hl
    exact ⟨t, (run_value_not hrun).trans rfl⟩
  floats l r h hl := by
    rw [hcore] at h
    subst h
    obtain ⟨t, hrun⟩ := hy.run_inequality he hs hl
    exact ⟨t, (run_value_not hrun).trans rfl⟩

theorem Denied.not (h : Denied e s p y) : Denied e s p (.prefixed .not y) where
  bit hcore := by
    obtain ⟨_, t, hrun, v, rfl, hv, ht⟩ := h.bit hcore
    obtain ⟨w, u, hrun', hw⟩ := negated_bit ht hv 32
    exact .of_run ((run_value_not hrun).trans hrun') hw
  ints l r hcore hl := by
    obtain ⟨t, hrun⟩ := h.ints l r hcore hl
    exact ⟨t, run_value_not_error hrun⟩
  floats l r hcore hl := by
    obtain ⟨t, hrun⟩ := h.floats l r hcore hl
    exact ⟨t, (run_value_not hrun).trans rfl⟩

theorem Expr.HasType.denied (he : e.has .remainders = true) (hs : s.Stands p)
    (hy : y.HasType s.scopes τ) (hτ : τ = .bool) : Denied e s p y := by
  induction hy with
  | int | float => cases hτ
  | arithmetic _ hσ | neg hσ =>
    subst hτ
    cases hσ
  | bool b => exact (HasType.bool b).denied_inner he hs rfl
  | ident hy hv =>
    subst hτ
    exact (HasType.ident hy hv).denied_inner he hs rfl
  | test hop hσ hl hr => exact (HasType.test hop hσ hl hr).denied_inner he hs rfl
  | not _ ih => exact (ih rfl).not

theorem InfixOp.ne_of_isArithmetic (h : op.isArithmetic = true) : op ≠ .ne := by
  rintro rfl
  cases h

theorem Expr.isDenial_infixed (h : op ≠ .ne) : (Expr.infixed l op r).isDenial = false := by
  cases op <;> simp_all [isDenial]

theorem Expr.HasType.core_cases {c : Chain Binding} (hy : y.HasType c τ) :
    y.core.isDenial = false ∨
      ∃ l r, y.core = .infixed l .ne r ∧ (l.HasType c .int ∨ l.HasType c .float) := by
  induction hy with
  | int | float | bool | ident | neg => exact .inl rfl
  | arithmetic hop => exact .inl (isDenial_infixed (InfixOp.ne_of_isArithmetic hop))
  | @test l r op τ hop hτ hl =>
    by_cases hne : op = .ne
    · subst hne
      refine .inr ⟨l, r, rfl, ?_⟩
      cases τ with
      | int => exact .inl hl
      | float => exact .inr hl
      | bool => cases hτ
    · exact .inl (isDenial_infixed hne)
  | not _ ih => exact ih

theorem Denied.mislabelled (h : Denied e s p y) (hy : y.HasType s.scopes τ) (v : Operand) :
    (Gen.value e (.prefixed .not y)).run s ≠ (.ok (.of v .i1), t) := by
  intro hrun
  rcases hy.core_cases with hcore | ⟨l, r, hcore, hl | hl⟩
  · obtain ⟨_, u, hrun', w, rfl, -⟩ := h.bit hcore
    rw [hrun] at hrun'
    cases hrun'
  · obtain ⟨u, hrun'⟩ := h.ints l r hcore hl
    rw [hrun] at hrun'
    cases hrun'
  · obtain ⟨u, hrun'⟩ := h.floats l r hcore hl
    rw [hrun] at hrun'
    cases hrun'

end Values

/-- An expression with a type has a value of that type, labelled with it, unless `!=` or `!` stands
in front of it. -/
theorem value_of_type_iff {e : Edition} (he : e.has .compoundAssignment = true) {s : Session}
    {p : Place} (hs : s.Stands p) {x : Expr} {τ : Scalar} (hx : x.HasType s.scopes τ) :
    ((∃ v t, (Gen.value e x).run s = (.ok (.of v τ.ty), t) ∧ v.ty = τ.ty) ↔ x.isDenial = false) ∧
    (∀ l r σ, x = .infixed l .ne r → l.HasType s.scopes σ →
      ∃ t, (Gen.value e x).run s = (.ok ⟨none, some σ.ty⟩, t)) ∧
    (∀ y, x = .prefixed .not y → Denied e s p y) := by
  have hrem : e.has .remainders = true := Edition.has_of_since_le (by decide) he
  have hne : ∀ l r σ, x = .infixed l .ne r → l.HasType s.scopes σ →
      ∃ t, (Gen.value e x).run s = (.ok ⟨none, some σ.ty⟩, t) := by
    rintro l r σ rfl hl
    exact hx.run_inequality hrem hs hl
  have hnot : ∀ y, x = .prefixed .not y → Denied e s p y := by
    rintro y rfl
    cases hx with
    | not hy => exact hy.denied hrem hs rfl
  refine ⟨⟨?_, fun h => ?_⟩, hne, hnot⟩
  · rintro ⟨v, t, hrun, hv⟩
    cases hx with
    | int | float | bool | ident | neg => rfl
    | arithmetic hop => exact Expr.isDenial_infixed (InfixOp.ne_of_isArithmetic hop)
    | @test l r op σ _ _ hl =>
      refine Expr.isDenial_infixed ?_
      rintro rfl
      obtain ⟨u, hrun'⟩ := hne l r σ rfl hl
      rw [hrun] at hrun'
      cases hrun'
    | not hy => exact absurd hrun ((hnot _ rfl).mislabelled hy v)
  · obtain ⟨_, t, hrun, v, rfl, hv, -⟩ := hx.gives hrem hs h
    exact ⟨v, t, hrun, hv⟩

namespace NumbersSample

/-- A function with an integer and a floating point number. -/
def session : Session := .within .latest
    [.letVar "n" (.int 7) "int", .letVar "x" (.float Gen.minusOne) "float"]

def bounded : Expr :=
  .infixed (.prefixed .neg (.infixed (.ident "n") .rem (.int 4))) .le
    (.infixed (.ident "n") .sub (.int 9))

/-- Floating point numbers under two signs. -/
def denied : Expr := .prefixed .not
    (.prefixed .not (.infixed (.ident "x") .ne (.prefixed .neg (.ident "x"))))

end NumbersSample

open NumbersSample

theorem value_of_type_iff_sample :
    session.Stands mainEntry ∧ bounded.HasType session.scopes .bool ∧
    denied.HasType session.scopes .bool ∧
    (∃ v t, (Gen.value .latest bounded).run session = (.ok (.of v .i1), t) ∧ v.ty = .i1) ∧
    (∃ t, (Gen.value .latest denied).run session = (.ok (.of (.int .i1 0) .float), t)) := by
  have hstands : session.Stands mainEntry :=
    (Session.within_reachable _ _).stands (Edition.latest_has _) (by decide +kernel)
  have hn : Expr.HasType session.scopes (.ident "n") .int :=
    .ident (v := slotOf ".2") (by decide +kernel) rfl
  have hx : Expr.HasType session.scopes (.ident "x") .float :=
    .ident (v := .result ".4" (.pointer .float)) (by decide +kernel) rfl
  have hbounded : bounded.HasType session.scopes .bool :=
    .test rfl rfl (.neg rfl (.arithmetic rfl rfl hn (.int 4))) (.arithmetic rfl rfl hn (.int 9))
  have hdenied : denied.HasType session.scopes .bool := .not (.not (.test rfl rfl hx (.neg rfl hx)))
  refine ⟨hstands, hbounded, hdenied, ?_, ?_⟩
  · exact (value_of_type_iff (Edition.latest_has _) hstands hbounded).1.mpr rfl
  · exact ((value_of_type_iff (Edition.latest_has _) hstands hdenied).2.2 _ rfl).floats _ _ rfl hx

/-- Two truth values by the rules: an inequality has no value, and a negated equation is labelled as
an integer. -/
theorem denials_mistyped :
    (Expr.infixed (.int 1) .ne (.int 2)).HasType session.scopes .bool ∧
    (∃ t, (Gen.value .latest (.infixed (.int 1) .ne (.int 2))).run
      session = (.ok ⟨none, some .i32⟩, t)) ∧
    (Expr.prefixed .not (.infixed (.int 1) .eq (.int 2))).HasType session.scopes .bool ∧
    (∃ v t, (Gen.value .latest (.prefixed .not (.infixed (.int 1) .eq (.int 2)))).run session =
      (.ok (.of v .i32), t)) := by
  have hstands : session.Stands mainEntry :=
    (Session.within_reachable _ _).stands (Edition.latest_has _) (by decide +kernel)
  have hne : (Expr.infixed (.int 1) .ne (.int 2)).HasType session.scopes .bool :=
    .test rfl rfl (.int 1) (.int 2)
  have heq : (Expr.infixed (.int 1) .eq (.int 2)).HasType session.scopes .bool :=
    .test rfl rfl (.int 1) (.int 2)
  obtain ⟨t, hrun⟩ := hne.run_inequality (Edition.latest_has _) hstands (.int 1)
  obtain ⟨_, u, hrun', v, rfl, -⟩ := (heq.denied (Edition.latest_has _) hstands rfl).bit rfl
  exact ⟨hne, ⟨t, hrun⟩, .not heq, ⟨v, u, hrun'⟩⟩

end LimeLang
