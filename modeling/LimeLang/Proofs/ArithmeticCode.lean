import LimeLang.Proofs.Formulas

/-! The code of integer arithmetic. It is appended to the current block and changes nothing else,
and wherever it runs, it leaves memory as it is and computes with words of 32 bits what the tree
means. -/

namespace LimeLang

open Code

/-- The operators of integer arithmetic in an edition. -/
def Edition.calculates (e : Edition) : InfixOp → Bool
  | .add | .sub | .mul | .div => true
  | .rem => e.has .remainders
  | _ => false

/-- Trees of integer literals and of variables that have integer slots. -/
inductive Expr.Arithmetic (e : Edition) (c : Chain Binding) : Expr → Prop
  | int (n : Nat) : Arithmetic e c (.int n)
  | ident {y n : String} (he : e.has .functions = true)
    (hy : c.find? (.text y) = some ⟨slotOf n, .i32⟩) : Arithmetic e c (.ident y)
  | infixed {l r : Expr} {op : InfixOp} (hop : e.calculates op = true) (hl : Arithmetic e c l)
    (hr : Arithmetic e c r) : Arithmetic e c (.infixed l op r)
  | neg {x : Expr} (he : e.has .compoundAssignment = true) (hx : Arithmetic e c x) :
    Arithmetic e c (.prefixed .neg x)

/-- The slots of the variables hold the words of the store. -/
def Code.Frame.Holds (f : Frame) (c : Chain Binding) (σ : Store) (x : Expr) : Prop :=
  ∀ y ∈ x.variables, ∀ n, c.find? (.text y) = some ⟨slotOf n, .i32⟩ →
    ∃ i, f.values.get? n = some (.slot i) ∧ f.loadSlot? i = some (.int 32 (σ y))

section Operators

variable {e : Edition} {op : InfixOp}

theorem InfixOp.join?_of_calculates (h : e.calculates op = true) :
    ∃ b, op.machineOp? = some b ∧ op.join? e .i32 = some (.binary b) := by
  cases op <;> simp_all [Edition.calculates, machineOp?, join?, relation?, intOp?]

theorem InfixOp.join?_of_isComparison (h : op.isComparison = true) :
    ∃ rel, op.relation? = some rel ∧ op.join? e .i32 = some (.icmp rel) := by
  cases op <;> simp_all [isComparison, join?, relation?]

end Operators

section Meaning

variable {e : Edition} {c : Chain Binding} {x l r : Expr} {op : InfixOp} {f : Frame} {σ : Store}

theorem Code.Frame.Holds.left (h : f.Holds c σ (.infixed l op r)) : f.Holds c σ l :=
  fun y hy => h y (List.mem_append_left _ hy)

theorem Code.Frame.Holds.right (h : f.Holds c σ (.infixed l op r)) : f.Holds c σ r :=
  fun y hy => h y (List.mem_append_right _ hy)

/-- A formula for an expression that gives the words which the expression means. -/
structure Expr.Denoted (e : Edition) (c : Chain Binding) (x : Expr) (φ : Formula) : Prop where
  means : x.Means e c φ
  ty : φ.ty = .i32
  value : ∀ a f σ call w, Code.Frame.Holds f c σ x → x.eval call σ = .done w →
    φ.value? a f = some (.int 32 w)

theorem ofOption_eq_done {α : Type} {o : Option α} {y : α} (h : Outcome.ofOption o = .done y) :
    o = some y := by
  cases o with
  | none => cases h
  | some x => rw [Outcome.done.inj h]

theorem Expr.Arithmetic.denoted (h : x.Arithmetic e c) : ∃ φ, x.Denoted e c φ := by
  induction h with
  | int n =>
    refine ⟨.int n, .int n, rfl, fun a f σ call w _ hw => ?_⟩
    rw [Expr.eval] at hw
    rw [← Outcome.done.inj hw]
    rfl
  | @ident y n _ hy =>
    refine ⟨.load (slotOf n), .ident hy rfl, rfl, fun a f σ call w hf hw => ?_⟩
    rw [Expr.eval] at hw
    obtain ⟨i, hi, hload⟩ := hf y (List.mem_singleton_self y) n hy
    rw [← Outcome.done.inj hw, Formula.value?, Frame.loaded?,
      show f.value? (slotOf n) = some (.slot i) from hi]
    exact hload
  | @infixed l r op hop _ _ ihl ihr =>
    obtain ⟨φ, hφ⟩ := ihl
    obtain ⟨ψ, hψ⟩ := ihr
    obtain ⟨b, hb, hj⟩ := InfixOp.join?_of_calculates hop
    refine ⟨.join (.binary b) φ ψ, .infixed hφ.means hψ.means (hφ.ty.trans hψ.ty.symm) (hφ.ty ▸ hj),
      hφ.ty, ?_⟩
    intro a f σ call w hf hw
    rw [Expr.eval] at hw
    obtain ⟨x, hx, hw⟩ := bind_eq_done hw
    obtain ⟨y, hy, hw⟩ := bind_eq_done hw
    rw [Formula.value?, hφ.value a f σ call x hf.left hx, hψ.value a f σ call y hf.right hy,
      Option.bind_some,
      Option.bind_some, Join.combine?, Value.binary_int, InfixOp.onInts_eq hb, ofOption_eq_done hw]
    rfl
  | neg _ _ ih =>
    obtain ⟨φ, hφ⟩ := ih
    refine ⟨.join (.binary .mul) φ (.int (-1)), .prefixed hφ.means (by rw [hφ.ty]; rfl), hφ.ty, ?_⟩
    intro a f σ call w hf hw
    rw [Expr.eval] at hw
    obtain ⟨x, hx, hw⟩ := bind_eq_done hw
    have hmul : InfixOp.mul.machineOp? = some .mul := rfl
    rw [Formula.value?, hφ.value a f σ call x hf hx, Option.bind_some, Formula.value?,
      Option.bind_some,
      Join.combine?, Value.binary_int, InfixOp.onInts_eq hmul, InfixOp.compute?_mul_minus_one,
      ← Outcome.done.inj hw]
    rfl

theorem comparison_denoted (hl : l.Arithmetic e c) (hr : r.Arithmetic e c)
    (hop : op.isComparison = true) : ∃ φ, (Expr.infixed l op r).Means e c φ ∧ φ.ty = .i1 ∧
      ∀ a f σ call b, Code.Frame.Holds f c σ (.infixed l op r) →
        (Expr.infixed l op r).test call σ = .done b → φ.value? a f = some (.ofBool b) := by
  obtain ⟨φ, hφ⟩ := hl.denoted
  obtain ⟨ψ, hψ⟩ := hr.denoted
  obtain ⟨rel, hrel, hj⟩ := InfixOp.join?_of_isComparison (e := e) hop
  refine ⟨.join (.icmp rel) φ ψ, .infixed hφ.means hψ.means (hφ.ty.trans hψ.ty.symm) (hφ.ty ▸ hj),
    rfl, ?_⟩
  intro a f σ call b hf hb
  rw [Expr.test] at hb
  obtain ⟨x, hx, hb⟩ := bind_eq_done hb
  obtain ⟨y, hy, hb⟩ := bind_eq_done hb
  rw [InfixOp.holds_eq hrel] at hb
  rw [Formula.value?, hφ.value a f σ call x hf.left hx, hψ.value a f σ call y hf.right hy,
    Option.bind_some,
    Option.bind_some, Join.combine?, Value.icmp_int, Option.some.inj (ofOption_eq_done hb)]

end Meaning

/-- The code of an expression goes to the end of the block at `p` and gives a value of type `t`.
Wherever it runs, with slots that the routine knows, it leaves memory as it is, and the value is one
that the expression means for the words in the slots. -/
def Session.Calculates (e : Edition) (s : Session) (p : Place) (x : Expr) (t : Ty)
    (means : Store → Value → Prop) : Prop :=
  ∃ v is u, (Gen.value e x).run s = (.ok (.of v t), u) ∧ v.ty = t ∧ Emitted p s is u ∧
    (s.Knows p.routine x → ∀ a f σ y, Code.Frame.Holds f s.scopes σ x → means σ y →
      ∃ g, Executes a is f (some g) ∧ g.slots = f.slots ∧ g.value? v = some y)

theorem Expr.Means.calculates {e : Edition} {s : Session} {p : Place} {x : Expr} {φ : Formula}
    {means : Store → Value → Prop} (h : x.Means e s.scopes φ) (hs : s.Stands p)
    (hvalue : ∀ a f σ y, Code.Frame.Holds f s.scopes σ x → means σ y → φ.value? a f = some y) :
    s.Calculates e p x φ.ty means := by
  obtain ⟨_, u, hrun, v, is, rfl, hv, hu⟩ := h.gives rfl hs
  refine ⟨v, is, u, hrun, hv.operand_ty, hu, fun hknows a f σ y hf hy => ?_⟩
  have hd := h.delivers hknows hv hu a f
  rw [hvalue a f σ y hf hy] at hd
  obtain ⟨g, hg, hfg, hgv⟩ := hd
  exact ⟨g, hg ▸ executes_through hv.isStraight f, hfg.slots, hgv⟩

theorem arithmetic_computed {e : Edition} {s : Session} {p : Place} (hs : s.Stands p)
    (call : String → List Word → Outcome Word) :
    (∀ x : Expr, x.Arithmetic e s.scopes →
      s.Calculates e p x .i32 fun σ y => ∃ w, x.eval call σ = .done w ∧ y = .int 32 w) ∧
    (e.has .conditions = true → ∀ (l : Expr) (op : InfixOp) (r : Expr), l.Arithmetic e s.scopes →
      r.Arithmetic e s.scopes → op.isComparison = true →
      s.Calculates e p (.infixed l op r) .i1 fun σ y =>
        ∃ b, (Expr.infixed l op r).test call σ = .done b ∧ y = .ofBool b) := by
  refine ⟨fun x hx => ?_, fun _ l op r hl hr hop => ?_⟩
  · obtain ⟨φ, hφ⟩ := hx.denoted
    rw [← hφ.ty]
    refine hφ.means.calculates hs ?_
    rintro a f σ _ hf ⟨w, hw, rfl⟩
    exact hφ.value a f σ call w hf hw
  · obtain ⟨φ, hφ, hty, hvalue⟩ := comparison_denoted hl hr hop
    rw [← hty]
    refine hφ.calculates hs ?_
    rintro a f σ _ hf ⟨b, hb, rfl⟩
    exact hvalue a f σ call b hf hb

namespace ArithmeticSample

/-- A function with one variable, seven. -/
def session : Session := .within .latest [.letVar "a" (.int 7) "int"]

/-- A literal that does not fit in a word, a negative factor and a remainder. -/
def tree : Expr :=
  .infixed (.infixed (.infixed (.ident "a") .mul (.prefixed .neg (.int 3))) .sub (.int 4294967297))
    .rem (.ident "a")

def frame : Frame := ⟨[(".2", .slot 0)], #[some (.int 32 7)]⟩

def store : Store := fun _ => 7

def noCalls : String → List Word → Outcome Word := fun _ _ => .stuck

end ArithmeticSample

open ArithmeticSample

theorem arithmetic_computed_remainder :
    session.Stands mainEntry ∧ tree.Arithmetic .latest session.scopes ∧ session.Knows "main" tree ∧
    frame.Holds session.scopes store tree ∧ tree.eval noCalls store = .done (-1) ∧
    ∃ v is u g, (Gen.value .latest tree).run session = (.ok (.of v .i32), u) ∧
      Emitted mainEntry session is u ∧
      Executes u.assembly is frame (some g) ∧ g.slots = frame.slots ∧
        g.value? v = some (.int 32 (-1)) := by
  have hstands : session.Stands mainEntry :=
    (Session.within_reachable _ _).stands (Edition.latest_has _) (by decide +kernel)
  have hfind : session.scopes.find? (.text "a") = some ⟨slotOf ".2", .i32⟩ := by decide +kernel
  have hvar : Expr.Arithmetic .latest session.scopes (.ident "a") :=
    .ident (Edition.latest_has _) hfind
  have htree : tree.Arithmetic .latest session.scopes :=
    .infixed rfl (.infixed rfl (.infixed rfl hvar (.neg (Edition.latest_has _) (.int 3))) (.int _))
      hvar
  have hvariables : ∀ y ∈ tree.variables, y = "a" := by simp [tree, Expr.variables]
  have hknows : session.Knows "main" tree := by
    intro y hy b n t hb hn
    rw [hvariables y hy, hfind] at hb
    obtain rfl := Option.some.inj hb
    obtain ⟨rfl, -⟩ := Operand.result.inj hn
    decide +kernel
  have hholds : frame.Holds session.scopes store tree := by
    intro y hy n hn
    rw [hvariables y hy, hfind] at hn
    obtain ⟨rfl, -⟩ := Operand.result.inj (Binding.mk.inj (Option.some.inj hn)).1
    exact ⟨0, rfl, rfl⟩
  have heval : tree.eval noCalls store = .done (-1) := by decide +kernel
  refine ⟨hstands, htree, hknows, hholds, heval, ?_⟩
  obtain ⟨v, is, u, hrun, -, hemitted, hexec⟩ := (arithmetic_computed hstands noCalls).1 tree htree
  obtain ⟨g, hg, hslots, hvalue⟩ := hexec hknows u.assembly frame store _ hholds ⟨_, heval, rfl⟩
  exact ⟨v, is, u, g, hrun, hemitted, hg, hslots, hvalue⟩

end LimeLang
