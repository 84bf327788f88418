import LimeLang.Proofs.ValueInversion

/-! An assignment with an operator, and a step, lead to the memory of the plain assignment that they
stand for. The code differs: the plain assignment loads its variable first, and once more before it
stores. -/

namespace LimeLang

open Code

/-- The operand is not the result of one of these instructions. -/
def Code.Operand.Avoids (q : Operand) (is : List Instr) : Prop :=
  ∀ n t, q = .result n t → n ∉ is.map Instr.name

/-- What storing a value leaves in memory. -/
def Code.Frame.stored? (f : Frame) (q : Operand) (x : Value) : Option (Array (Option Value)) := do
  match ← f.value? q with
  | .slot n => (f.storeSlot? n x).map Frame.slots
  | _ => none

/-- The instructions are straight and end in a store of the value at `q`. Without a value they get
stuck. -/
structure Stores (a : Assembly) (f : Frame) (is : List Instr) (q : Operand) (o : Option Value) :
    Prop where
  straight : ∀ i ∈ is, i.op.isStraight = true
  memory : (f.through? a is).map Frame.slots = o.bind (f.stored? q)

namespace StepOp

def sign : StepOp → String
  | increment => "+="
  | decrement => "-="

def infixOp : StepOp → InfixOp
  | increment => .add
  | decrement => .sub

theorem ofAssignment?_sign (op : StepOp) : InfixOp.ofAssignment? op.sign = some op.infixOp := by
  cases op <;> rfl

end StepOp

namespace Scalar

def one : Scalar → Expr
  | float => .float Gen.one
  | _ => .int 1

def oneOperand : Scalar → Operand
  | float => .float Gen.one
  | _ => .int .i32 1

theorem one_means {τ : Scalar} (hτ : τ.isNumber = true) (e : Edition) (c : Chain Binding) :
    ∃ φ, τ.one.Means e c φ ∧ φ.ty = τ.ty := by
  cases τ with
  | int => exact ⟨_, .int 1, rfl⟩
  | float => exact ⟨_, .float Gen.one, rfl⟩
  | bool => cases hτ

end Scalar

section Storing

variable {a : Assembly} {f g : Frame} {is js : List Instr} {q v : Operand} {k j m : String}
  {x : Value} {o : Option Value}

theorem Code.Operand.Avoids.left (h : q.Avoids (is ++ js)) : q.Avoids is := by
  intro n t hn hmem
  refine h n t hn ?_
  rw [List.map_append]
  exact List.mem_append_left _ hmem

theorem step?_store (hv : f.value? v = some x) :
    (f.step? a ⟨m, .store v q⟩).map Frame.slots = f.stored? q x := by
  simp only [Frame.step?, Frame.stored?, hv, Option.bind_eq_bind, Option.bind_some]
  cases f.value? q with
  | none => rfl
  | some y => cases y <;> rfl

theorem loaded?_agrees (h : Agrees (is.map Instr.name) f g) (hq : q.Avoids is) :
    g.loaded? a q = f.loaded? a q := by
  have hload : (Formula.load q).Avoids (is.map Instr.name) :=
    fun n t hn => hq n t (List.mem_singleton.mp hn).symm
  exact Formula.value?_agrees h hload

theorem stored?_agrees (h : Agrees (is.map Instr.name) f g) (hq : q.Avoids is) :
    g.stored? q x = f.stored? q x := by
  rw [Frame.stored?, Frame.stored?, h.value? hq]
  cases f.value? q with
  | none => rfl
  | some y =>
    cases y with
    | slot n =>
      simp only [Option.bind_eq_bind, Option.bind_some, Frame.storeSlot?, h.slots]
      split_ifs <;> rfl
    | _ => rfl

namespace Delivers

theorem andLoad (h : Delivers a f is v o) (hq : q.Avoids is) (hv : v.Avoids [⟨k, .load q⟩]) :
    Delivers a f (is ++ [⟨k, .load q⟩]) v (o.bind fun y => (f.loaded? a q).map fun _ => y) := by
  refine h.bind fun g y hfg hy => ?_
  rw [← loaded?_agrees hfg hq]
  have hload : Delivers a g [⟨k, .load q⟩] (.result k .i32) (g.loaded? a q) := .load q k
  cases hx : g.loaded? a q with
  | none =>
    rw [hx] at hload
    exact hload
  | some x =>
    rw [hx] at hload
    obtain ⟨g', hg', hgg', -⟩ := hload
    exact ⟨g', hg', hgg', (hgg'.value? hv).trans hy⟩

theorem update {b : BinaryOp} (h : Delivers a f is v o) (hq : q.Avoids is)
    (hv : v.Avoids [⟨k, .load q⟩]) :
    Delivers a f (is ++ [⟨k, .load q⟩, ⟨j, .binary b (.result k v.ty) v⟩]) (.result j v.ty)
      (o.bind fun y => (f.loaded? a q).bind fun x => x.binary b y) := by
  refine h.bind fun g y hfg hy => ?_
  rw [← loaded?_agrees hfg hq]
  have hload : Delivers a g [⟨k, .load q⟩] (.result k v.ty) (g.loaded? a q) := .load q k
  exact hload.bind fun g' x hgg' hx =>
    .of_step ((Join.binary b).step?_op rfl hx ((hgg'.value? hv).trans hy))

theorem stores (h : Delivers a f is v o) (hstraight : ∀ i ∈ is, i.op.isStraight = true)
    (hq : q.Avoids is) : Stores a f (is ++ [⟨m, .store v q⟩]) q o where
  straight := List.forall_mem_append.mpr ⟨hstraight, by simp [Op.isStraight]⟩
  memory := by
    rw [Frame.through?_append]
    cases o with
    | none =>
      rw [show f.through? a is = none from h]
      rfl
    | some x =>
      obtain ⟨g, hg, hfg, hv⟩ := h
      rw [hg, Option.bind_some, Option.bind_some, Frame.through?_singleton, step?_store hv,
        stored?_agrees hfg hq]

end Delivers

end Storing

section Emission

variable {e : Edition} {s t : Session} {p : Place} {q v : Operand} {τ : Scalar} {sign x : String}
  {y : Expr} {op : InfixOp} {φ : Formula} {is js : List Instr}

theorem InfixOp.assignOp?_of_sign (he : e.has .remainders = true)
    (ho : ofAssignment? sign = some op)
    (hτ : τ.isNumber = true) : ∃ onInts onFloats,
      Gen.assignOp? (.text sign) = some (onInts, onFloats) ∧
      sign ≠ "=" ∧ op.join? e τ.ty = some (.binary (if τ = .int then onInts else onFloats)) := by
  rw [ofAssignment?.eq_def] at ho
  split at ho <;> cases ho
  all_goals
    refine ⟨_, _, rfl, by decide, ?_⟩
    cases τ <;> simp_all [join?, relation?, intOp?, floatOp?, Scalar.ty, Scalar.isNumber, Ty.i32]

/-- Both sides have the type of the slot, so nothing is converted. -/
theorem updateVar_number (hs : s.Stands p) (hq : q.ty = .pointer τ.ty) (hτ : τ.isNumber = true)
    {Q : Unit → Session → Prop} (l : Literal)
    (h : ∀ k t, Emitted p s [⟨k, .load q⟩] t →
      Gives (Gen.storeUpdated l ⟨q, τ.ty⟩ (.of v τ.ty) (.result k τ.ty) (some v)) t Q) :
    Gives (Gen.updateVar l ⟨q, τ.ty⟩ (.of v τ.ty)) s Q := by
  rw [Gen.updateVar_eq]
  refine .bind ((hs.load (by rw [hq]; rfl)).mono ?_)
  rintro _ t ⟨k, rfl, ht⟩
  have hload : (Op.load q).ty = τ.ty := by rw [Op.ty, hq]
  rw [hload]
  have hstore := h k t ht
  cases τ with
  | int => exact hstore
  | float => exact hstore
  | bool => cases hτ

theorem updateVar_plain (hs : s.Stands p) (hq : q.ty = .pointer τ.ty) (hτ : τ.isNumber = true)
    (hv : v.ty = τ.ty) : Gives (Gen.updateVar plainAssign ⟨q, τ.ty⟩ (.of v τ.ty)) s fun _ t =>
      ∃ k m, Emitted p s [⟨k, .load q⟩, ⟨m, .store v q⟩] t := by
  refine updateVar_number hs hq hτ _ fun k t ht => ?_
  rw [Gen.storeUpdated, if_pos rfl]
  refine ((hs.emitted ht).store (hv ▸ hq)).mono ?_
  rintro _ u ⟨m, hu⟩
  exact ⟨k, m, ht.trans hu⟩

theorem updateVar_compound (he : e.has .remainders = true) (hs : s.Stands p)
    (hq : q.ty = .pointer τ.ty)
    (hτ : τ.isNumber = true) (hv : v.ty = τ.ty) (ho : InfixOp.ofAssignment? sign = some op) :
    Gives (Gen.updateVar (.text sign) ⟨q, τ.ty⟩ (.of v τ.ty)) s fun _ t =>
      ∃ b k j m, op.join? e τ.ty = some (.binary b) ∧
        Emitted p s [⟨k, .load q⟩, ⟨j, .binary b (.result k v.ty) v⟩,
          ⟨m, .store (.result j v.ty) q⟩] t := by
  obtain ⟨onInts, onFloats, hassign, hne, hjoin⟩ := InfixOp.assignOp?_of_sign he ho hτ
  refine updateVar_number hs hq hτ _ fun k t ht => ?_
  have hplain : Literal.text sign ≠ plainAssign := by simpa [plainAssign] using hne
  have hop : (if (Operand.result k τ.ty).ty.isInt &&
      (Typed.of v τ.ty).isInt then onInts else onFloats) =
      if τ = .int then onInts else onFloats := by
    cases τ <;> simp_all [Scalar.ty, Scalar.isNumber, Typed.of, Typed.isInt, Ty.isInt, Ty.i32,
      Operand.ty]
  have hsides : (Operand.result k τ.ty).ty = v.ty := hv.symm
  simp only [Gen.storeUpdated, if_neg hplain, hassign, hop]
  refine .bind (((hs.emitted ht).binary hsides).mono ?_)
  rintro _ u ⟨j, rfl, hu⟩
  have hstore : q.ty = .pointer (Operand.result j τ.ty).ty := hq
  refine (((hs.emitted ht).emitted hu).store hstore).mono ?_
  rintro _ w ⟨m, hw⟩
  rw [hv]
  exact ⟨_, k, j, m, hjoin, (ht.trans hu).trans hw⟩

theorem Session.Knows.avoids (h : s.Knows p.routine (.ident x))
    (hx : s.scopes.find? (.text x) = some ⟨q, τ.ty⟩) (ht : Emitted p s is t) : q.Avoids is := by
  intro n u hn hmem
  exact ht.appended.taken.fresh n hmem (h x (List.mem_singleton_self x) _ n u hx hn)

theorem Formula.Coded.avoids (hv : φ.Coded is v) (ht : Emitted p s (is ++ js) t) : v.Avoids js := by
  intro n u hn hmem
  have hnodup := ht.appended.taken.nodup
  rw [List.map_append] at hnodup
  exact (List.nodup_append.mp hnodup).2.2 n (hv.operand_name hn) n hmem rfl

variable (importer : String → Gen Unit)

theorem assign_gives_of (he : e.has .compoundAssignment = true) (hs : s.Stands p)
    (hx : s.scopes.find? (.text x) = some ⟨q, τ.ty⟩) (hy : y.Means e s.scopes φ) (hφ : φ.ty = τ.ty)
    {l : Literal}
    {Q : Unit → Session → Prop} (h : ∀ v is t, v.ty = τ.ty → φ.Coded is v → Emitted p s is t →
      Gives (Gen.updateVar l ⟨q, τ.ty⟩ (.of v τ.ty)) t Q) :
    Gives (Gen.statement e importer (.assign (.text x) l y)) s Q := by
  have hlookup : (Gen.lookup (.text x)).run s = (.ok (some ⟨q, τ.ty⟩), s) := by
    rw [← hx]
    rfl
  rw [Gen.statement, if_pos he]
  refine .bind_run hlookup (.bind ((hy.gives rfl hs).mono ?_))
  rintro _ t ⟨v, is, rfl, hv, ht⟩
  rw [hφ]
  exact h v is t (hv.operand_ty.trans hφ) hv ht

theorem plain_gives (he : e.has .compoundAssignment = true) (hs : s.Stands p)
    (hx : s.scopes.find? (.text x) = some ⟨q, τ.ty⟩) (hq : q.ty = .pointer τ.ty)
    (hτ : τ.isNumber = true) (hy : y.Means e s.scopes φ) (hφ : φ.ty = τ.ty) :
    Gives (Gen.statement e importer (.assign (.text x) plainAssign y)) s fun _ t =>
      ∃ is, Emitted p s is t ∧ (s.Knows p.routine (.ident x) → s.Knows p.routine y → ∀ a f,
        Stores a f is q ((φ.value? a f).bind fun z => (f.loaded? a q).map fun _ => z)) := by
  refine assign_gives_of importer he hs hx hy hφ fun v is t hvty hv ht => ?_
  refine (updateVar_plain (hs.emitted ht) hq hτ hvty).mono ?_
  rintro _ u ⟨k, m, hu⟩
  have hall : Emitted p s (is ++ [⟨k, .load q⟩] ++ [⟨m, .store v q⟩]) u := by
    rw [List.append_assoc]
    exact ht.trans hu
  refine ⟨_, hall, fun hkx hky a f => ?_⟩
  have hload := (hy.delivers hky hv ht a f).andLoad (k := k) (hkx.avoids hx ht)
    (hv.avoids (ht.trans hu)).left
  have hstraight : ∀ i ∈ is ++ [⟨k, .load q⟩], i.op.isStraight = true :=
    List.forall_mem_append.mpr ⟨hv.isStraight, by simp [Op.isStraight]⟩
  exact hload.stores hstraight (hkx.avoids hx hall).left

theorem compound_gives (he : e.has .compoundAssignment = true) (hs : s.Stands p)
    (hx : s.scopes.find? (.text x) = some ⟨q, τ.ty⟩) (hq : q.ty = .pointer τ.ty)
    (hτ : τ.isNumber = true)
    (hy : y.Means e s.scopes φ) (hφ : φ.ty = τ.ty) (ho : InfixOp.ofAssignment? sign = some op) :
    Gives (Gen.statement e importer (.assign (.text x) (.text sign) y)) s fun _ t =>
      ∃ b is, op.join? e τ.ty = some (.binary b) ∧ Emitted p s is t ∧
        (s.Knows p.routine (.ident x) → s.Knows p.routine y → ∀ a f,
          Stores a f is q ((φ.value? a f).bind fun z => (f.loaded? a q).bind fun w =>
            w.binary b z)) := by
  have hrem : e.has .remainders = true := Edition.has_of_since_le (by decide) he
  refine assign_gives_of importer he hs hx hy hφ fun v is t hvty hv ht => ?_
  refine (updateVar_compound hrem (hs.emitted ht) hq hτ hvty ho).mono ?_
  rintro _ u ⟨b, k, j, m, hjoin, hu⟩
  have hall : Emitted p s (is ++ [⟨k, .load q⟩, ⟨j, .binary b (.result k v.ty) v⟩] ++
      [⟨m, .store (.result j v.ty) q⟩]) u := by
    rw [List.append_assoc]
    exact ht.trans hu
  refine ⟨b, _, hjoin, hall, fun hkx hky a f => ?_⟩
  have hload : v.Avoids ([⟨k, .load q⟩] ++ _) := hv.avoids (ht.trans hu)
  have hupdate := (hy.delivers hky hv ht a f).update (j := j) (b := b) (hkx.avoids hx ht) hload.left
  have hstraight : ∀ i ∈ is ++ [⟨k, .load q⟩, ⟨j, .binary b (.result k v.ty) v⟩],
      i.op.isStraight = true :=
    List.forall_mem_append.mpr ⟨hv.isStraight, by simp [Op.isStraight]⟩
  exact hupdate.stores hstraight (hkx.avoids hx hall).left

theorem run_step (hs : s.Stands p) (hx : s.scopes.find? (.text x) = some ⟨q, τ.ty⟩)
    (hq : q.ty = .pointer τ.ty) (hτ : τ.isNumber = true) (op : StepOp) :
    (Gen.step op (.ident x)).run s =
      (Gen.updateVar (.text op.sign) ⟨q, τ.ty⟩ (.of τ.oneOperand τ.ty)).run s := by
  have hlookup : (Gen.lookup (.text x)).run s = (.ok (some ⟨q, τ.ty⟩), s) := by
    rw [← hx]
    rfl
  have hnamed : (Gen.named (.ident x)).run s = (.ok (.text x), s) := rfl
  obtain ⟨_, t, hload, k, rfl, -⟩ := hs.load (v := q) (by rw [hq]; rfl)
  have hold : (Op.load q).ty = τ.ty := by rw [Op.ty, hq]
  rw [hold] at hload
  rw [Gen.updateVar_eq, Gen.run_bind_of_ok hload]
  refine (Gen.run_bind_of_ok hnamed).trans
    ((Gen.run_bind_of_ok hlookup).trans ((Gen.run_bind_of_ok hload).trans ?_))
  cases τ with
  | int => cases op <;> rfl
  | float => cases op <;> rfl
  | bool => cases hτ

theorem run_stepped (he : e.has .compoundAssignment = true) (hs : s.Stands p)
    (hx : s.scopes.find? (.text x) = some ⟨q, τ.ty⟩) (hq : q.ty = .pointer τ.ty)
    (hτ : τ.isNumber = true)
    (op : StepOp) : (Gen.statement e importer (.expr (.stepped (.ident x) op))).run s =
      (Gen.statement e importer (.assign (.text x) (.text op.sign) τ.one)).run s := by
  have hlookup : (Gen.lookup (.text x)).run s = (.ok (some ⟨q, τ.ty⟩), s) := by
    rw [← hx]
    rfl
  rw [Gen.statement, Gen.effect, run_step hs hx hq hτ, Gen.statement, if_pos he,
    Gen.run_bind_of_ok hlookup]
  cases τ with
  | int => rfl
  | float => rfl
  | bool => cases hτ

end Emission

/-- The plain assignment of an operation stores what the update stores. -/
theorem value?_update (a : Assembly) (f : Frame) (q : Operand) (φ : Formula) (b : BinaryOp) :
    ((Formula.join (.binary b) (.load q) φ).value? a f).bind (fun z => (f.loaded? a q).map fun _ =>
      z) = (φ.value? a f).bind fun z => (f.loaded? a q).bind fun w => w.binary b z := by
  simp only [Formula.value?, Join.combine?]
  cases f.loaded? a q with
  | none => cases φ.value? a f <;> rfl
  | some w => simp

/-- Both statements only append code at `p`. Where the slots of these variables belong to the
routine, the two pieces of code lead from any frame to the same memory, or both get stuck. -/
def Session.SameEffect (s : Session) (e : Edition) (importer : String → Gen Unit) (p : Place)
    (x : Expr) (first second : Stmt) : Prop :=
  ∃ is js t u, (Gen.statement e importer first).run s = (.ok (), t) ∧ Emitted p s is t ∧
    (Gen.statement e importer second).run s = (.ok (), u) ∧ Emitted p s js u ∧
    (s.Knows p.routine x → ∀ (a : Assembly) (f : Frame), ∃ o o', Executes a is f o ∧
      Executes a js f o' ∧ o.map Frame.slots = o'.map Frame.slots)

theorem compound_assignment_agrees {e : Edition} (he : e.has .compoundAssignment = true)
    {s : Session}
    (hs : Reachable e s) {p : Place} (hp : s.place = some p) (importer : String →
      Gen Unit) {x : String}
    {b : Binding} (hx : s.scopes.find? (.text x) = some b) {τ : Scalar} (hτ : τ.isNumber = true)
    (hb : b.value.ty = .pointer τ.ty) :
    (∀ y v t, Expr.CallFree y → (Gen.value e y).run s = (.ok (.of v τ.ty), t) → v.ty = τ.ty →
      ∀ sign op, InfixOp.ofAssignment? sign = some op →
        s.SameEffect e importer p (.infixed (.ident x) op y) (.assign (.text x) (.text sign) y)
          (.assign (.text x) plainAssign (.infixed (.ident x) op y))) ∧
    ∀ op : StepOp, s.SameEffect e importer p (.ident x) (.expr (.stepped (.ident x) op))
      (.assign (.text x) (.text op.sign) τ.one) := by
  have hvalid := hs.valid (Edition.has_of_since_le (by decide) he)
  have hstands := hvalid.stands hp
  obtain ⟨n, rfl⟩ := hvalid.number hx hτ hb
  refine ⟨fun y v t hy hrun hv sign op ho => ?_, fun op => ?_⟩
  · obtain ⟨-, φ, hφ, hφty⟩ := hy.means hvalid hp hrun rfl hτ hv
    obtain ⟨_, t₁, hrun₁, b, is, hjoin, his, hstores₁⟩ :=
      compound_gives importer he hstands hx hb hτ hφ hφty ho
    have hwhole : (Expr.infixed (.ident x) op y).Means e s.scopes (.join (.binary b) (.load _) φ) :=
      .infixed (.ident hx rfl) hφ hφty.symm hjoin
    obtain ⟨_, t₂, hrun₂, js, hjs, hstores₂⟩ := plain_gives importer he hstands hx hb hτ hwhole rfl
    refine ⟨is, js, t₁, t₂, hrun₁, his, hrun₂, hjs, fun hknows a f => ?_⟩
    have hkx : s.Knows p.routine (.ident x) := fun z hz => hknows z (List.mem_append_left _ hz)
    have hky : s.Knows p.routine y := fun z hz => hknows z (List.mem_append_right _ hz)
    have hs₁ := hstores₁ hkx hky a f
    have hs₂ := hstores₂ hkx hknows a f
    refine ⟨_, _, executes_through hs₁.straight f, executes_through hs₂.straight f, ?_⟩
    -- the operands are computed in another order, but neither computation writes to memory
    rw [hs₁.memory, hs₂.memory, value?_update]
  · obtain ⟨φ, hφ, hφty⟩ := τ.one_means hτ e s.scopes
    obtain ⟨_, t, hrun, b, is, -, his, hstores⟩ :=
      compound_gives importer he hstands hx hb hτ hφ hφty op.ofAssignment?_sign
    refine ⟨is, is, t, t, (run_stepped importer he hstands hx hb hτ op).trans hrun, his, hrun, his,
      ?_⟩
    intro hkx a f
    have hone : s.Knows p.routine τ.one := by
      intro z hz
      cases τ <;> cases hz
    have hs := hstores hkx hone a f
    exact ⟨_, _, executes_through hs.straight f, executes_through hs.straight f, rfl⟩

namespace UpdateSample

def noImports : String → Gen Unit := fun _ => pure ()

/-- Three times the variable, as something to take from it. -/
def tripled : Expr := .infixed (.ident "n") .mul (.int 3)

end UpdateSample

open UpdateSample NumbersSample

theorem compound_assignment_agrees_sample :
    Reachable .latest session ∧ session.place = some mainEntry ∧
    session.Knows "main" (.infixed (.ident "n") .sub tripled) ∧
    session.SameEffect .latest noImports mainEntry (.infixed (.ident "n") .sub tripled)
      (.assign (.text "n") (.text "-=") tripled)
      (.assign (.text "n") plainAssign (.infixed (.ident "n") .sub tripled)) ∧
    session.SameEffect .latest noImports mainEntry (.ident "x")
      (.expr (.stepped (.ident "x") .decrement))
      (.assign (.text "x") (.text "-=") (.float Gen.one)) := by
  have hplace : session.place = some mainEntry := by decide +kernel
  have hreach : Reachable .latest session := Session.within_reachable _ _
  have hn : session.scopes.find? (.text "n") = some ⟨slotOf ".2", .i32⟩ := by decide +kernel
  have hx : session.scopes.find? (.text "x") = some ⟨.result ".4" (.pointer .float),
    .float⟩ := by decide +kernel
  have hknows : session.Knows "main" (.infixed (.ident "n") .sub tripled) := by
    have hvariables : ∀ y ∈ (Expr.infixed (.ident "n") .sub tripled).variables, y = "n" := by
      simp [tripled, Expr.variables]
    intro y hy b n t hb hslot
    rw [hvariables y hy, hn] at hb
    obtain rfl := Option.some.inj hb
    obtain ⟨rfl, -⟩ := Operand.result.inj hslot
    decide +kernel
  have htripled : tripled.Means .latest session.scopes _ :=
    .infixed (.ident hn rfl) (.int 3) rfl rfl
  obtain ⟨_, t, hrun, v, is, rfl, hv, -⟩ :=
    htripled.gives rfl (hreach.stands (Edition.latest_has _) hplace)
  refine ⟨hreach, hplace, hknows, ?_, ?_⟩
  · exact (compound_assignment_agrees (τ := .int) (Edition.latest_has _) hreach hplace noImports hn
      rfl rfl).1 tripled v t (.infixed (.ident "n") (.int 3)) hrun hv.operand_ty "-=" .sub rfl
  · exact (compound_assignment_agrees (τ := .float) (Edition.latest_has _) hreach hplace noImports
      hx rfl rfl).2 .decrement

end LimeLang
