import LimeLang.Proofs.Machine
import LimeLang.Proofs.Translation

/-! Code that stands for an integer program goes the way the program means. -/

namespace LimeLang

open Code

variable {f : Frame} {is : List Instr} {op : InfixOp} {b : BinaryOp} {w : Operand} {z : Word}

namespace InfixOp

theorem onInts_eq (h : op.machineOp? = some b) (x y : Word) : b.onInts x y = op.compute? x y := by
  have hsub : x - y = BitVec.ofInt 32 (x.toInt - y.toInt) := by
    apply BitVec.eq_of_toInt_eq
    rw [BitVec.toInt_sub, BitVec.toInt_ofInt]
  have hdiv : x.sdiv y = BitVec.ofInt 32 (x.toInt.tdiv y.toInt) := by
    apply BitVec.eq_of_toInt_eq
    rw [BitVec.toInt_sdiv, BitVec.toInt_ofInt]
  have hrem : x.srem y = BitVec.ofInt 32 (x.toInt.tmod y.toInt) := by
    rw [← BitVec.toInt_srem, BitVec.ofInt_toInt]
  cases op <;> simp only [machineOp?, Option.some.injEq, reduceCtorEq] at h <;> subst h
  · simp [BinaryOp.onInts, compute?, BitVec.ofInt_add]
  · simp only [BinaryOp.onInts, compute?, hsub]
  · simp [BinaryOp.onInts, compute?, BitVec.ofInt_mul]
  · simp only [BinaryOp.onInts, compute?, hdiv]
  · simp only [BinaryOp.onInts, compute?, hrem]

theorem compute?_mul_minus_one (x : Word) :
    mul.compute? x (.ofInt 32 (-1)) = some (.ofInt 32 (-x.toInt)) := by
  rw [compute?, show (BitVec.ofInt 32 (-1)).toInt = -1 from rfl, Int.mul_neg_one]

theorem holds_eq {rel : Relation} (h : op.relation? = some rel) (x y : Word) :
    op.decide? x y = some (rel.onInts x y) := by
  cases op <;> simp only [relation?, Option.some.injEq, reduceCtorEq] at h <;> subst h
  · simp [decide?, Relation.onInts, BitVec.slt]
  · simp [decide?, Relation.onInts, BitVec.slt]
  · simp [decide?, Relation.onInts, BitVec.sle]
  · simp [decide?, Relation.onInts, BitVec.sle]
  · simp only [decide?, Relation.onInts, BitVec.toInt_inj]
    rfl

end InfixOp

/-- Variables are in slots of their own. -/
structure Matches (env : Env) (f : Frame) (σ : Store) : Prop where
  holds : ∀ x n, env x = some n →
    ∃ i, f.values.get? n = some (.slot i) ∧ f.loadSlot? i = some (.int 32 (σ x))
  apart : ∀ x y n m i, env x = some n → env y = some m → f.values.get? n = some (.slot i) →
    f.values.get? m = some (.slot i) → x = y

structure Agrees (names : List String) (f g : Frame) : Prop where
  slots : g.slots = f.slots
  values : ∀ m, m ∉ names → g.values.get? m = f.values.get? m

section Frames

variable {env : Env} {f g h : Frame} {σ : Store} {names names' : List String}

theorem Agrees.refl (names : List String) (f : Frame) : Agrees names f f := ⟨rfl, fun _ _ => rfl⟩

theorem Agrees.trans (hfg : Agrees names f g) (hgh : Agrees names' g h) :
    Agrees (names ++ names') f h where
  slots := hgh.slots.trans hfg.slots
  values := by
    intro m hm
    rw [List.mem_append, not_or] at hm
    exact (hgh.values m hm.2).trans (hfg.values m hm.1)

theorem Agrees.setValue (f : Frame) (m : String) (v : Value) : Agrees [m] f (f.setValue m v) where
  slots := rfl
  values := fun _ hk => Values.get?_set_other _ (fun h => hk (List.mem_singleton.mpr h.symm)) v

theorem Agrees.value? (hfg : Agrees names f g) {x : Operand}
    (hx : ∀ n t, x = .result n t → n ∉ names) : g.value? x = f.value? x := by
  cases x with
  | result n t => exact hfg.values n (hx n t rfl)
  | _ => rfl

theorem Matches.agrees (hf : Matches env f σ) (hfg : Agrees names f g)
    (hn : ∀ x n, env x = some n → n ∉ names) : Matches env g σ where
  holds := by
    intro x n hx
    obtain ⟨i, hi, hload⟩ := hf.holds x n hx
    refine ⟨i, (hfg.values n (hn x n hx)).trans hi, ?_⟩
    rw [Frame.loadSlot?, hfg.slots]
    exact hload
  apart := by
    intro x y n m i hx hy hi hi'
    rw [hfg.values n (hn x n hx)] at hi
    rw [hfg.values m (hn y m hy)] at hi'
    exact hf.apart x y n m i hx hy hi hi'

end Frames

/-- The code of functions goes the way that `call` says, inside of calls that have less than `n`. -/
def Implements (a : Assembly) (out : List UInt8) (fs : Signatures) (n : Nat)
    (call : String → List Word → Outcome Word) : Prop :=
  ∀ f ws, (f, ws.length) ∈ fs → ∃ r entry bs, a.routine? f = some r ∧ r.blocks = entry :: bs ∧
    let c : Config := ⟨r, entry.instrs, r.frame (ws.map (.int 32))⟩
    (∀ w, call f ws = .done w → c.Ends a out (.done (.int 32 w, out))) ∧
    (call f ws = .stuck → c.Ends a out .stuck) ∧
    (call f ws = .outOfFuel → ∀ k < n, c.run a out k = .outOfFuel)

section Expressions

variable {a : Assembly} {out : List UInt8} {fs : Signatures} {env : Env} {n : Nat}
  {call : String → List Word → Outcome Word} {r : Routine} {σ : Store}

theorem value?_setValue (f : Frame) (m : String) (t : Ty) (v : Value) :
    (f.setValue m v).value? (.result m t) = some v := Values.get?_set_same _ _ _

/-- Straight code for a value that is meant to be `o`. -/
def Computes (a : Assembly) (out : List UInt8) (n : Nat) (r : Routine) (env : Env) (σ : Store)
    (o : Outcome Word) (is : List Instr) (v : Operand) : Prop :=
  ∀ f : Frame, Matches env f σ → ∀ rest : List Instr,
    Follows a out n o ⟨r, is ++ rest, f⟩ fun w d =>
      ∃ g, d = ⟨r, rest, g⟩ ∧ Agrees (is.map Instr.name) f g ∧ g.value? v = some (.int 32 w)

theorem Computes.load {x k m : String} (hx : env x = some k) :
    Computes a out n r env σ (.done (σ x)) [⟨m, .load (slotOf k)⟩] (.result m .i32) := by
  intro f hf rest
  obtain ⟨i, hi, hload⟩ := hf.holds x k hx
  refine .straight rfl ?_ (.done ⟨_, rfl, .setValue f m (.int 32 (σ x)), value?_setValue f m _ _⟩)
  simp [Frame.step?, Frame.value?, Frame.valueAs?, slotOf, hi, hload]

theorem Computes.pair {o o' : Outcome Word} {is js rest : List Instr} {v w : Operand} {α : Type}
    {k : Word → Word → Outcome α} {Q : α → Config → Prop} (hl : Computes a out n r env σ o is v)
    (hr : Computes a out n r env σ o' js w) (hv : ∀ m t, v = .result m t → m ∈ is.map Instr.name)
    (hfresh : Fresh env (is ++ js)) (hf : Matches env f σ)
    (hk : ∀ x y g, Agrees ((is ++ js).map Instr.name) f g → g.value? v = some (.int 32 x) →
      g.value? w = some (.int 32 y) → Follows a out n (k x y) ⟨r, rest, g⟩ Q) :
    Follows a out n (o >>= fun x => o' >>= fun y => k x y) ⟨r, is ++ (js ++ rest), f⟩ Q := by
  refine (hl f hf (js ++ rest)).bind ?_
  rintro x _ ⟨g, rfl, hfg, hx⟩
  have hg := hf.agrees hfg hfresh.left.apart
  refine (hr g hg rest).bind ?_
  rintro y _ ⟨h, rfl, hgh, hy⟩
  have hkeep : h.value? v = g.value? v :=
    hgh.value? fun m t hm => hfresh.not_mem_right (hv m t hm)
  have hfh := hfg.trans hgh
  rw [← List.map_append] at hfh
  exact hk x y h hfh (hkeep.trans hx) hy

theorem follows_binary (hop : op.machineOp? = some b) {g : Frame} {v w : Operand} {x y : Word}
    (hv : g.value? v = some (.int 32 x)) (hw : g.value? w = some (.int 32 y)) (m : String)
    (rest : List Instr) :
    Follows a out n (.ofOption (op.compute? x y)) ⟨r, ⟨m, .binary b v w⟩ :: rest, g⟩ fun z d =>
      d = ⟨r, rest, g.setValue m (.int 32 z)⟩ := by
  refine .computed rfl ?_
  rw [← InfixOp.onInts_eq hop]
  simp only [Frame.step?, hv, hw, Option.bind_eq_bind, Option.bind_some, Value.binary_int]
  cases b.onInts x y <;> rfl

theorem Agrees.snoc {f g : Frame} (h : Agrees (is.map Instr.name) f g) (m : String) (op : Op)
    (v : Value) : Agrees ((is ++ [(⟨m, op⟩ : Instr)]).map Instr.name) f (g.setValue m v) := by
  rw [List.map_append]
  exact h.trans (.setValue g m v)

theorem Computes.binary {o o' : Outcome Word} {is js : List Instr} {v w : Operand} {m : String}
    (hop : op.machineOp? = some b) (hl : Computes a out n r env σ o is v)
    (hr : Computes a out n r env σ o' js w) (hv : ∀ m t, v = .result m t → m ∈ is.map Instr.name)
    (hfresh : Fresh env (is ++ js)) :
    Computes a out n r env σ (o >>= fun x => o' >>= fun y => .ofOption (op.compute? x y))
      (is ++ js ++ [⟨m, .binary b v w⟩]) (.result m .i32) := by
  intro f hf rest
  rw [List.append_assoc, List.append_assoc]
  refine hl.pair hr hv hfresh hf fun x y g hfg hx hy => ?_
  refine (follows_binary hop hx hy m rest).mono ?_
  rintro z _ rfl
  exact ⟨_, rfl, hfg.snoc _ _ _, value?_setValue _ _ _ _⟩

theorem Computes.const (k : Int) : Computes a out n r env σ (.done (.ofInt 32 k)) []
    (.int .i32 k) :=
  fun f _ _ => .done ⟨f, rfl, .refl _ f, rfl⟩

mutual

theorem ExprCode.computes (hcall : Implements a out fs n call) :
    ∀ {x : Expr} {is : List Instr} {v : Operand}, ExprCode fs env x is v → Fresh env is →
      Computes a out n r env σ (x.eval call σ) is v
  | _, _, _, .int, _ => by
    rw [Expr.eval]
    exact .const _
  | _, _, _, .ident hx, _ => by
    rw [Expr.eval]
    exact .load hx
  | _, _, _, .infixed hl hr hop, hfresh => by
    rw [Expr.eval]
    exact .binary hop (hl.computes hcall hfresh.left.left) (hr.computes hcall hfresh.left.right)
      hl.operand.2 hfresh.left
  | _, _, _, .neg hx, hfresh => by
    rw [Expr.eval]
    intro f hf rest
    rw [List.append_assoc]
    refine (hx.computes hcall hfresh.left f hf _).bind ?_
    rintro x _ ⟨g, rfl, hfg, hg⟩
    have hminus : g.value? (.int .i32 (-1)) = some (.int 32 (.ofInt 32 (-1))) := rfl
    have hneg : (pure (.ofInt 32 (-x.toInt)) : Outcome Word) =
        .ofOption (InfixOp.mul.compute? x (.ofInt 32 (-1))) := by
      rw [InfixOp.compute?_mul_minus_one]
      rfl
    rw [hneg]
    refine (follows_binary rfl hg hminus _ rest).mono ?_
    rintro w _ rfl
    exact ⟨_, rfl, hfg.snoc _ _ _, value?_setValue _ _ _ _⟩
  | _, _, _, .call hmem hargs, hfresh => by
    rw [Expr.eval]
    intro f hf rest
    rw [List.append_assoc]
    refine (hargs.follows hcall hfresh.left f hf _).bind ?_
    rintro ws _ ⟨g, rfl, hfg, hlen, hg⟩
    obtain ⟨r', entry, bs, hr', hb, hdone, hstuck, hfuel⟩ := hcall _ ws (hlen ▸ hmem)
    refine (Follows.called hr' hb hg hdone hstuck hfuel).mono ?_
    rintro w _ rfl
    exact ⟨_, rfl, hfg.snoc _ _ _, value?_setValue _ _ _ _⟩

theorem ArgsCode.follows (hcall : Implements a out fs n call) :
    ∀ {xs : List Expr} {is : List Instr} {vs : List Operand},
    ArgsCode fs env xs is vs → Fresh env is → ∀ f : Frame, Matches env f σ → ∀ rest : List Instr,
      Follows a out n (evalAll call σ xs) ⟨r, is ++ rest, f⟩ fun ws d =>
        ∃ g, d = ⟨r, rest, g⟩ ∧ Agrees (is.map Instr.name) f g ∧ ws.length = xs.length ∧
          g.args? (vs.map some) = some (ws.map (.int 32))
  | _, _, _, .nil, _, f, _, rest => .done ⟨f, rfl, .refl _ f, rfl, rfl⟩
  | _, _, _, .cons hx hxs, hfresh, f, hf, rest => by
    rw [evalAll, List.append_assoc]
    refine (hx.computes hcall hfresh.left f hf _).bind ?_
    rintro w _ ⟨g, rfl, hfg, hw⟩
    refine (hxs.follows hcall hfresh.right g (hf.agrees hfg hfresh.left.apart) rest).bind ?_
    rintro ws _ ⟨h, rfl, hgh, hlen, hws⟩
    have hkeep : h.value? _ = g.value? _ :=
      hgh.value? fun m t hm => hfresh.not_mem_right (hx.operand.2 m t hm)
    refine .done ⟨h, rfl, ?_, by simp [hlen], ?_⟩
    · rw [List.map_append]
      exact hfg.trans hgh
    · simp [Frame.args?, hkeep.trans hw, hws]

end

theorem TestCode.follows (hcall : Implements a out fs n call) {c : Expr} {v : Operand}
    (h : TestCode fs env c is v) (hfresh : Fresh env is) (hf : Matches env f σ)
    (rest : List Instr) :
    Follows a out n (c.test call σ) ⟨r, is ++ rest, f⟩ fun b d =>
      ∃ g, d = ⟨r, rest, g⟩ ∧ Agrees (is.map Instr.name) f g ∧ g.value? v = some (.ofBool b) := by
  obtain ⟨hl, hr, hop⟩ := h
  rw [Expr.test, List.append_assoc, List.append_assoc]
  refine (hl.computes hcall hfresh.left.left).pair (hr.computes hcall hfresh.left.right)
    hl.operand.2 hfresh.left hf fun x y g hfg hx hy => ?_
  rw [InfixOp.holds_eq hop]
  refine .straight rfl ?_ (.done ⟨_, rfl, hfg.snoc _ _ _, value?_setValue _ _ _ _⟩)
  have hy' := hy
  rw [Frame.value?, hr.operand.1, ← hl.operand.1] at hy'
  simp [Frame.step?, hx, hy', Value.icmp_int]

end Expressions

def rest (a : Assembly) (ρ : String) (P : Point) :
    List Instr := ((a.code? ⟨ρ, P.block⟩).getD []).drop P.index

theorem Segment.rest_eq {a : Assembly} {ρ : String} {P : Point} (h : Segment a ρ P is) :
    rest a ρ P = is ++ rest a ρ (P.after is) := by
  obtain ⟨before, behind, hcode, hlen⟩ := h
  simp only [rest, Point.after, hcode, Option.getD_some, ← hlen]
  rw [List.drop_left, ← List.append_assoc, ← List.length_append, List.drop_left]

section Simulation

variable {a : Assembly} {out : List UInt8} {ρ : String} {fs : Signatures} {env : Env} {n : Nat}
  {call : String → List Word → Outcome Word} {r : Routine} {σ : Store}

theorem lt_size_of_loadSlot? {i : Nat} {v : Value} (h : f.loadSlot? i = some v) :
    i < f.slots.size := by
  by_contra hi
  simp [Frame.loadSlot?, Array.getElem?_eq_none (Nat.le_of_not_lt hi)] at h

theorem Matches.store {x k : String} {i : Nat} (hf : Matches env f σ) (hx : env x = some k)
    (hi : f.values.get? k = some (.slot i)) (z : Word) :
    Matches env { f with slots := f.slots.setIfInBounds i (some (.int 32 z)) }
      (Function.update σ x z) where
  holds := by
    intro y m hy
    obtain ⟨j, hj, hload⟩ := hf.holds y m hy
    refine ⟨j, hj, ?_⟩
    have hsize := lt_size_of_loadSlot? hload
    rw [Frame.loadSlot?, Array.getElem?_setIfInBounds]
    by_cases hij : i = j
    · subst hij
      obtain rfl := hf.apart x y k m i hx hy hi hj
      simp [hsize]
    · have hne : y ≠ x := by
        rintro rfl
        obtain rfl : k = m := Option.some.inj (hx.symm.trans hy)
        exact hij (Value.slot.inj (Option.some.inj (hi.symm.trans hj)))
      rw [if_neg hij, Function.update_of_ne hne]
      exact hload
  apart := hf.apart

def Stored (r : Routine) (rest : List Instr) (env : Env) (flow : Flow) (d : Config) : Prop :=
  ∃ σ g, flow = .goOn σ ∧ d = ⟨r, rest, g⟩ ∧ Matches env g σ

theorem follows_store {x k m : String} {rest : List Instr} (hf : Matches env f σ)
    (hx : env x = some k) (hw : f.value? w = some (.int 32 z)) :
    Follows a out n (.done (.goOn (Function.update σ x z))) ⟨r, ⟨m, .store w (slotOf k)⟩ :: rest, f⟩
      (Stored r rest env) := by
  obtain ⟨i, hi, hload⟩ := hf.holds x k hx
  have hsize := lt_size_of_loadSlot? hload
  refine .straight rfl ?_ (.done ⟨_, _, rfl, rfl, hf.store hx hi z⟩)
  have hp : f.value? (slotOf k) = some (.slot i) := hi
  simp [Frame.step?, hw, hp, Frame.storeSlot?, hsize]

theorem follows_load {α : Type} {o : Outcome α} {Q : α → Config → Prop} {x k i : String}
    {rest : List Instr} (hf : Matches env f σ) (hx : env x = some k)
    (h : ∀ g, Agrees [i] f g → g.value? (.result i .i32) = some (.int 32 (σ x)) →
      Follows a out n o ⟨r, rest, g⟩ Q) :
    Follows a out n o ⟨r, ⟨i, .load (slotOf k)⟩ :: rest, f⟩ Q := by
  obtain ⟨_, hleads, g, rfl, hfg, hg⟩ : Follows a out n (.done (σ x)) _ _ :=
    Computes.load hx f hf rest
  exact .leads hleads (h g hfg hg)

theorem follows_update {x k i j m : String} {rest : List Instr} (hf : Matches env f σ)
    (hx : env x = some k) (hop : op.machineOp? = some b) (hw : f.value? w = some (.int 32 z))
    (hi : ∀ l t, w = .result l t → l ∉ [i]) (hij : ∀ y l, env y = some l → l ∉ [i] ∧ l ∉ [j]) :
    Follows a out n (.ofOption (op.compute? (σ x) z) >>= fun z =>
      pure (.goOn (Function.update σ x z)))
      ⟨r, ⟨i, .load (slotOf k)⟩ :: ⟨j, .binary b (.result i .i32) w⟩ ::
        ⟨m, .store (.result j .i32) (slotOf k)⟩ :: rest, f⟩ (Stored r rest env) := by
  refine follows_load hf hx fun g hfg hy => ?_
  have hg := hf.agrees hfg fun y l hl => (hij y l hl).1
  refine (follows_binary hop hy ((hfg.value? hi).trans hw) j _).bind ?_
  rintro y _ rfl
  have hj := hg.agrees (.setValue g j (.int 32 y)) fun y l hl => (hij y l hl).2
  exact follows_store hj hx (value?_setValue g j _ _)

theorem AssignCode.follows {x k op : String} {js : List Instr} (h : AssignCode k w op js)
    (hf : Matches env f σ) (hx : env x = some k) (hfresh : Fresh env js)
    (hw : f.value? w = some (.int 32 z)) (hnew : ∀ m t, w = .result m t → m ∉ js.map Instr.name)
    (rest : List Instr) :
    Follows a out n (if op = "=" then pure (.goOn (Function.update σ x z))
      else .ofOption ((InfixOp.ofAssignment? op).bind fun op => op.compute? (σ x) z) >>= fun z =>
        pure (.goOn (Function.update σ x z))) ⟨r, js ++ rest, f⟩ (Stored r rest env) := by
  cases h with
  | plain => exact follows_store hf hx hw
  | @loaded i m =>
    refine follows_load hf hx fun g hfg _ => ?_
    have hi : ∀ l t, w = .result l t → l ∉ [i] := fun l t hl hm => hnew l t hl (by simp_all)
    have hg := hf.agrees hfg fun y l hl hm => hfresh.apart y l hl (by simp_all)
    exact follows_store hg hx ((hfg.value? hi).trans hw)
  | @update op o b j i m ho hb =>
    have hne : op ≠ "=" := by
      rintro rfl
      simp [InfixOp.ofAssignment?] at ho
    rw [if_neg hne, ho, Option.bind_some]
    refine follows_update hf hx hb hw (fun l t hl hm => hnew l t hl (by simp_all)) fun y l hl => ?_
    have hh := hfresh.apart y l hl
    simp only [List.map_cons, List.mem_cons, not_or] at hh
    exact ⟨by simp [hh.1], by simp [hh.2.1]⟩

theorem step_follows {x k i j m : String} {op : StepOp} {js : List Instr} (hf : Matches env f σ)
    (hx : env x = some k) (hb : b = if op = .increment then .add else .sub)
    (hjs : js = [⟨i, .load (slotOf k)⟩, ⟨j, .binary b (.result i .i32) (.int .i32 1)⟩,
      ⟨m, .store (.result j .i32) (slotOf k)⟩]) (hfresh : Fresh env js) (rest : List Instr) :
    Follows a out n (pure (.goOn (Function.update σ x (.ofInt 32 ((σ x).toInt + op.change)))))
      ⟨r, js ++ rest, f⟩ (Stored r rest env) := by
  subst hjs
  have hij : ∀ y l, env y = some l → l ∉ [i] ∧ l ∉ [j] := by
    intro y l hl
    have hh := hfresh.apart y l hl
    simp only [List.map_cons, List.mem_cons, not_or] at hh
    exact ⟨by simp [hh.1], by simp [hh.2.1]⟩
  have hone : f.value? (.int .i32 1) = some (.int 32 (.ofInt 32 1)) := rfl
  obtain ⟨o, ho, hcompute⟩ : ∃ o : InfixOp, o.machineOp? = some b ∧
      o.compute? (σ x) (.ofInt 32 1) = some (.ofInt 32 ((σ x).toInt + op.change)) := by
    have htoInt : (BitVec.ofInt 32 1).toInt = 1 := rfl
    cases op with
    | increment => exact ⟨.add, by rw [hb]; rfl, by rw [InfixOp.compute?, htoInt]; rfl⟩
    | decrement =>
      refine ⟨.sub, by rw [hb]; rfl, ?_⟩
      rw [InfixOp.compute?, htoInt, Int.sub_eq_add_neg]
      rfl
  have hpure :
      (pure (.goOn (Function.update σ x (.ofInt 32 ((σ x).toInt + op.change)))) : Outcome Flow) =
      .ofOption (o.compute? (σ x) (.ofInt 32 1)) >>= fun z =>
          pure (.goOn (Function.update σ x z)) := by
    rw [hcompute]
    rfl
  rw [hpure]
  exact follows_update hf hx ho hone (by simp) hij

/-- Where control is after statements: behind them, or at the end of the call. -/
def Arrives (a : Assembly) (out : List UInt8) (r : Routine) (env : Env) (next : List Instr) :
    Flow → Config → Prop
  | .goOn σ, d => ∃ g, d = ⟨r, next, g⟩ ∧ Matches env g σ
  | .returned w, d => d.Ends a out (.done (.int 32 w, out))

theorem Stored.arrives {next : List Instr} {flow : Flow} {d : Config}
    (h : Stored r next env flow d) : Arrives a out r env next flow d := by
  obtain ⟨σ, g, rfl, rfl, hg⟩ := h
  exact ⟨g, rfl, hg⟩

theorem IsBlock.block {t : String} (h : IsBlock a ρ t) (hr : a.routine? ρ = some r) :
    ∃ b, r.block? t = some b ∧ b.instrs = rest a ρ (.start t) := by
  obtain ⟨is, his⟩ := Option.isSome_iff_exists.mp h
  have hcode := his
  rw [Assembly.code?, hr, Option.bind_some, Option.map_eq_some_iff] at hcode
  obtain ⟨b, hb, rfl⟩ := hcode
  exact ⟨b, hb, by simp [rest, Point.start, his]⟩

theorem Decides.follows {α : Type} {k : Bool → Outcome α} {Q : α → Config → Prop} {c : Expr}
    {t e : String} {P : Point} {l m : Nat} (h : Decides a ρ fs env c t e P)
    (hcall : Implements a out fs n call) (hr : a.routine? ρ = some r) (hf : Matches env f σ)
    (hm : m ≤ n) (hml : m ≤ l + 1)
    (hk : ∀ b g, Matches env g σ →
      Follows a out l (k b) ⟨r, rest a ρ (.start (if b then t else e)), g⟩ Q) :
    Follows a out m (c.test call σ >>= k) ⟨r, rest a ρ P, f⟩ Q := by
  obtain ⟨⟨is, w, i, hc, hs⟩, ht, he⟩ := h
  rw [hs.segment.rest_eq, List.append_assoc]
  refine ((hc.follows hcall hs.fresh.left hf _).le hm).bind ?_
  rintro b _ ⟨g, rfl, hfg, hb⟩
  have hblock : IsBlock a ρ (if b then t else e) := by
    cases b with
    | true => exact ht
    | false => exact he
  obtain ⟨β, hβ, hcode⟩ := hblock.block hr
  have hnext := hk b g (hf.agrees hfg hs.fresh.left.apart)
  rw [← hcode] at hnext
  exact (Follows.step (.condBr hb (Value.truth?_ofBool b) hβ) hnext).le hml

theorem bind_eq_done {α β : Type} {o : Outcome α} {f : α →
    Outcome β} {y : β} (h : o >>= f = .done y) : ∃ x, o = .done x ∧ f x = .done y := by
  cases o with
  | done x => exact ⟨x, rfl, h⟩
  | stuck => simp [bind, Outcome.bind] at h
  | outOfFuel => simp [bind, Outcome.bind] at h

theorem execAll_returns {rounds : Nat} {ss : List Stmt} (h : ss.getLast?.any Stmt.isReturn = true)
    {σ τ : Store} : execAll call rounds ss σ ≠ .done (.goOn τ) := by
  induction ss generalizing σ with
  | nil => simp at h
  | cons s ss ih =>
    intro hgo
    rw [execAll] at hgo
    obtain ⟨flow, hs, hflow⟩ := bind_eq_done hgo
    cases flow with
    | returned w => simp [pure] at hflow
    | goOn σ' =>
      cases ss with
      | cons s' ss => exact ih (by simpa using h) hflow
      | nil =>
        cases s with
        | ret v =>
          rw [Stmt.exec] at hs
          obtain ⟨w, -, hw⟩ := bind_eq_done hs
          simp [pure] at hw
        | _ => simp [Stmt.isReturn] at h

theorem Follows.extend {α : Type} {o : Outcome α} {c : Config} {P Q : α → Config → Prop}
    (h : Follows a out n o c P)
    (hQ : ∀ x d, o = .done x → P x d → ∃ d', d.Leads a out d' ∧ Q x d') :
      Follows a out n o c Q := by
  cases o with
  | done x =>
    obtain ⟨d, hd, hP⟩ := h
    obtain ⟨d', hd', hQ'⟩ := hQ x d rfl hP
    exact ⟨d', hd.trans hd', hQ'⟩
  | stuck => exact h
  | outOfFuel => exact h

theorem loop_follows {c : Expr} {body : List Stmt} {t e : String} {Q : Point} {rounds : Nat}
    (hcall : Implements a out fs n call) (hr : a.routine? ρ = some r)
    (hQ : Decides a ρ fs env c t e Q)
    (hbody : ∀ σ f, Matches env f σ → Follows a out n (execAll call n body σ)
      ⟨r, rest a ρ (.start t), f⟩ (Arrives a out r env (rest a ρ Q))) (hrounds : rounds ≤ n)
    {T : Point} (hT : Decides a ρ fs env c t e T) (hf : Matches env f σ) :
    Follows a out rounds
      (iterate (fun σ => c.test call σ) (fun σ => execAll call n body σ) rounds σ)
      ⟨r, rest a ρ T, f⟩ (Arrives a out r env (rest a ρ (.start e))) := by
  induction rounds generalizing T σ f with
  | zero => exact Assembly.run_zero
  | succ l ih =>
    rw [iterate]
    refine hT.follows hcall hr hf hrounds (Nat.le_refl _) fun b g hg => ?_
    cases b with
    | false => exact .done ⟨g, rfl, hg⟩
    | true =>
      refine ((hbody σ g hg).le (by omega)).bind ?_
      rintro flow d hd
      cases flow with
      | returned w => exact .done hd
      | goOn τ =>
        obtain ⟨g', rfl, hg'⟩ := hd
        exact ih (by omega) hQ hg'

mutual

theorem StmtCode.follows (hcall : Implements a out fs n call) (hr : a.routine? ρ = some r) :
    ∀ {s : Stmt} {P Q : Point}, StmtCode a ρ fs env s P Q →
      ∀ {σ : Store} {f : Frame}, Matches env f σ →
      Follows a out n (s.exec call n σ) ⟨r, rest a ρ P, f⟩ (Arrives a out r env (rest a ρ Q))
  | _, _, _, .assign hv hx hop hs, σ, f, hf => by
    rw [Stmt.exec, hs.segment.rest_eq, List.append_assoc]
    refine (hv.computes hcall hs.fresh.left f hf _).bind ?_
    rintro w _ ⟨g, rfl, hfg, hw⟩
    have hg := hf.agrees hfg hs.fresh.left.apart
    have hnew := fun m t hm => hs.fresh.not_mem_right (hv.operand.2 m t hm)
    exact (hop.follows hg hx hs.fresh.right hw hnew _).mono fun _ _ h => h.arrives
  | _, _, _, .step hx hb hjs hs, σ, f, hf => by
    rw [Stmt.exec, Expr.exec, hs.segment.rest_eq]
    exact (step_follows hf hx hb hjs hs.fresh _).mono fun _ _ h => h.arrives
  | _, _, _, .call hv hs, σ, f, hf => by
    rw [Stmt.exec, Expr.exec, hs.segment.rest_eq]
    refine (hv.computes hcall hs.fresh f hf _).bind ?_
    rintro w _ ⟨g, rfl, hfg, -⟩
    exact .done ⟨g, rfl, hf.agrees hfg hs.fresh.apart⟩
  | _, _, _, .ifThen hc hbody, σ, f, hf => by
    rw [Stmt.exec, Expr.exec]
    refine hc.follows hcall hr hf (Nat.le_refl n) (Nat.le_succ n) fun b g hg => ?_
    cases b with
    | true => exact hbody.follows hcall hr hg
    | false => exact .done ⟨g, rfl, hg⟩
  | _, _, _, .ifElse hc hbody halt, σ, f, hf => by
    rw [Stmt.exec, Expr.exec]
    refine hc.follows hcall hr hf (Nat.le_refl n) (Nat.le_succ n) fun b g hg => ?_
    cases b with
    | true => exact hbody.follows hcall hr hg
    | false => exact halt.follows hcall hr hg
  | _, _, _, .whileLoop hc hbody hc', σ, f, hf => by
    rw [Stmt.exec]
    exact loop_follows hcall hr hc' (fun _ _ hg => hbody.follows hcall hr hg) (Nat.le_refl n) hc hf
  | _, _, _, .ret hv hs, σ, f, hf => by
    rw [Stmt.exec, hs.segment.rest_eq, List.append_assoc]
    refine (hv.computes hcall hs.fresh.left f hf _).bind ?_
    rintro w _ ⟨g, rfl, hfg, hw⟩
    exact .done (Config.ends_ret hw)

theorem StmtsCode.follows (hcall : Implements a out fs n call) (hr : a.routine? ρ = some r) :
    ∀ {ss : List Stmt} {P Q : Point}, StmtsCode a ρ fs env ss P Q → ∀ {σ : Store} {f : Frame},
      Matches env f σ →
        Follows a out n (execAll call n ss σ) ⟨r, rest a ρ P, f⟩ (Arrives a out r env (rest a ρ Q))
  | _, _, _, .nil, σ, f, hf => .done ⟨f, rfl, hf⟩
  | _, _, _, .cons hs hss, σ, f, hf => by
    rw [execAll]
    refine (hs.follows hcall hr hf).bind ?_
    rintro flow d hd
    cases flow with
    | returned w => exact .done hd
    | goOn τ =>
      obtain ⟨g, rfl, hg⟩ := hd
      exact hss.follows hcall hr hg

theorem ArmCode.follows (hcall : Implements a out fs n call) (hr : a.routine? ρ = some r) :
    ∀ {ss : List Stmt} {P : Point} {e : String}, ArmCode a ρ fs env ss P e →
      ∀ {σ : Store} {f : Frame}, Matches env f σ →
        Follows a out n (execAll call n ss σ) ⟨r, rest a ρ P, f⟩
          (Arrives a out r env (rest a ρ (.start e)))
  | _, _, _, .jumps hs hj he, σ, f, hf => by
    refine (hs.follows hcall hr hf).extend fun flow d _ hd => ?_
    cases flow with
    | returned w => exact ⟨d, .refl d, hd⟩
    | goOn τ =>
      obtain ⟨g, rfl, hg⟩ := hd
      obtain ⟨b, hb, hcode⟩ := he.block hr
      refine ⟨⟨r, b.instrs, g⟩, ?_, g, by rw [hcode], hg⟩
      rw [hj.rest_eq]
      exact Config.Steps.leads (.br hb)
  | _, _, _, .returns hs hret, σ, f, hf => by
    refine (hs.follows hcall hr hf).extend fun flow d ho hd => ?_
    cases flow with
    | returned w => exact ⟨d, .refl d, hd⟩
    | goOn τ => exact absurd ho (execAll_returns hret)

end

theorem Matches.declare {x k : String} (hf : Matches env f σ) (hx : env x = none)
    (hk : ∀ y l, env y = some l → l ≠ k) (z : Word) :
    Matches (Function.update env x (some k))
      ⟨f.values.set k (.slot f.slots.size), (f.slots.push none).setIfInBounds f.slots.size
      (some (.int 32 z))⟩ (Function.update σ x z) := by
  have hold : ∀ y l, Function.update env x (some k) y = some l → y ≠ x → env y = some l ∧
      (f.values.set k (.slot f.slots.size)).get? l = f.values.get? l := by
    intro y l hy hne
    rw [Function.update_of_ne hne] at hy
    exact ⟨hy, Values.get?_set_other _ (hk y l hy).symm _⟩
  have hnew : ∀ l, Function.update env x (some k) x = some l →
      (f.values.set k (.slot f.slots.size)).get? l = some (.slot f.slots.size) := by
    intro l hl
    rw [Function.update_self] at hl
    rw [← Option.some.inj hl]
    exact Values.get?_set_same _ _ _
  have hlt : ∀ y l i, env y = some l → f.values.get? l = some (.slot i) → i < f.slots.size := by
    intro y l i hl hi
    obtain ⟨j, hj, hload⟩ := hf.holds y l hl
    obtain rfl := Value.slot.inj (Option.some.inj (hi.symm.trans hj))
    exact lt_size_of_loadSlot? hload
  refine ⟨?_, ?_⟩
  · intro y l hl
    by_cases hy : y = x
    · subst hy
      exact ⟨_, hnew l hl, by simp [Frame.loadSlot?]⟩
    · obtain ⟨hl', hget⟩ := hold y l hl hy
      obtain ⟨i, hi, hload⟩ := hf.holds y l hl'
      have hi' := hlt y l i hl' hi
      refine ⟨i, hget.trans hi, ?_⟩
      rw [Function.update_of_ne hy, ← hload, Frame.loadSlot?, Frame.loadSlot?,
        Array.getElem?_setIfInBounds, if_neg (by omega), Array.getElem?_push_lt hi',
        Array.getElem?_eq_getElem hi']
  · intro y z' l m i hl hm hi hi'
    by_cases hy : y = x <;> by_cases hz : z' = x
    · rw [hy, hz]
    · subst hy
      obtain ⟨hm', hget⟩ := hold z' m hm hz
      have hsize := hlt z' m i hm' (hget.symm.trans hi')
      have := Value.slot.inj (Option.some.inj ((hnew l hl).symm.trans hi))
      omega
    · subst hz
      obtain ⟨hl', hget⟩ := hold y l hl hy
      have hsize := hlt y l i hl' (hget.symm.trans hi)
      have := Value.slot.inj (Option.some.inj ((hnew m hm).symm.trans hi'))
      omega
    · obtain ⟨hl', hget⟩ := hold y l hl hy
      obtain ⟨hm', hget'⟩ := hold z' m hm hz
      exact hf.apart y z' l m i hl' hm' (hget.symm.trans hi) (hget'.symm.trans hi')

theorem follows_declare {α : Type} {o : Outcome α} {Q : α → Config → Prop} {x k m : String}
    {rest : List Instr} (hf : Matches env f σ) (hx : env x = none)
    (hk : ∀ y l, env y = some l → l ≠ k) (hw : f.value? w = some (.int 32 z))
    (hwk : ∀ l t, w = .result l t → l ≠ k)
    (h : ∀ g, Matches (Function.update env x (some k)) g (Function.update σ x z) →
      (∀ l, l ≠ k → g.values.get? l = f.values.get? l) → Follows a out n o ⟨r, rest, g⟩ Q) :
    Follows a out n o ⟨r, ⟨k, .alloca .i32⟩ :: ⟨m, .store w (slotOf k)⟩ :: rest, f⟩ Q := by
  have hother : ∀ l, l ≠ k → (f.values.set k (.slot f.slots.size)).get? l = f.values.get? l :=
    fun l hl => Values.get?_set_other _ hl.symm _
  have hvalue : Frame.value? ⟨f.values.set k (.slot f.slots.size), f.slots.push none⟩ w =
      some (.int 32 z) := by
    rw [← hw]
    cases w with
    | result l t => exact hother l (hwk l t rfl)
    | _ => rfl
  have hslot : Frame.value? ⟨f.values.set k (.slot f.slots.size), f.slots.push none⟩ (slotOf k) =
      some (.slot f.slots.size) := Values.get?_set_same _ _ _
  refine .straight rfl rfl (.straight rfl ?_ (h _ (hf.declare hx hk z) hother))
  simp [Frame.step?, hvalue, hslot, Frame.storeSlot?]

theorem let_follows (hcall : Implements a out fs n call) {x k m type : String} {v : Expr}
    (hf : Matches env f σ) (hv : ExprCode fs env v is w) (hx : env x = none)
    (hfresh : Fresh env (is ++ [⟨k, .alloca .i32⟩, ⟨m, .store w (slotOf k)⟩])) (next : List Instr) :
    Follows a out n (Stmt.exec call n (.letVar x v type) σ)
      ⟨r, is ++ ([⟨k, .alloca .i32⟩, ⟨m, .store w (slotOf k)⟩] ++ next), f⟩
      (Stored r next (Function.update env x (some k))) := by
  rw [Stmt.exec]
  refine (hv.computes hcall hfresh.left f hf _).bind ?_
  rintro z _ ⟨g, rfl, hfg, hw⟩
  have hk : ∀ y l, env y = some l → l ≠ k := by
    rintro y _ hy rfl
    exact hfresh.right.apart y _ hy (by simp)
  have hwk : ∀ l t, w = .result l t → l ≠ k := by
    rintro _ t ht rfl
    exact hfresh.not_mem_right (hv.operand.2 _ t ht) (by simp)
  have hg := hf.agrees hfg hfresh.left.apart
  exact follows_declare hg hx hk hw hwk fun g' hg' _ => .done ⟨_, g', rfl, rfl, hg'⟩

theorem BodyCode.follows (hcall : Implements a out fs n call) (hr : a.routine? ρ = some r)
    {ss : List Stmt} {P : Point} (h : BodyCode a ρ fs env ss P) (hf : Matches env f σ) :
    Follows a out n (execAll call n ss σ) ⟨r, rest a ρ P, f⟩ fun flow d =>
      ∀ w, flow = .returned w → d.Ends a out (.done (.int 32 w, out)) := by
  induction h generalizing σ f with
  | nil => exact .done (by simp)
  | letVar hv hx hs hss ih =>
    rw [execAll, hs.segment.rest_eq, List.append_assoc]
    refine (let_follows hcall hf hv hx hs.fresh _).bind ?_
    rintro _ _ ⟨τ, g, rfl, rfl, hg⟩
    exact ih hg
  | stmt hs hss ih =>
    rw [execAll]
    refine (hs.follows hcall hr hf).bind ?_
    rintro flow d hd
    cases flow with
    | returned w => exact .done (by rintro _ ⟨⟩; exact hd)
    | goOn τ =>
      obtain ⟨g, rfl, hg⟩ := hd
      exact ih hg

theorem ParamCode.follows {α : Type} {o : Outcome α} {Q : α → Config → Prop} {xs ps : List String}
    {env' : Env} {next : List Instr} (h : ParamCode xs ps env is env') (hf : Matches env f σ)
    (hfresh : Fresh env is) (hps : ∀ p ∈ ps, p ∉ is.map Instr.name)
    (hargs : ∀ q ∈ xs.zip ps, f.values.get? q.2 = some (.int 32 (σ q.1)))
    (hk : ∀ g, Matches env' g σ → Follows a out n o ⟨r, next, g⟩ Q) :
    Follows a out n o ⟨r, is ++ next, f⟩ Q := by
  induction h generalizing f with
  | nil => exact hk f hf
  | @cons x p k m xs ps env env' is hx hxs ih =>
    obtain ⟨hkm, hnodup⟩ := List.nodup_cons.mp hfresh.nodup
    have hname : ∀ y l, env y = some l → l ≠ k := by
      rintro y _ hy rfl
      exact hfresh.apart y _ hy (by simp)
    have hpk : ∀ q ∈ p :: ps, q ≠ k := by
      rintro _ hq rfl
      exact hps _ hq (by simp)
    have hw : f.value? (.result p .i32) = some (.int 32 (σ x)) := hargs (x, p) (by simp)
    refine follows_declare hf hx hname hw (by simpa using hpk p (by simp)) fun g hg hkeep => ?_
    rw [Function.update_eq_self] at hg
    refine ih hg ⟨(List.nodup_cons.mp hnodup).2, ?_⟩ ?_ ?_ hk
    · intro y l hy hl
      by_cases hyx : y = x
      · subst hyx
        rw [Function.update_self] at hy
        exact hkm (Option.some.inj hy ▸ List.mem_cons_of_mem _ hl)
      · rw [Function.update_of_ne hyx] at hy
        exact hfresh.apart y l hy (by simp [hl])
    · exact fun q hq hmem => hps q (List.mem_cons_of_mem _ hq) (by simp [hmem])
    · intro q hq
      rw [hkeep q.2 (hpk q.2 (List.mem_cons_of_mem _ (List.of_mem_zip hq).2))]
      exact hargs q (by simp [hq])

theorem get?_ofArgs {xs ps : List String} {ws : List Word} (hxs : xs.Nodup) (hps : ps.Nodup)
    (hlen : ws.length = xs.length) : ∀ q ∈ xs.zip ps,
      Values.get? (ps.zip (ws.map (.int 32))) q.2 = some (.int 32 (Store.ofArgs xs ws q.1)) := by
  induction xs generalizing ps ws with
  | nil => simp
  | cons x xs ih =>
    cases ps with
    | nil => simp
    | cons p ps =>
      cases ws with
      | nil => simp at hlen
      | cons w ws =>
        rw [List.nodup_cons] at hxs hps
        intro q hq
        rw [List.zip_cons_cons, List.mem_cons] at hq
        rcases hq with rfl | hq
        · simp [Values.get?, Store.ofArgs]
        · have hmem := List.of_mem_zip hq
          have hx : q.1 ≠ x := fun h => hxs.1 (h ▸ hmem.1)
          have hp : p ≠ q.2 := fun h => hps.1 (h ▸ hmem.2)
          rw [Store.ofArgs, Function.update_of_ne hx, List.map_cons, List.zip_cons_cons,
            Values.get?, if_neg hp]
          exact ih hxs.2 hps.2 (by simpa using hlen) q hq

theorem FunctionCode.follows (hcall : Implements a out fs n call) {params : List Param}
    {body : List Stmt} {entry : Block} {bs : List Block}
    (h : FunctionCode a ρ fs params body r entry bs env is) {ws : List Word}
    (hlen : ws.length = params.length) :
    Follows a out n (execAll call n body (.ofArgs (params.map Param.label) ws))
      ⟨r, entry.instrs, r.frame (ws.map (.int 32))⟩ fun flow d =>
        ∀ w, flow = .returned w → d.Ends a out (.done (.int 32 w, out)) := by
  have hentry : entry.instrs = rest a ρ (.start entry.name) := by
    have hblock : r.block? entry.name = some entry := by simp [Routine.block?, h.blocks]
    simp [rest, Point.start, Assembly.code?, h.routine, hblock]
  obtain ⟨hps, hnodup, hdisjoint⟩ := List.nodup_append.mp h.names
  rw [hentry, h.segment.rest_eq]
  refine h.slots.follows ⟨by simp, by simp⟩ ⟨hnodup, by simp⟩ ?_ ?_ fun g hg =>
    h.code.follows hcall h.routine hg
  · exact fun p hp hmem => hdisjoint p hp p hmem rfl
  · exact get?_ofArgs h.labels hps (by simpa using hlen)

theorem Implements.subset {fs' : Signatures} (h : Implements a out fs n call) (hsub : fs' ⊆ fs) :
    Implements a out fs' n call := fun f ws hf => h f ws (hsub hf)

/-- Code for all functions of a program goes the way that the program means. The induction is on how
deep calls go: a call is one instruction, so its code has one less. -/
theorem implements_callIn {p : Program} (h : ∀ f k, (f, k) ∈ fs →
      ∃ params body r entry bs env is fs',
      function? p f = some (params, body) ∧ params.length = k ∧ fs' ⊆ fs ∧
        FunctionCode a f fs' params body r entry bs env is) (n : Nat) :
    Implements a out fs n (callIn p n) := by
  induction n with
  | zero =>
    intro f ws hf
    obtain ⟨params, body, r, entry, bs, env, is, fs', -, -, -, hcode⟩ := h f _ hf
    exact ⟨r, entry, bs, hcode.routine, hcode.blocks, by simp [callIn], by simp [callIn], by simp⟩
  | succ n ih =>
    intro f ws hf
    obtain ⟨params, body, r, entry, bs, env, is, fs', hfun, hlen, hsub, hcode⟩ := h f _ hf
    have hfollows := hcode.follows (ih.subset hsub) hlen.symm
    have hreturns : ∀ τ, execAll (callIn p n) n body (.ofArgs (params.map Param.label) ws) ≠
        .done (.goOn τ) := fun τ => execAll_returns hcode.returns
    refine ⟨r, entry, bs, hcode.routine, hcode.blocks, ?_⟩
    simp only [callIn, hfun]
    generalize execAll (callIn p n) n body (.ofArgs (params.map Param.label) ws) = o
      at hfollows hreturns
    cases o with
    | stuck => exact ⟨by simp [bind, Outcome.bind], fun _ => hfollows, by simp [bind, Outcome.bind]⟩
    | outOfFuel =>
      refine ⟨by simp [bind, Outcome.bind], by simp [bind, Outcome.bind], fun _ k hk => ?_⟩
      exact (Config.run_mono _ (Nat.lt_succ_iff.mp hk)).outOfFuel hfollows
    | done flow =>
      cases flow with
      | goOn τ => exact absurd rfl (hreturns τ)
      | returned w =>
        obtain ⟨d, hd, hends⟩ := hfollows
        refine ⟨?_, by simp [bind, Outcome.bind, pure], by simp [bind, Outcome.bind, pure]⟩
        rintro w' ⟨⟩
        exact hd.ends (by simp) (hends w rfl)

end Simulation

end LimeLang
