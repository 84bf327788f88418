import LimeLang.Proofs.OperandFlow

/-! Two assemblies with the same code under other names: which instructions and blocks belong
together, and how both sides may grow. On the second side there may be blocks in between that only
lead on. -/

namespace LimeLang

open Code

theorem optionRel_mono {α β : Type} {R S : α → β → Prop} (h : ∀ x y, R x y → S x y) {x : Option α}
    {y : Option β} (hxy : Option.Rel R x y) : Option.Rel S x y := by
  cases hxy with
  | none => exact .none
  | some hxy => exact .some (h _ _ hxy)

/-- Which parts of two assemblies belong together, routine by routine. -/
structure Pairing where
  instrs : String → Instr → Instr → Prop
  blocks : String → String → String → Prop
  /-- A block of the first side, and one of the second side that only leads to its partner. -/
  detours : String → String → String → Prop
  /-- Names of parameters, which are the same on both sides. -/
  params : String → String → Prop

namespace Pairing

structure Sub (ρ σ : Pairing) : Prop where
  instrs : ∀ r i j, ρ.instrs r i j → σ.instrs r i j
  blocks : ∀ r x y, ρ.blocks r x y → σ.blocks r x y
  detours : ∀ r x y, ρ.detours r x y → σ.detours r x y
  params : ∀ r n, ρ.params r n → σ.params r n

/-- Jumps to the two blocks are alike. -/
def Targets (ρ : Pairing) (r x y : String) : Prop := ρ.blocks r x y ∨ ρ.detours r x y

def withInstrs (ρ : Pairing) (r : String) (i j : Instr) : Pairing :=
  { ρ with instrs := fun r' i' j' => ρ.instrs r' i' j' ∨ r' = r ∧ i' = i ∧ j' = j }

def withBlocks (ρ : Pairing) (r x y : String) : Pairing :=
  { ρ with blocks := fun r' x' y' => ρ.blocks r' x' y' ∨ r' = r ∧ x' = x ∧ y' = y }

def withDetour (ρ : Pairing) (r x y : String) : Pairing :=
  { ρ with detours := fun r' x' y' => ρ.detours r' x' y' ∨ r' = r ∧ x' = x ∧ y' = y }

def withParams (ρ : Pairing) (r : String) (names : List String) : Pairing :=
  { ρ with params := fun r' n => ρ.params r' n ∨ r' = r ∧ n ∈ names }

variable {ρ σ τ : Pairing}

theorem Sub.refl (ρ : Pairing) : ρ.Sub ρ :=
  ⟨fun _ _ _ h => h, fun _ _ _ h => h, fun _ _ _ h => h, fun _ _ h => h⟩

theorem Sub.trans (h : ρ.Sub σ) (h' : σ.Sub τ) : ρ.Sub τ :=
  ⟨fun r i j hij => h'.instrs r i j (h.instrs r i j hij), fun r x y hxy =>
    h'.blocks r x y (h.blocks r x y hxy),
    fun r x y hxy => h'.detours r x y (h.detours r x y hxy), fun r n hn =>
      h'.params r n (h.params r n hn)⟩

theorem sub_withInstrs (r : String) (i j : Instr) : ρ.Sub (ρ.withInstrs r i j) :=
  ⟨fun _ _ _ => .inl, fun _ _ _ h => h, fun _ _ _ h => h, fun _ _ h => h⟩

theorem sub_withBlocks (r x y : String) : ρ.Sub (ρ.withBlocks r x y) :=
  ⟨fun _ _ _ h => h, fun _ _ _ => .inl, fun _ _ _ h => h, fun _ _ h => h⟩

theorem sub_withDetour (r x y : String) : ρ.Sub (ρ.withDetour r x y) :=
  ⟨fun _ _ _ h => h, fun _ _ _ h => h, fun _ _ _ => .inl, fun _ _ h => h⟩

theorem sub_withParams (r : String) (names : List String) : ρ.Sub (ρ.withParams r names) :=
  ⟨fun _ _ _ h => h, fun _ _ _ h => h, fun _ _ _ h => h, fun _ _ => .inl⟩

theorem Targets.mono {r x y : String} (h : ρ.Targets r x y) (hρ : ρ.Sub σ) : σ.Targets r x y :=
  h.imp (hρ.blocks r x y) (hρ.detours r x y)

end Pairing

/-- Operands that stand for the same value in the routine that is written to. -/
inductive Code.Operand.Mates (ρ : Pairing) (r : Option String) : Operand → Operand → Prop
  | int (t : Ty) (n : Int) : Mates ρ r (.int t n) (.int t n)
  | float (x : Number.Double) : Mates ρ r (.float x) (.float x)
  | global (n : String) (t : Ty) : Mates ρ r (.global n t) (.global n t)
  | result {n : String} {i j : Instr} (t : Ty) : r = some n → ρ.instrs n i j →
      Mates ρ r (.result i.name t) (.result j.name t)

namespace Code.Operand.Mates

variable {ρ σ : Pairing} {r : Option String} {x y : Operand}

theorem mono (h : x.Mates ρ r y) (hρ : ρ.Sub σ) : x.Mates σ r y := by
  cases h with
  | int t n => exact .int t n
  | float x => exact .float x
  | global n t => exact .global n t
  | result t hr hij => exact .result t hr (hρ.instrs _ _ _ hij)

theorem ty_eq (h : x.Mates ρ r y) : x.ty = y.ty := by
  cases h <;> rfl

theorem elsewhere (h : x.Mates ρ r y) (hx : ∀ n t, x ≠ .result n t) (r' : Option String) :
    x.Mates ρ r' y := by
  cases h with
  | int t n => exact .int t n
  | float x => exact .float x
  | global n t => exact .global n t
  | result t => exact absurd rfl (hx _ t)

end Code.Operand.Mates

def Pairing.MatesOpt (ρ : Pairing) (r : Option String) : Option Operand → Option Operand → Prop :=
  Option.Rel fun x y => x.Mates ρ r y

theorem Pairing.MatesOpt.mono {ρ σ : Pairing} {r : Option String} {x y : Option Operand}
    (h : ρ.MatesOpt r x y) (hρ : ρ.Sub σ) : σ.MatesOpt r x y :=
  optionRel_mono (fun _ _ h => h.mono hρ) h

/-- Operations that do the same in a routine. -/
inductive Code.Op.Mates (ρ : Pairing) (r : String) : Op → Op → Prop
  | binary {x x' y y'} (op : BinaryOp) : x.Mates ρ (some r) x' → y.Mates ρ (some r) y' →
      Mates ρ r (.binary op x y) (.binary op x' y')
  | icmp {x x' y y'} (rel : Relation) : x.Mates ρ (some r) x' → ρ.MatesOpt (some r) y y' →
      Mates ρ r (.icmp rel x y) (.icmp rel x' y')
  | fcmp {x x' y y'} (rel : Relation) : x.Mates ρ (some r) x' → ρ.MatesOpt (some r) y y' →
      Mates ρ r (.fcmp rel x y) (.fcmp rel x' y')
  | sitofp {x x'} (t : Ty) : x.Mates ρ (some r) x' → Mates ρ r (.sitofp x t) (.sitofp x' t)
  | bitcast {x x'} (t : Ty) : x.Mates ρ (some r) x' → Mates ρ r (.bitcast x t) (.bitcast x' t)
  | alloca (t : Ty) : Mates ρ r (.alloca t) (.alloca t)
  | load {x x'} : x.Mates ρ (some r) x' → Mates ρ r (.load x) (.load x')
  | store {x x' y y'} : x.Mates ρ (some r) x' → y.Mates ρ (some r) y' →
      Mates ρ r (.store x y) (.store x' y')
  | storeParam {n y y'} (t : Ty) : ρ.params r n → y.Mates ρ (some r) y' →
      Mates ρ r (.store (.result n t) y) (.store (.result n t) y')
  | call {f f' xs xs'} : f.Mates ρ (some r) f' → List.Forall₂ (ρ.MatesOpt (some r)) xs xs' →
      Mates ρ r (.call f xs) (.call f' xs')
  | br {x y} : ρ.Targets r x y → Mates ρ r (.br x) (.br y)
  | condBr {c c' x x' y y'} : ρ.MatesOpt (some r) c c' → ρ.Targets r x x' → ρ.Targets r y y' →
      Mates ρ r (.condBr c x y) (.condBr c' x' y')
  | ret {v v'} : ρ.MatesOpt (some r) v v' → Mates ρ r (.ret v) (.ret v')

namespace Code.Op.Mates

variable {ρ σ : Pairing} {r : String} {op op' : Op}

theorem mono (h : op.Mates ρ r op') (hρ : ρ.Sub σ) : op.Mates σ r op' := by
  cases h with
  | binary op hx hy => exact .binary op (hx.mono hρ) (hy.mono hρ)
  | icmp rel hx hy => exact .icmp rel (hx.mono hρ) (hy.mono hρ)
  | fcmp rel hx hy => exact .fcmp rel (hx.mono hρ) (hy.mono hρ)
  | sitofp t hx => exact .sitofp t (hx.mono hρ)
  | bitcast t hx => exact .bitcast t (hx.mono hρ)
  | alloca t => exact .alloca t
  | load hx => exact .load (hx.mono hρ)
  | store hx hy => exact .store (hx.mono hρ) (hy.mono hρ)
  | storeParam t hn hy => exact .storeParam t (hρ.params _ _ hn) (hy.mono hρ)
  | call hf hxs => exact .call (hf.mono hρ) (hxs.imp fun _ _ h => h.mono hρ)
  | br hx => exact .br (hx.mono hρ)
  | condBr hc hx hy => exact .condBr (hc.mono hρ) (hx.mono hρ) (hy.mono hρ)
  | ret hv => exact .ret (hv.mono hρ)

theorem ty_eq (h : op.Mates ρ r op') : op.ty = op'.ty := by
  cases h with
  | binary op hx hy => exact hx.ty_eq
  | load hx => simp only [Op.ty, hx.ty_eq]
  | call hf hxs => simp only [Op.ty, hf.ty_eq]
  | _ => rfl

theorem isTerminator_eq (h : op.Mates ρ r op') : op.isTerminator = op'.isTerminator := by
  cases h <;> rfl

end Code.Op.Mates

namespace Code

/-- A routine as it is seen from outside, with the name of its first block. -/
structure Signature where
  result : Ty
  params : List (String × Ty)
  variadic : Bool
  entry : Option String

def Routine.signature (r : Routine) : Signature :=
  ⟨r.result, r.params, r.variadic, r.blocks.head?.map Block.name⟩

def Item.outline : Item → Constant ⊕ Signature
  | .constant c => .inl c
  | .routine r => .inr r.signature

def Assembly.outline? (a : Assembly) (n : String) : Option (Constant ⊕ Signature) :=
  (a.item? n).map Item.outline

section Outlines

variable {a : Assembly} {r : Routine} {p : Place} {op : Op} {name n : String}

theorem Assembly.outline?_modifyRoutine {f : Routine → Routine} (hf : ∀ r, r.name = n →
    (f r).name = n)
    (hsame : ∀ r, a.routine? n = some r → (f r).signature = r.signature) (m : String) :
    (a.modifyRoutine n f).outline? m = a.outline? m := by
  rw [outline?, item?_modifyRoutine hf, outline?]
  cases hm : a.item? m with
  | none => rfl
  | some i =>
    cases i with
    | constant c => rfl
    | routine r =>
      simp only [Option.map_some]
      split_ifs with hr
      · have hname := item?_name hm
        subst hr
        subst hname
        simp only [Item.outline, hsame r (routine?_eq_some.mpr hm)]
      · rfl

theorem Routine.signature_addInstr (r : Routine) (block : String) (i : Instr) :
    (r.addInstr block i).signature = r.signature := by
  simp only [signature, addInstr, List.head?_map, Option.map_map, Signature.mk.injEq, true_and]
  congr 1
  funext b
  simp only [Function.comp_apply]
  split_ifs
  · rfl
  · rfl

theorem Assembly.outline?_withInstr (hr : a.routine? p.routine = some r) (m : String) :
    (a.withInstr p r op).outline? m = a.outline? m := by
  have hname : r.takeName.2.name = p.routine := show r.name = p.routine from routine?_name hr
  have hadd : ∀ r' : Routine, r'.name = p.routine →
    (r'.addInstr p.block ⟨r.takeName.1, op⟩).name = p.routine := fun _ h => h
  rw [withInstr, outline?_modifyRoutine hadd fun r' _ => r'.signature_addInstr _ _]
  refine outline?_modifyRoutine (fun _ _ => hname) (fun r' hr' => ?_) m
  rw [hr] at hr'
  exact Option.some.inj hr' ▸ rfl

theorem Assembly.outline?_withBlock (hr : a.routine? r.name = some r) (hblocks : r.blocks ≠ [])
    (m : String) : (a.withBlock r name).outline? m = a.outline? m := by
  have hname : ∀ r' : Routine, r'.name = r.name → (r.addBlock name).2.name = r.name :=
    fun _ _ => rfl
  refine outline?_modifyRoutine hname (fun r' hr' => ?_) m
  obtain rfl := Option.some.inj (hr.symm.trans hr')
  obtain ⟨b, bs, hb⟩ := List.exists_cons_of_ne_nil hblocks
  simp [Routine.signature, Routine.addBlock, hb]

theorem Assembly.outline?_withBlock_other {m : String} (hm : m ≠ r.name) :
    (a.withBlock r name).outline? m = a.outline? m := by
  have hname : ∀ r' : Routine, r'.name = r.name → (r.addBlock name).2.name = r.name :=
    fun _ _ => rfl
  rw [outline?, withBlock, item?_modifyRoutine hname, outline?]
  cases hi : a.item? m with
  | none => rfl
  | some i =>
    cases i with
    | constant c => rfl
    | routine r' =>
      have hne : r'.name ≠ r.name := fun heq => hm ((item?_name hi).symm.trans heq)
      simp only [Option.map_some, if_neg hne]

theorem Routine.signature_addBlock (h : r.blocks = []) : (r.addBlock name).2.signature =
    ⟨r.result, r.params, r.variadic, some (r.addBlock name).1⟩ := by
  simp [signature, addBlock, h]

theorem Assembly.outline?_add {i : Item} (hi : a.item? i.name = none) (m : String) :
    (a.add i).outline? m = if m = i.name then some i.outline else a.outline? m := by
  rw [outline?, item?_add hi]
  split_ifs
  · rfl
  · rfl

theorem Assembly.outline?_routine (hr : a.routine? n = some r) :
    a.outline? n = some (.inr r.signature) := by
  rw [outline?, routine?_eq_some.mp hr]
  rfl

theorem Assembly.routine?_of_outline {g : Signature} (h : a.outline? n = some (.inr g)) :
    ∃ r, a.routine? n = some r ∧ r.signature = g := by
  obtain ⟨i, hi, hg⟩ := Option.map_eq_some_iff.mp h
  cases i with
  | constant c => cases hg
  | routine r => exact ⟨r, routine?_eq_some.mpr hi, Sum.inr.inj hg⟩

theorem Assembly.block?_of_code {is : List Instr} (hr : a.routine? n = some r)
    (h : a.code? ⟨n, name⟩ = some is) : ∃ b, r.block? name = some b ∧ b.instrs = is := by
  rw [Assembly.code?, hr, Option.bind_some] at h
  exact Option.map_eq_some_iff.mp h

end Outlines

/-- Nothing has changed for the blocks in `P`, nor in what is seen of routines from outside. -/
structure Assembly.Keeps (P : String → String → Prop) (a b : Assembly) : Prop where
  grows : a.Grows b
  outline : ∀ n, b.outline? n = a.outline? n
  code : ∀ r x, P r x → b.code? ⟨r, x⟩ = a.code? ⟨r, x⟩

namespace Assembly.Keeps

variable {P : String → String → Prop} {a b c : Assembly} {r : Routine} {p : Place} {op : Op}
  {name : String}

theorem refl (a : Assembly) : a.Keeps P a := ⟨.refl a, fun _ => rfl, fun _ _ _ => rfl⟩

theorem withInstr (hr : a.routine? p.routine = some r) (hp : ¬ P p.routine p.block) :
    a.Keeps P (a.withInstr p r op) := by
  refine ⟨.withInstr hr, Assembly.outline?_withInstr hr, fun r' x hx => ?_⟩
  rw [Assembly.code?_withInstr hr, if_neg]
  rintro rfl
  exact hp hx

theorem withBlock (ha : a.Sound) (hr : a.routine? r.name = some r) (hblocks : r.blocks ≠ [])
    (hP : ∀ r x, P r x → (a.code? ⟨r, x⟩).isSome = true) : a.Keeps P (a.withBlock r name) := by
  refine ⟨Assembly.Grows.steps.withBlock hr, Assembly.outline?_withBlock hr hblocks, fun r' x hx =>
    ?_⟩
  rw [Assembly.code?_withBlock ha hr, if_neg]
  intro heq
  have hsome := hP r' x hx
  rw [heq, Assembly.code?_new ha hr] at hsome
  cases hsome

end Assembly.Keeps

end Code

namespace Pairing

/-- The same global, seen from outside. -/
inductive Outlines (ρ : Pairing) (n : String) : Constant ⊕ Signature → Constant ⊕ Signature → Prop
  | constant (c : Constant) : Outlines ρ n (.inl c) (.inl c)
  | routine {entry entry'} (result : Ty) (params : List (String × Ty)) (variadic : Bool) :
      Option.Rel (ρ.blocks n) entry entry' →
      Outlines ρ n (.inr ⟨result, params, variadic, entry⟩)
        (.inr ⟨result, params, variadic, entry'⟩)

/-- Both assemblies have the same globals, and the blocks that belong together the same code. -/
structure Fits (ρ : Pairing) (a b : Assembly) : Prop where
  outlines : ∀ n, Option.Rel (ρ.Outlines n) (a.outline? n) (b.outline? n)
  code : ∀ r x y, ρ.blocks r x y → ∃ is js, a.code? ⟨r, x⟩ = some is ∧ b.code? ⟨r, y⟩ = some js ∧
    List.Forall₂ (ρ.instrs r) is js
  unique : ∀ r x x' y y', ρ.blocks r x y → ρ.blocks r x' y' → (x = x' ↔ y = y')
  left : ∀ r i j, ρ.instrs r i j → ∃ x is, a.code? ⟨r, x⟩ = some is ∧ i ∈ is
  right : ∀ r i j, ρ.instrs r i j → ∃ y js, b.code? ⟨r, y⟩ = some js ∧ j ∈ js
  mates : ∀ r i j, ρ.instrs r i j → i.op.Mates ρ r j.op
  names : ∀ r i i' j j', ρ.instrs r i j → ρ.instrs r i' j' → (i.name = i'.name ↔ j.name = j'.name)
  apart : ∀ r n i j, ρ.params r n → ρ.instrs r i j → i.name ≠ n ∧ j.name ≠ n
  used : ∀ r n, ρ.params r n → ∃ ra rb, a.routine? r = some ra ∧ b.routine? r = some rb ∧
    n ∈ ra.names.used ∧ n ∈ rb.names.used
  given : ∀ r ra, a.routine? r = some ra → ∀ p ∈ ra.params, ρ.params r p.1

/-- Each detour leads to the partner of its block. -/
def Settled (ρ : Pairing) (b : Assembly) : Prop :=
  ∀ r x y, ρ.detours r x y → ∃ n z js, b.code? ⟨r, y⟩ = some (⟨n, .br z⟩ :: js) ∧ ρ.blocks r x z

def PairedLeft (ρ : Pairing) (r x : String) : Prop := ∃ y, ρ.blocks r x y

def PairedRight (ρ : Pairing) (r y : String) : Prop := ∃ x, ρ.blocks r x y

variable {ρ σ : Pairing} {a a' b b' : Assembly}

theorem Outlines.mono {n : String} {g h : Constant ⊕ Signature} (hgh : ρ.Outlines n g h)
    (hρ : ρ.Sub σ) : σ.Outlines n g h := by
  cases hgh with
  | constant c => exact .constant c
  | routine result params variadic hentry =>
    exact .routine result params variadic (optionRel_mono (hρ.blocks n) hentry)

theorem Settled.grows (h : ρ.Settled b) (hg : b.Grows b') : ρ.Settled b' := by
  intro r x y hxy
  obtain ⟨n, z, js, hcode, hz⟩ := h r x y hxy
  obtain ⟨ks, hks⟩ := hg.code hcode
  exact ⟨n, z, js ++ ks, hks, hz⟩

theorem Settled.more (h : ρ.Settled b) (hρ : ρ.Sub σ) (hdetours : ∀ r x y, σ.detours r x y →
    ρ.detours r x y) : σ.Settled b := by
  intro r x y hxy
  obtain ⟨n, z, js, hcode, hz⟩ := h r x y (hdetours r x y hxy)
  exact ⟨n, z, js, hcode, hρ.blocks r x z hz⟩

namespace Fits

variable {r x y : String}

theorem routines (h : ρ.Fits a b) {ra : Routine} (hr : a.routine? r = some ra) :
    ∃ rb, b.routine? r = some rb ∧ ra.result = rb.result ∧ ra.params = rb.params ∧
      ra.variadic = rb.variadic ∧
      Option.Rel (ρ.blocks r) (ra.blocks.head?.map Block.name)
        (rb.blocks.head?.map Block.name) := by
  have hout := h.outlines r
  rw [Assembly.outline?_routine hr] at hout
  generalize hb : b.outline? r = out at hout
  cases hout with
  | some hout =>
    generalize hg : ra.signature = g at hout
    cases hout with
    | routine result params variadic hentry =>
      obtain ⟨rb, hrb, hrb'⟩ := Assembly.routine?_of_outline hb
      obtain ⟨h₁, h₂, h₃, h₄⟩ := Signature.mk.inj hg
      obtain ⟨h₁', h₂', h₃', h₄'⟩ := Signature.mk.inj hrb'
      refine ⟨rb, hrb, h₁.trans h₁'.symm, h₂.trans h₂'.symm, h₃.trans h₃'.symm, ?_⟩
      rw [h₄, h₄']
      exact hentry

theorem items (h : ρ.Fits a b) (n : String) : (a.item? n = none ∧ b.item? n = none) ∨
    (∃ c, a.item? n = some (.constant c) ∧ b.item? n = some (.constant c)) ∨
    ∃ ra rb, a.item? n = some (.routine ra) ∧ b.item? n = some (.routine rb) := by
  have hout := h.outlines n
  rw [Assembly.outline?, Assembly.outline?] at hout
  cases ha : a.item? n with
  | none =>
    cases hb : b.item? n with
    | none => exact .inl ⟨rfl, rfl⟩
    | some i' =>
      rw [ha, hb] at hout
      cases hout
  | some i =>
    cases hb : b.item? n with
    | none =>
      rw [ha, hb] at hout
      cases hout
    | some i' =>
      rw [ha, hb] at hout
      cases hout with
      | some hout =>
        cases i with
        | constant c =>
          cases i' with
          | constant c' =>
            cases hout
            exact .inr (.inl ⟨c, rfl, rfl⟩)
          | routine r' => cases hout
        | routine r =>
          cases i' with
          | constant c' => cases hout
          | routine r' => exact .inr (.inr ⟨r, r', rfl, rfl⟩)

theorem routine?_none (h : ρ.Fits a b) {n : String} (hr : a.routine? n = none) :
    b.routine? n = none := by
  cases hrb : b.routine? n with
  | none => rfl
  | some rb =>
    rw [Assembly.routine?_eq_some] at hrb
    rcases h.items n with ⟨-, hb⟩ | ⟨c, -, hb⟩ | ⟨ra, -, ha, -⟩
    · cases hb.symm.trans hrb
    · cases hb.symm.trans hrb
    · cases hr.symm.trans (Assembly.routine?_eq_some.mpr ha)

theorem operand_eq (h : ρ.Fits a b) (n : String) :
    (a.item? n).map Item.operand = (b.item? n).map Item.operand := by
  rcases h.items n with ⟨ha, hb⟩ | ⟨c, ha, hb⟩ | ⟨ra, rb, ha, hb⟩
  · rw [ha, hb]
  · rw [ha, hb]
  · obtain ⟨rb', hrb', hresult, hparams, hvariadic, -⟩ :=
      h.routines (Assembly.routine?_eq_some.mpr ha)
    obtain rfl := Option.some.inj ((Assembly.routine?_eq_some.mpr hb).symm.trans hrb')
    have hname : ra.name = rb.name := (Assembly.item?_name ha).trans (Assembly.item?_name hb).symm
    rw [ha, hb, Option.map_some, Option.map_some, Item.operand, Item.operand, Routine.operand,
      Routine.operand, Routine.ty, Routine.ty, hname, hresult, hparams, hvariadic]

theorem pairedLeft_isSome (h : ρ.Fits a b) (r x : String) (hx : ρ.PairedLeft r x) :
    (a.code? ⟨r, x⟩).isSome = true := by
  obtain ⟨y, hxy⟩ := hx
  obtain ⟨is, js, his, -⟩ := h.code r x y hxy
  rw [his]
  rfl

theorem pairedRight_isSome (h : ρ.Fits a b) (r y : String) (hy : ρ.PairedRight r y) :
    (b.code? ⟨r, y⟩).isSome = true := by
  obtain ⟨x, hxy⟩ := hy
  obtain ⟨is, js, -, hjs, -⟩ := h.code r x y hxy
  rw [hjs]
  rfl

theorem left_grows (h : ρ.Fits a b) (hg : a.Grows a') {i j : Instr} (hij : ρ.instrs r i j) :
    ∃ x is, a'.code? ⟨r, x⟩ = some is ∧ i ∈ is := by
  obtain ⟨x, is, hx, hi⟩ := h.left r i j hij
  obtain ⟨ks, hks⟩ := hg.code hx
  exact ⟨x, is ++ ks, hks, List.mem_append_left _ hi⟩

theorem right_grows (h : ρ.Fits a b) (hg : b.Grows b') {i j : Instr} (hij : ρ.instrs r i j) :
    ∃ y js, b'.code? ⟨r, y⟩ = some js ∧ j ∈ js := by
  obtain ⟨y, js, hy, hj⟩ := h.right r i j hij
  obtain ⟨ks, hks⟩ := hg.code hy
  exact ⟨y, js ++ ks, hks, List.mem_append_left _ hj⟩

theorem used_grows (h : ρ.Fits a b) (ha : a.Grows a') (hb : b.Grows b') {n : String}
    (hn : ρ.params r n) :
    ∃ ra rb, a'.routine? r = some ra ∧ b'.routine? r = some rb ∧ n ∈ ra.names.used ∧
      n ∈ rb.names.used := by
  obtain ⟨ra, rb, hra, hrb, hna, hnb⟩ := h.used r n hn
  obtain ⟨ra', hra', hga⟩ := ha r ra hra
  obtain ⟨rb', hrb', hgb⟩ := hb r rb hrb
  exact ⟨ra', rb', hra', hrb', hga.used hna, hgb.used hnb⟩

theorem given_outlined (h : ρ.Fits a b) (hout : a'.outline? r = a.outline? r) {ra : Routine}
    (hr : a'.routine? r = some ra) : ∀ p ∈ ra.params, ρ.params r p.1 := by
  intro p hp
  rw [Assembly.outline?_routine hr] at hout
  obtain ⟨ra₀, hra₀, hsig⟩ := Assembly.routine?_of_outline hout.symm
  refine h.given r ra₀ hra₀ p ?_
  rw [show ra₀.params = ra.params from congrArg Signature.params hsig]
  exact hp

/-- Where each side grows apart from what belongs together, both still fit. -/
theorem keeps (h : ρ.Fits a b) (ha : a.Keeps ρ.PairedLeft a') (hb : b.Keeps ρ.PairedRight b') :
    ρ.Fits a' b' where
  outlines n := by
    rw [ha.outline, hb.outline]
    exact h.outlines n
  code r x y hxy := by
    rw [ha.code r x ⟨y, hxy⟩, hb.code r y ⟨x, hxy⟩]
    exact h.code r x y hxy
  unique := h.unique
  left _ _ _ := h.left_grows ha.grows
  right _ _ _ := h.right_grows hb.grows
  mates := h.mates
  names := h.names
  apart := h.apart
  used _ _ := h.used_grows ha.grows hb.grows
  given r _ hr := h.given_outlined (ha.outline r) hr

theorem withBlocks_of_grows (h : ρ.Fits a b) (ha : a.Grows a') (hb : b.Grows b')
    (hsame : ∀ r' x' y', ρ.blocks r' x' y' →
      a'.code? ⟨r', x'⟩ = a.code? ⟨r', x'⟩ ∧ b'.code? ⟨r', y'⟩ = b.code? ⟨r', y'⟩)
    (hout : ∀ n, Option.Rel ((ρ.withBlocks r x y).Outlines n) (a'.outline? n) (b'.outline? n))
    (hgiven : ∀ r' ra, a'.routine? r' = some ra → ∀ p ∈ ra.params, ρ.params r' p.1)
    (hx : a'.code? ⟨r, x⟩ = some []) (hy : b'.code? ⟨r, y⟩ = some [])
    (hleft : ¬ ρ.PairedLeft r x) (hright : ¬ ρ.PairedRight r y) :
      (ρ.withBlocks r x y).Fits a' b' where
  outlines := hout
  code := by
    rintro r' x' y' (hxy | ⟨rfl, rfl, rfl⟩)
    · rw [(hsame r' x' y' hxy).1, (hsame r' x' y' hxy).2]
      exact h.code r' x' y' hxy
    · exact ⟨[], [], hx, hy, .nil⟩
  unique := by
    rintro r' x₁ x₂ y₁ y₂ (h₁ | ⟨rfl, rfl, rfl⟩) (h₂ | ⟨hr, rfl, rfl⟩)
    · exact h.unique r' x₁ x₂ y₁ y₂ h₁ h₂
    · subst hr
      exact ⟨fun heq => absurd ⟨y₁, heq ▸ h₁⟩ hleft, fun heq => absurd ⟨x₁, heq ▸ h₁⟩ hright⟩
    · exact ⟨fun heq => absurd ⟨y₂, heq ▸ h₂⟩ hleft, fun heq => absurd ⟨x₂, heq ▸ h₂⟩ hright⟩
    · exact ⟨fun _ => rfl, fun _ => rfl⟩
  left _ _ _ := h.left_grows ha
  right _ _ _ := h.right_grows hb
  mates r i j hij := (h.mates r i j hij).mono (sub_withBlocks ..)
  names := h.names
  apart := h.apart
  used _ _ := h.used_grows ha hb
  given := hgiven

theorem withBlocks (h : ρ.Fits a b) (hx : a.code? ⟨r, x⟩ = some []) (hy : b.code? ⟨r, y⟩ = some [])
    (hleft : ¬ ρ.PairedLeft r x) (hright : ¬ ρ.PairedRight r y) : (ρ.withBlocks r x y).Fits a b :=
  h.withBlocks_of_grows (.refl a) (.refl b) (fun _ _ _ _ => ⟨rfl, rfl⟩)
    (fun n => optionRel_mono (fun _ _ hg => hg.mono (sub_withBlocks ..)) (h.outlines n)) h.given hx
      hy hleft hright

theorem withEntry (h : ρ.Fits a b) (hsa : a.Sound) (hsb : b.Sound) {ra rb : Routine} {n m : String}
    (hra : a.routine? ra.name = some ra) (hrb : b.routine? rb.name = some rb)
    (hname : ra.name = rb.name) (hblocks : ra.blocks = []) :
    (ρ.withBlocks ra.name (ra.addBlock n).1 (rb.addBlock m).1).Fits (a.withBlock ra n)
      (b.withBlock rb m) := by
  have hnewa : a.code? ⟨ra.name, (ra.addBlock n).1⟩ = none := Assembly.code?_new hsa hra
  have hnewb : b.code? ⟨rb.name, (rb.addBlock m).1⟩ = none := Assembly.code?_new hsb hrb
  have hleft : ¬ ρ.PairedLeft ra.name (ra.addBlock n).1 := by
    intro hpaired
    have hsome := h.pairedLeft_isSome _ _ hpaired
    rw [hnewa] at hsome
    cases hsome
  have hright : ¬ ρ.PairedRight ra.name (rb.addBlock m).1 := by
    intro hpaired
    have hsome := h.pairedRight_isSome _ _ hpaired
    rw [hname, hnewb] at hsome
    cases hsome
  obtain ⟨rb', hrb', hresult, hparams, hvariadic, hentry⟩ := h.routines hra
  rw [hname, hrb] at hrb'
  obtain rfl := Option.some.inj hrb'
  have hblocks' : rb.blocks = [] := by
    rw [hblocks] at hentry
    cases hb : rb.blocks with
    | nil => rfl
    | cons b bs =>
      rw [hb] at hentry
      cases hentry
  refine h.withBlocks_of_grows (Assembly.Grows.steps.withBlock hra)
    (Assembly.Grows.steps.withBlock hrb) ?_ ?_ ?_ ?_ ?_ hleft hright
  · intro r' x' y' hxy
    rw [Assembly.code?_withBlock hsa hra, Assembly.code?_withBlock hsb hrb, if_neg, if_neg]
    · exact ⟨rfl, rfl⟩
    · intro heq
      obtain ⟨rfl, rfl⟩ := Place.mk.inj heq
      exact hright ⟨x', hname ▸ hxy⟩
    · intro heq
      obtain ⟨rfl, rfl⟩ := Place.mk.inj heq
      exact hleft ⟨y', hxy⟩
  · intro k
    by_cases hk : k = ra.name
    · subst hk
      rw [Assembly.outline?_routine ((Assembly.routine?_withBlock hra).trans (if_pos rfl)),
        Assembly.outline?_routine ((Assembly.routine?_withBlock hrb).trans (if_pos hname)),
        Routine.signature_addBlock hblocks, Routine.signature_addBlock hblocks', hresult, hparams,
          hvariadic]
      exact .some (.routine _ _ _ (.some (.inr ⟨rfl, rfl, rfl⟩)))
    · rw [Assembly.outline?_withBlock_other hk, Assembly.outline?_withBlock_other (hname ▸ hk)]
      exact optionRel_mono (fun _ _ hg => hg.mono (sub_withBlocks ..)) (h.outlines k)
  · intro r' ra' hr' p hp
    rw [Assembly.routine?_withBlock hra] at hr'
    split_ifs at hr' with hr
    · obtain rfl := Option.some.inj hr'
      exact hr ▸ h.given _ ra hra p hp
    · exact h.given r' ra' hr' p hp
  · rw [Assembly.code?_withBlock hsa hra, if_pos rfl]
  · rw [Assembly.code?_withBlock hsb hrb, hname, if_pos rfl]

theorem withDetour (h : ρ.Fits a b) (r x y : String) : (ρ.withDetour r x y).Fits a b :=
  { h with
    outlines := fun n => optionRel_mono (fun _ _ hg => hg.mono (sub_withDetour ..)) (h.outlines n)
    mates := fun r i j hij => (h.mates r i j hij).mono (sub_withDetour ..) }

theorem left_used (h : ρ.Fits a b) (ha : a.Distinct) {ra : Routine} (hra : a.routine? r = some ra)
    {i j : Instr} (hij : ρ.instrs r i j) : i.name ∈ ra.names.used := by
  obtain ⟨x, is, hx, hi⟩ := h.left r i j hij
  exact ha.used _ ra is hra hx i hi

theorem right_used (h : ρ.Fits a b) (hb : b.Distinct) {rb : Routine} (hrb : b.routine? r = some rb)
    {i j : Instr} (hij : ρ.instrs r i j) : j.name ∈ rb.names.used := by
  obtain ⟨y, js, hy, hj⟩ := h.right r i j hij
  exact hb.used _ rb js hrb hy j hj

/-- Two operations that do the same are written behind two blocks that belong together. -/
theorem withInstrs (h : ρ.Fits a b) (ha : a.Distinct) (hb : b.Distinct) {ra rb : Routine}
    (hra : a.routine? r = some ra) (hrb : b.routine? r = some rb) (hxy : ρ.blocks r x y)
    {op op' : Op} (hop : op.Mates ρ r op') :
    (ρ.withInstrs r ⟨ra.takeName.1, op⟩ ⟨rb.takeName.1, op'⟩).Fits (a.withInstr ⟨r, x⟩ ra op)
      (b.withInstr ⟨r, y⟩ rb op') := by
  have hsub : ρ.Sub (ρ.withInstrs r ⟨ra.takeName.1, op⟩ ⟨rb.takeName.1, op'⟩) := sub_withInstrs ..
  have hga : a.Grows (a.withInstr ⟨r, x⟩ ra op) := .withInstr hra
  have hgb : b.Grows (b.withInstr ⟨r, y⟩ rb op') := .withInstr hrb
  -- the names of the new instructions are not those of old ones or of parameters
  have hnewa : ra.takeName.1 ∉ ra.names.used := ra.names.register_fresh ""
  have hnewb : rb.takeName.1 ∉ rb.names.used := rb.names.register_fresh ""
  have holda : ∀ i j, ρ.instrs r i j → i.name ≠ ra.takeName.1 :=
    fun i j hij heq => hnewa (heq ▸ h.left_used ha hra hij)
  have holdb : ∀ i j, ρ.instrs r i j → j.name ≠ rb.takeName.1 :=
    fun i j hij heq => hnewb (heq ▸ h.right_used hb hrb hij)
  obtain ⟨is, js, his, hjs, hcode⟩ := h.code r x y hxy
  have his' : (a.withInstr ⟨r, x⟩ ra op).code? ⟨r, x⟩ = some (is ++ [⟨ra.takeName.1, op⟩]) := by
    rw [Assembly.code?_withInstr hra, if_pos rfl, his]
    rfl
  have hjs' : (b.withInstr ⟨r, y⟩ rb op').code? ⟨r, y⟩ = some (js ++ [⟨rb.takeName.1, op'⟩]) := by
    rw [Assembly.code?_withInstr hrb, if_pos rfl, hjs]
    rfl
  constructor
  case outlines =>
    intro n
    rw [Assembly.outline?_withInstr hra, Assembly.outline?_withInstr hrb]
    exact optionRel_mono (fun _ _ hg => hg.mono hsub) (h.outlines n)
  case code =>
    intro r' x' y' hxy'
    by_cases hr : r' = r ∧ x' = x
    · obtain ⟨rfl, rfl⟩ := hr
      obtain rfl := (h.unique _ _ _ _ _ hxy hxy').mp rfl
      refine ⟨_, _, his', hjs', ?_⟩
      exact List.rel_append (hcode.imp fun _ _ => .inl) (.cons (.inr ⟨rfl, rfl, rfl⟩) .nil)
    · have hr' : ¬ (r' = r ∧ y' = y) := by
        rintro ⟨rfl, rfl⟩
        exact hr ⟨rfl, ((h.unique _ _ _ _ _ hxy hxy').mpr rfl).symm⟩
      obtain ⟨is', js', his', hjs', hcode'⟩ := h.code r' x' y' hxy'
      refine ⟨is', js', ?_, ?_, hcode'.imp fun _ _ => .inl⟩
      · rw [Assembly.code?_withInstr hra, if_neg, his']
        exact fun heq => hr (Place.mk.inj heq)
      · rw [Assembly.code?_withInstr hrb, if_neg, hjs']
        exact fun heq => hr' (Place.mk.inj heq)
  case unique => exact h.unique
  case left =>
    rintro r' i j (hij | ⟨rfl, rfl, rfl⟩)
    · exact h.left_grows hga hij
    · exact ⟨x, _, his', by simp⟩
  case right =>
    rintro r' i j (hij | ⟨rfl, rfl, rfl⟩)
    · exact h.right_grows hgb hij
    · exact ⟨y, _, hjs', by simp⟩
  case mates =>
    rintro r' i j (hij | ⟨rfl, rfl, rfl⟩)
    · exact (h.mates r' i j hij).mono hsub
    · exact hop.mono hsub
  case names =>
    rintro r' i i' j j' (hij | ⟨rfl, rfl, rfl⟩) (hij' | ⟨hr, rfl, rfl⟩)
    · exact h.names r' i i' j j' hij hij'
    · subst hr
      exact ⟨fun heq => absurd heq (holda i j hij), fun heq => absurd heq (holdb i j hij)⟩
    · exact ⟨fun heq => absurd heq.symm (holda i' j' hij'), fun heq =>
        absurd heq.symm (holdb i' j' hij')⟩
    · exact ⟨fun _ => rfl, fun _ => rfl⟩
  case apart =>
    rintro r' n i j hn (hij | ⟨rfl, rfl, rfl⟩)
    · exact h.apart r' n i j hn hij
    · obtain ⟨ra', rb', hra', hrb', hna, hnb⟩ := h.used r' n hn
      obtain rfl := Option.some.inj (hra.symm.trans hra')
      obtain rfl := Option.some.inj (hrb.symm.trans hrb')
      constructor
      · rintro rfl
        exact hnewa hna
      · rintro rfl
        exact hnewb hnb
  case used => exact fun _ _ => h.used_grows hga hgb
  case given =>
    exact fun r' _ => h.given_outlined (Assembly.outline?_withInstr (p := ⟨r, x⟩) hra r')

theorem addConstant (h : ρ.Fits a b) {c : Constant} (ha : a.item? c.name = none)
    (hb : b.item? c.name = none) : ρ.Fits (a.add (.constant c)) (b.add (.constant c)) := by
  have hga : a.Grows (a.add (.constant c)) := .add ha
  have hgb : b.Grows (b.add (.constant c)) := .add hb
  refine { h with
    outlines := fun n => ?_
    code := fun r x y hxy => ?_
    left := fun _ _ _ => h.left_grows hga
    right := fun _ _ _ => h.right_grows hgb
    used := fun _ _ => h.used_grows hga hgb
    given := fun r ra hr => ?_ }
  · rw [Assembly.outline?_add (i := .constant c) ha, Assembly.outline?_add (i := .constant c) hb]
    split_ifs
    · exact .some (.constant c)
    · exact h.outlines n
  · rw [Assembly.code?_add (i := .constant c) ha (by simp), Assembly.code?_add (i := .constant c) hb
      (by simp)]
    exact h.code r x y hxy
  · rw [Assembly.routine?_add_constant ha] at hr
    exact h.given r ra hr

theorem addRoutine (h : ρ.Fits a b) {r : Routine} (ha : a.item? r.name = none)
    (hb : b.item? r.name = none)
    (hblocks : r.blocks = []) (hparams : ∀ p ∈ r.params, p.1 ∈ r.names.used) :
    (ρ.withParams r.name (r.params.map Prod.fst)).Fits (a.add (.routine r))
      (b.add (.routine r)) := by
  have hsub : ρ.Sub (ρ.withParams r.name (r.params.map Prod.fst)) := sub_withParams ..
  have hga : a.Grows (a.add (.routine r)) := .add ha
  have hgb : b.Grows (b.add (.routine r)) := .add hb
  have hra : (a.add (.routine r)).routine? r.name = some r := Assembly.routine?_add_self ha
  have hrb : (b.add (.routine r)).routine? r.name = some r := Assembly.routine?_add_self hb
  -- nothing can have been written to it
  have hnone : ∀ i j, ¬ ρ.instrs r.name i j := by
    intro i j hij
    obtain ⟨x, is, hx, -⟩ := h.left r.name i j hij
    obtain ⟨r', hr', -⟩ := Option.bind_eq_some_iff.mp hx
    rw [Assembly.routine?_eq_some, ha] at hr'
    cases hr'
  refine { h with
    outlines := fun n => ?_
    code := fun r' x y hxy => ?_
    left := fun _ _ _ => h.left_grows hga
    right := fun _ _ _ => h.right_grows hgb
    mates := fun r i j hij => (h.mates r i j hij).mono hsub
    apart := ?_
    used := ?_
    given := fun r' ra hr p hp => ?_ }
  · rw [Assembly.outline?_add (i := .routine r) ha, Assembly.outline?_add (i := .routine r) hb]
    split_ifs
    · refine .some (.routine _ _ _ ?_)
      rw [hblocks]
      exact .none
    · exact optionRel_mono (fun _ _ hg => hg.mono hsub) (h.outlines n)
  · have hcode : ∀ r', Item.routine r = .routine r' →
      r'.blocks = [] := fun r' hr' => Item.routine.inj hr' ▸ hblocks
    rw [Assembly.code?_add (i := .routine r) ha hcode, Assembly.code?_add (i := .routine r) hb
      hcode]
    exact h.code r' x y hxy
  · rintro r' n i j (hn | ⟨rfl, -⟩) hij
    · exact h.apart r' n i j hn hij
    · exact absurd hij (hnone i j)
  · rintro r' n (hn | ⟨rfl, hn⟩)
    · exact h.used_grows hga hgb hn
    · obtain ⟨p, hp, rfl⟩ := List.mem_map.mp hn
      exact ⟨r, r, hra, hrb, hparams p hp, hparams p hp⟩
  · rw [Assembly.routine?_add_routine ha] at hr
    split_ifs at hr with hname
    · obtain rfl := Option.some.inj hr
      exact .inr ⟨hname, List.mem_map_of_mem hp⟩
    · exact .inl (h.given r' ra hr p hp)

end Fits

end Pairing

end LimeLang
