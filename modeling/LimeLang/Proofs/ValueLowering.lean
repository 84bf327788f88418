import LimeLang.Proofs.Acceptance
import LimeLang.Proofs.Translation

/-! The code that is generated for integer expressions and assignments is the code that stands for
them, it uses only what is at hand, and generating it does not fail. -/

namespace LimeLang

open Code

variable {b : BinaryOp} {o : InfixOp} {op : String}

def KnownSlots (env : Env) (name : String) (t : Ty) : Prop :=
  (∃ x, env x = some name) ∧ t = .pointer .i32

def IsKnown (known : String → Ty → Prop) (is : List Instr) (v : Operand) : Prop :=
  ∀ name t, v = .result name t → KnownAfter known is name t

section Fitting

variable {known : String → Ty → Prop} {is js : List Instr} {v w : Operand} {op : Op} {m : String}

theorem Fits.snoc (h : Fits known is) (hty : op.isTyped .i32 = true)
    (hops : ∀ x ∈ op.operands, IsKnown known is x) : Fits known (is ++ [⟨m, op⟩]) :=
  h.append ⟨hty, fun name t hmem => hops _ hmem name t rfl, trivial⟩

theorem IsKnown.append (h : IsKnown known is v) : IsKnown known (is ++ js) v := by
  intro name t hv
  rcases h name t hv with h | ⟨i, hi, hdef⟩
  · exact .inl h
  · exact .inr ⟨i, List.mem_append_left _ hi, hdef⟩

theorem IsKnown.behind (h : IsKnown known js v) : IsKnown known (is ++ js) v := by
  intro name t hv
  rcases h name t hv with h | ⟨i, hi, hdef⟩
  · exact .inl h
  · exact .inr ⟨i, List.mem_append_right _ hi, hdef⟩

theorem isKnown_of_mem {t : Ty} (hmem : ⟨m, op⟩ ∈ is) (hop : op.ty = t) (ht : t ≠ .void) :
    IsKnown known is (.result m t) := by
  rintro name t ⟨⟩
  exact .inr ⟨_, hmem, by simp [Instr.defines, hop, ht]⟩

theorem isKnown_last {k : Nat} (hop : op.ty = .int k) :
    IsKnown known (is ++ [⟨m, op⟩]) (.result m (.int k)) :=
  isKnown_of_mem (List.mem_append_right _ List.mem_cons_self) hop Ty.noConfusion

theorem isKnown_int (t : Ty) (k : Int) : IsKnown known is (.int t k) := by
  rintro name t ⟨⟩

theorem isKnown_slot {env : Env} {x n : String} (hx : env x = some n) :
    IsKnown (KnownSlots env) is (slotOf n) := by
  rintro name t ⟨⟩
  exact .inl ⟨⟨x, hx⟩, rfl⟩

theorem argsFit_ints {vs : List Operand} (h : ∀ v ∈ vs, v.ty = .i32) :
    argsFit (List.replicate vs.length .i32) false (vs.map some) = true := by
  induction vs with
  | nil => rfl
  | cons v vs ih =>
    rw [List.length_cons, List.replicate_succ, List.map_cons, argsFit, h v List.mem_cons_self,
      ih fun u hu => h u (List.mem_cons_of_mem _ hu)]
    rfl

theorem InfixOp.machineOp?_typed (h : o.machineOp? = some b) (hv : v.ty = .i32) (hw : w.ty = .i32) :
    (Op.binary b v w).isTyped .i32 = true := by
  cases o <;> simp [machineOp?] at h
  all_goals
    subst h
    simp [Op.isTyped, hv, hw, BinaryOp.isFloat, Ty.isInt, Ty.i32]

end Fitting

section Fits

variable {fs : Signatures} {env : Env}

mutual

theorem ExprCode.fits : ∀ {x : Expr} {is : List Instr} {v : Operand}, ExprCode fs env x is v →
    Fits (KnownSlots env) is ∧ IsKnown (KnownSlots env) is v
  | _, _, _, .int => ⟨trivial, isKnown_int _ _⟩
  | _, _, _, .ident hx => by
    refine ⟨⟨rfl, ?_, trivial⟩, isKnown_of_mem List.mem_cons_self rfl Ty.noConfusion⟩
    intro name t hmem
    obtain ⟨rfl, rfl⟩ := Operand.result.inj (List.mem_singleton.mp hmem)
    exact ⟨⟨_, hx⟩, rfl⟩
  | _, _, _, .infixed hl hr hop => by
    obtain ⟨hfl, hkl⟩ := ExprCode.fits hl
    obtain ⟨hfr, hkr⟩ := ExprCode.fits hr
    refine ⟨(hfl.append (hfr.mono fun _ _ => .inl)).snoc ?_ ?_, isKnown_last hl.operand.1⟩
    · exact InfixOp.machineOp?_typed hop hl.operand.1 hr.operand.1
    · simpa [Op.operands] using ⟨hkl.append, hkr.behind⟩
  | _, _, _, .neg hx => by
    obtain ⟨hf, hk⟩ := ExprCode.fits hx
    refine ⟨hf.snoc ?_ ?_, isKnown_last hx.operand.1⟩
    · exact InfixOp.machineOp?_typed (o := .mul) rfl hx.operand.1 rfl
    · simpa [Op.operands] using ⟨hk, isKnown_int _ _⟩
  | _, _, _, .call hf hargs => by
    obtain ⟨hfs, hks, htys, hlen⟩ := ArgsCode.fits hargs
    refine ⟨hfs.snoc ?_ ?_, isKnown_last rfl⟩
    · exact hlen ▸ argsFit_ints htys
    · intro x hx
      rcases List.mem_cons.mp hx with rfl | hx
      · rintro name t ⟨⟩
      · exact hks x (by simpa using hx)

theorem ArgsCode.fits : ∀ {xs : List Expr} {is : List Instr} {vs : List Operand},
    ArgsCode fs env xs is vs →
    Fits (KnownSlots env) is ∧ (∀ v ∈ vs, IsKnown (KnownSlots env) is v) ∧ (∀ v ∈ vs, v.ty = .i32) ∧
      vs.length = xs.length
  | _, _, _, .nil => ⟨trivial, by simp, by simp, rfl⟩
  | _, _, _, .cons hx hxs => by
    obtain ⟨hf, hk⟩ := ExprCode.fits hx
    obtain ⟨hfs, hks, htys, hlen⟩ := ArgsCode.fits hxs
    refine ⟨hf.append (hfs.mono fun _ _ => .inl), ?_, ?_, by simp [hlen]⟩
    · simpa using ⟨hk.append, fun v hv => (hks v hv).behind⟩
    · simpa using ⟨hx.operand.1, htys⟩

end

theorem TestCode.fits {x : Expr} {is : List Instr} {w : Operand} (h : TestCode fs env x is w) :
    Fits (KnownSlots env) is ∧ IsKnown (KnownSlots env) is w ∧ w.ty = .i1 := by
  obtain ⟨hl, hr, hop⟩ := h
  obtain ⟨hfl, hkl⟩ := hl.fits
  obtain ⟨hfr, hkr⟩ := hr.fits
  have hint : Ty.i32.isInt = true := rfl
  refine ⟨(hfl.append (hfr.mono fun _ _ => .inl)).snoc ?_ ?_, isKnown_last rfl, rfl⟩
  · rw [Op.isTyped, hl.operand.1, hint, Operand.fits.eq_def]
    split
    · rfl
    · simp [hr.operand.1]
  · simpa [Op.operands] using ⟨hkl.append, hkr.behind⟩

variable {is js : List Instr} {w : Operand} {n m x : String}

theorem Fits.load (h : Fits (KnownSlots env) is) (hx : env x = some n) :
    Fits (KnownSlots env) (is ++ [⟨m, .load (slotOf n)⟩]) :=
  h.snoc rfl (by simpa [Op.operands] using isKnown_slot hx)

theorem Fits.store {known : String → Ty → Prop} (h : Fits known is) (hty : w.ty = .i32)
    (hw : IsKnown known is w) (hn : IsKnown known is (slotOf n)) :
    Fits known (is ++ [⟨m, .store w (slotOf n)⟩]) := by
  refine h.snoc ?_ (by simpa [Op.operands] using ⟨hw, hn⟩)
  rw [Op.isTyped, hty]
  rfl

theorem Fits.binary {known : String → Ty → Prop} {v : Operand} (h : Fits known is)
    (hb : o.machineOp? = some b) (hv : v.ty = .i32) (hw : w.ty = .i32) (hkv : IsKnown known is v)
    (hkw : IsKnown known is w) : Fits known (is ++ [⟨m, .binary b v w⟩]) :=
  h.snoc (InfixOp.machineOp?_typed hb hv hw) (by simpa [Op.operands] using ⟨hkv, hkw⟩)

theorem Fits.slot {known : String → Ty → Prop} (h : Fits known is) (hty : w.ty = .i32)
    (hw : IsKnown known is w) : Fits known
      (is ++ [⟨n, .alloca .i32⟩, ⟨m, .store w (slotOf n)⟩]) := by
  rw [List.append_cons]
  refine (h.snoc rfl (by simp [Op.operands])).store hty hw.append ?_
  exact isKnown_of_mem (List.mem_append_right _ List.mem_cons_self) rfl Ty.noConfusion

theorem AssignCode.fits (h : AssignCode n w op js) (hf : Fits (KnownSlots env) is)
    (hty : w.ty = .i32) (hw : IsKnown (KnownSlots env) is w) (hx : env x = some n) :
    Fits (KnownSlots env) (is ++ js) := by
  cases h with
  | plain => exact hf.store hty hw (isKnown_slot hx)
  | loaded =>
    rw [List.append_cons]
    exact (hf.load hx).store hty hw.append (isKnown_slot hx)
  | update ho hb =>
    rw [List.append_cons, List.append_cons]
    refine ((hf.load hx).binary hb rfl hty (isKnown_last rfl) hw.append).store rfl ?_
      (isKnown_slot hx)
    exact isKnown_last rfl

end Fits

/-- The step comes to an end in which `Q` holds. -/
def Gives {α : Type} (g : Gen α) (s : Session) (Q : α → Session → Prop) : Prop :=
  ∃ a t, g.run s = (.ok a, t) ∧ Q a t

namespace Gives

variable {α β : Type} {s : Session} {Q : α → Session → Prop} {x : Gen α}

theorem of_run {a : α} {t : Session} (h : x.run s = (.ok a, t)) (hQ : Q a t) :
    Gives x s Q := ⟨a, t, h, hQ⟩

theorem pure {a : α} (h : Q a s) : Gives (Pure.pure a) s Q := of_run rfl h

theorem bind {f : α → Gen β} {Q : β → Session → Prop} (h : Gives x s fun a t => Gives (f a) t Q) :
    Gives (x >>= f) s Q := by
  obtain ⟨a, t, hx, b, u, hf, hQ⟩ := h
  exact of_run (by rw [Gen.run_bind, hx]; exact hf) hQ

theorem bind_run {f : α → Gen β} {Q : β → Session → Prop} {a : α} {t : Session}
    (h : x.run s = (.ok a, t)) (hf : Gives (f a) t Q) : Gives (x >>= f) s Q := bind (of_run h hf)

theorem get {f : Session → Gen β} {Q : β → Session → Prop} (h : Gives (f s) s Q) :
    Gives (MonadState.get >>= f) s Q := bind_run rfl h

theorem mono {Q' : α → Session → Prop} (h : Gives x s Q) (hQ : ∀ a t, Q a t → Q' a t) :
    Gives x s Q' := by
  obtain ⟨a, t, hx, hq⟩ := h
  exact of_run hx (hQ a t hq)

theorem and_ensures {R : α → Session → Prop} (h : Gives x s Q) (h' : Ensures x s R) :
    Gives x s fun a t => Q a t ∧ R a t := by
  obtain ⟨a, t, hx, hq⟩ := h
  rw [Ensures, hx] at h'
  exact of_run hx ⟨hq, h'⟩

end Gives

namespace Code

def Item.interface : Item → Item
  | .routine r => .routine { r with blocks := [], names := .initial }
  | i => i

def Assembly.interface (a : Assembly) : List Item := a.items.map Item.interface

def Assembly.used (a : Assembly) (ρ : String) : List String := (a.routine? ρ).elim [] (·.names.used)

theorem Assembly.interface_modifyRoutine {a : Assembly} {n : String} {f : Routine → Routine}
    (hf : ∀ r, .routine r ∈ a.items → r.name = n →
      (Item.routine (f r)).interface = (Item.routine r).interface) :
    (a.modifyRoutine n f).interface = a.interface := by
  rw [interface, interface, modifyRoutine, List.map_map]
  apply List.map_congr_left
  intro i hi
  cases i with
  | constant c => rfl
  | routine r =>
    by_cases h : r.name = n
    · simpa [h] using hf r hi h
    · simp [h]

theorem Assembly.Sound.interface_withInstr {a : Assembly} {p : Place} {r : Routine} {op : Op}
    (ha : a.Sound)
    (hr : a.routine? p.routine = some r) : (a.withInstr p r op).interface = a.interface := by
  refine (Assembly.interface_modifyRoutine ?_).trans (Assembly.interface_modifyRoutine ?_)
  · exact fun _ _ _ => rfl
  · intro r' hr' hn
    rw [ha.eq_of_mem hr hr' hn]
    rfl

theorem Assembly.Sound.interface_withBlock {a : Assembly} {r : Routine} {n : String} (ha : a.Sound)
    (hr : a.routine? r.name = some r) : (a.withBlock r n).interface = a.interface := by
  refine Assembly.interface_modifyRoutine fun r' hr' hn => ?_
  rw [ha.eq_of_mem hr hr' hn]
  rfl

theorem Assembly.Grows.used_subset {a b : Assembly} (h : a.Grows b) (ρ : String) :
    a.used ρ ⊆ b.used ρ := by
  rw [Assembly.used, Assembly.used]
  cases hr : a.routine? ρ with
  | none => simp
  | some r =>
    obtain ⟨r', hr', hgrow⟩ := h ρ r hr
    rw [hr']
    exact hgrow.used

end Code

structure Taken (ρ : String) (a b : Assembly) (ns : List String) : Prop where
  nodup : ns.Nodup
  fresh : ∀ n ∈ ns, n ∉ a.used ρ
  used : ns ⊆ b.used ρ

/-- The instructions `is` came to the end of a block. -/
structure Appended (p : Place) (a : Assembly) (is : List Instr) (b : Assembly) : Prop where
  grows : a.Grows b
  code : b.code? p = (a.code? p).map (· ++ is)
  taken : Taken p.routine a b (is.map Instr.name)

/-- Nothing else happened. -/
structure Emitted (p : Place) (s : Session) (is : List Instr) (t : Session) : Prop where
  session : t = { s with assembly := t.assembly }
  sound : t.assembly.Sound
  interface : t.assembly.interface = s.assembly.interface
  others : ∀ q, q ≠ p → t.assembly.code? q = s.assembly.code? q
  appended : Appended p s.assembly is t.assembly

section Appending

variable {p : Place} {a b c : Assembly} {is js : List Instr} {s t u : Session}

theorem Appended.of_code (hg : a.Grows b) (hcode : b.code? p = a.code? p) : Appended p a [] b :=
  ⟨hg, by simp [hcode], ⟨List.nodup_nil, by simp, by simp⟩⟩

theorem Appended.trans (h : Appended p a is b) (h' : Appended p b js c) :
    Appended p a (is ++ js) c where
  grows := h.grows.trans h'.grows
  code := by
    rw [h'.code, h.code, Option.map_map]
    congr 1
    funext old
    simp
  taken := by
    rw [List.map_append]
    refine ⟨List.nodup_append.mpr ⟨h.taken.nodup, h'.taken.nodup, ?_⟩, ?_, ?_⟩
    · rintro n hn _ hm rfl
      exact h'.taken.fresh n hm (h.taken.used hn)
    · intro n hn
      rcases List.mem_append.mp hn with hn | hn
      · exact h.taken.fresh n hn
      · exact fun hused => h'.taken.fresh n hn (h.grows.used_subset _ hused)
    · exact List.append_subset.mpr ⟨List.Subset.trans h.taken.used (h'.grows.used_subset _),
        h'.taken.used⟩

theorem Emitted.refl (hs : s.assembly.Sound) : Emitted p s [] s :=
  ⟨rfl, hs, rfl, fun _ _ => rfl, .of_code (.refl _) rfl⟩

theorem Emitted.trans (h : Emitted p s is t) (h' : Emitted p t js u) :
    Emitted p s (is ++ js) u where
  session := by rw [h'.session, h.session]
  sound := h'.sound
  interface := h'.interface.trans h.interface
  others := fun q hq => (h'.others q hq).trans (h.others q hq)
  appended := h.appended.trans h'.appended

theorem Emitted.place (h : Emitted p s is t) : t.place = s.place := by rw [h.session]

theorem Emitted.scopes (h : Emitted p s is t) : t.scopes = s.scopes := by rw [h.session]

theorem emit_gives {op : Op} {old : List Instr} (hp : s.place = some p) (hs : s.assembly.Sound)
    (hold : s.assembly.code? p = some old)
    (hopen : op.isTerminator = true → ∀ i ∈ old, i.op.isTerminator = false) :
    Gives (Gen.emit op) s fun v t => ∃ m, v = .result m op.ty ∧ Emitted p s [⟨m, op⟩] t := by
  obtain ⟨r, hr, -⟩ := Option.bind_eq_some_iff.mp hold
  refine .of_run (Gen.run_emit hp hr fun h => ⟨old, hold, hopen h⟩) ⟨r.takeName.1, rfl, ?_⟩
  refine ⟨rfl, hs.withInstr hr, hs.interface_withInstr hr, fun q hq => ?_, .withInstr hr, ?_, ?_⟩
  · rw [Assembly.code?_withInstr hr, if_neg hq]
  · rw [Assembly.code?_withInstr hr, if_pos rfl]
  · have hfresh : r.takeName.1 ∉ r.names.used := r.names.register_fresh ""
    refine ⟨List.nodup_singleton _, by simpa [Assembly.used, hr] using hfresh, ?_⟩
    rw [Assembly.used, Assembly.routine?_withInstr hr, if_pos rfl]
    have hused : (r.takeName.2.addInstr p.block ⟨r.takeName.1, op⟩).names.used =
        r.takeName.1 :: r.names.used := r.names.register_used ""
    simp [hused]

end Appending

/-- The scopes know the functions and the variables, and nothing else that a variable could be
called. -/
structure Bound (fs : Signatures) (env : Env) (c : Chain Binding) : Prop where
  vars : ∀ x n, env x = some n → c.find? (.text x) = some ⟨slotOf n, .i32⟩
  functions : ∀ f k, (f, k) ∈ fs → f ≠ "printf" ∧
    c.find? (.text f) = some ⟨functionOperand f k, .i32⟩
  free : ∀ x, env x = none → isVariableName fs x = true → c.find? (.text x) = none

theorem Literal.same_text (x y : String) : (Literal.text x).same (.text y) = decide (x = y) := by
  simp [Literal.same, Literal.key]

theorem Chain.find?_define_text {β : Type} (c : Chain β) {x y : String} (h : y ≠ x) (b : β) :
    (c.define (.text x) b).find? (.text y) = c.find? (.text y) :=
  find?_define_other c (by simpa [Literal.same_text] using h.symm) b

theorem isVariableName_iff {fs : Signatures} {x : String} :
    isVariableName fs x = true ↔ (∀ k, (x, k) ∉ fs) ∧ x ∉ builtinNames := by
  simp [isVariableName]

theorem Bound.define {fs : Signatures} {env : Env} {c : Chain Binding} {x n : String}
    (h : Bound fs env c) (hx : isVariableName fs x = true) :
    Bound fs (Function.update env x (some n)) (c.define (.text x) ⟨slotOf n, .i32⟩) := by
  refine ⟨fun y m hy => ?_, fun f k hf => ?_, fun y hy hfree => ?_⟩
  · by_cases hyx : y = x
    · subst hyx
      rw [Function.update_self] at hy
      rw [Chain.find?_define_same c (Literal.same_refl _), Option.some.inj hy]
    · rw [Function.update_of_ne hyx] at hy
      rw [c.find?_define_text hyx, h.vars y m hy]
  · have hfx : f ≠ x := fun heq => (isVariableName_iff.mp hx).1 k (heq ▸ hf)
    rw [c.find?_define_text hfx]
    exact h.functions f k hf
  · have hyx : y ≠ x := by
      rintro rfl
      simp at hy
    rw [Function.update_of_ne hyx] at hy
    rw [c.find?_define_text hyx, h.free y hy hfree]

theorem Gen.binary_eq_emit {v w : Operand} (h : v.ty = w.ty) :
    Gen.binary b (some v) (some w) = Gen.emit (.binary b v w) := by
  simp [Gen.binary, Gen.need, h]

/-- Instructions go to the block at `p`. -/
structure Session.Stands (s : Session) (p : Place) : Prop where
  place : s.place = some p
  sound : s.assembly.Sound
  block : (s.assembly.code? p).isSome = true

namespace Session.Stands

variable {s t : Session} {p : Place} {is : List Instr} {v w : Operand}

theorem emitted (h : s.Stands p) (he : Emitted p s is t) : t.Stands p where
  place := he.place.trans h.place
  sound := he.sound
  block := by
    rw [he.appended.code, Option.isSome_map]
    exact h.block

theorem emit {op : Op} (h : s.Stands p) (hop : op.isTerminator = false) :
    Gives (Gen.emit op) s fun v t => ∃ m, v = .result m op.ty ∧ Emitted p s [⟨m, op⟩] t := by
  obtain ⟨old, hold⟩ := Option.isSome_iff_exists.mp h.block
  exact emit_gives h.place h.sound hold (by simp [hop])

theorem load (h : s.Stands p) (hv : v.ty.isPointer = true) :
    Gives (Gen.load v) s fun w t => ∃ m, w = .result m (Op.load v).ty ∧
      Emitted p s [⟨m, .load v⟩] t := by
  rw [Gen.load, if_pos hv]
  exact h.emit rfl

theorem binary (h : s.Stands p) (hty : v.ty = w.ty) :
    Gives (Gen.binary b (some v) (some w)) s fun u t =>
      ∃ m, u = .result m v.ty ∧ Emitted p s [⟨m, .binary b v w⟩] t := by
  rw [Gen.binary_eq_emit hty]
  exact h.emit rfl

theorem store (h : s.Stands p) (hw : w.ty = .pointer v.ty) :
    Gives (Gen.store (some v) w) s fun _ t => ∃ m, Emitted p s [⟨m, .store v w⟩] t := by
  simp only [Gen.store, hw, Gen.need, pure_bind, if_true]
  refine .bind ((h.emit rfl).mono ?_)
  rintro _ t ⟨m, -, he⟩
  exact .pure ⟨m, he⟩

end Session.Stands

/-- The variables are those that have slots, in an edition with all of the arithmetic. -/
structure Scoped (e : Edition) (vars : List String) (env : Env) : Prop where
  remainders : e.has .remainders = true
  vars : ∀ y, vars.contains y = (env y).isSome

/-- Instructions for a function with these variables go to the block at `p`. -/
structure Writes (fs : Signatures) (env : Env) (p : Place) (s : Session) : Prop where
  place : s.place = some p
  sound : s.assembly.Sound
  block : ∃ old, s.assembly.code? p = some old
  bound : Bound fs env s.scopes

section Values

variable {fs : Signatures} {env : Env} {p : Place} {s t : Session} {is : List Instr} {v w : Operand}
  {n x : String}

theorem Writes.emitted (h : Writes fs env p s) (he : Emitted p s is t) : Writes fs env p t where
  place := he.place.trans h.place
  sound := he.sound
  block := by
    obtain ⟨old, hold⟩ := h.block
    exact ⟨old ++ is, by rw [he.appended.code, hold]; rfl⟩
  bound := by
    rw [he.scopes]
    exact h.bound

theorem Writes.stands (h : Writes fs env p s) : s.Stands p :=
  ⟨h.place, h.sound, Option.isSome_iff_exists.mpr h.block⟩

theorem Writes.emit {op : Op} {ty : Ty} (h : Writes fs env p s) (hop : op.isTerminator = false)
    (hty : op.ty = ty) :
    Gives (Gen.emit op) s fun v t => ∃ m, v = .result m ty ∧ Emitted p s [⟨m, op⟩] t :=
  hty ▸ h.stands.emit hop

theorem load_gives (h : Writes fs env p s) : Gives (Gen.load (slotOf n)) s fun v t =>
    ∃ m, v = .result m .i32 ∧ Emitted p s [⟨m, .load (slotOf n)⟩] t :=
  h.stands.load rfl

theorem store_gives (h : Writes fs env p s) (hw : w.ty = .i32) :
    Gives (Gen.store (some w) (slotOf n)) s
    fun _ t => ∃ m, Emitted p s [⟨m, .store w (slotOf n)⟩] t :=
  h.stands.store (congrArg Ty.pointer hw.symm)

theorem binary_gives (h : Writes fs env p s) (hv : v.ty = .i32) (hw : w.ty = .i32) :
    Gives (Gen.binary b (some v) (some w)) s fun u t =>
      ∃ m, u = .result m .i32 ∧ Emitted p s [⟨m, .binary b v w⟩] t :=
  hv ▸ h.stands.binary (hv.trans hw.symm)

theorem run_checkArguments {vs : List Operand} (hvs : ∀ v ∈ vs, v.ty = .i32) (i : Nat) :
    (Gen.checkArguments i (List.replicate vs.length .i32) (vs.map some)).run s = (.ok (), s) := by
  induction vs generalizing i with
  | nil => rfl
  | cons v vs ih =>
    rw [List.length_cons, List.replicate_succ, List.map_cons, Gen.checkArguments, Gen.run_bind]
    dsimp only [Gen.need, Gen.run_pure]
    rw [if_pos (hvs v List.mem_cons_self)]
    exact ih (fun u hu => hvs u (List.mem_cons_of_mem _ hu)) _

theorem call_gives {f : String} {vs : List Operand} (h : Writes fs env p s)
    (hvs : ∀ v ∈ vs, v.ty = .i32) :
    Gives (Gen.call (functionOperand f vs.length) (vs.map some)) s fun u t =>
      ∃ m, u = .result m .i32 ∧ Emitted p s [⟨m, .call (functionOperand f vs.length) (vs.map some)⟩]
        t :=
  .bind_run (run_checkArguments hvs 1) (h.emit rfl rfl)

theorem run_binding {l : Literal} {b : Binding} (h : s.scopes.find? l = some b) :
    (Gen.binding l).run s = (.ok b, s) := by
  rw [Gen.binding, Gen.run_bind, show (Gen.lookup l).run s = (.ok (s.scopes.find? l), s) from rfl,
    h]
  rfl

theorem InfixOp.intOp?_of_machineOp? {e : Edition} (he : e.has .remainders = true)
    (ho : o.isArithmetic = true) :
    o.relation? = none ∧ ∃ b, o.machineOp? = some b ∧ o.intOp? e = some b := by
  cases o <;> simp_all [isArithmetic, relation?, machineOp?, intOp?]

variable {e : Edition} {vars : List String}

theorem infixed_ints (o : InfixOp) : Gen.infixed e o (.of v .i32) (.of w .i32) =
    match o.relation? with
    | some rel => do return .of (← Gen.compareInts rel (some v) (some w)) .i1
    | none =>
      match o.intOp? e with
      | some b => do return .of (← Gen.binary b (some v) (some w)) .i32
      | none => return ⟨none, some .i32⟩ := rfl

mutual

theorem value_gives (hk : Scoped e vars env) :
    ∀ (y : Expr), y.isInteger e fs vars = true → ∀ s, Writes fs env p s →
      Gives (Gen.value e y) s fun v t =>
        ∃ is w, v = .of w .i32 ∧ Emitted p s is t ∧ ExprCode fs env y is w
  | .int k, _, s, h => by
    rw [Gen.value]
    exact .pure ⟨[], _, rfl, .refl h.sound, .int⟩
  | .ident y, hy, s, h => by
    rw [Gen.value]
    rw [Expr.isInteger, hk.vars] at hy
    obtain ⟨n, hn⟩ := Option.isSome_iff_exists.mp hy
    refine .bind_run (run_binding (h.bound.vars y n hn)) (.bind ((load_gives h).mono ?_))
    rintro _ t ⟨m, rfl, he⟩
    exact .pure ⟨_, _, rfl, he, .ident hn⟩
  | .infixed l o r, hy, s, h => by
    rw [Gen.value]
    simp only [Expr.isInteger, Bool.and_eq_true] at hy
    obtain ⟨hrel, b, hb, hint⟩ := InfixOp.intOp?_of_machineOp? hk.remainders hy.1.1
    refine .bind ((value_gives hk l hy.1.2 s h).mono ?_)
    rintro _ t ⟨is, v, rfl, ht, hl⟩
    refine .bind ((value_gives hk r hy.2 t (h.emitted ht)).mono ?_)
    rintro _ u ⟨js, w, rfl, hu, hr⟩
    rw [infixed_ints, hrel, hint]
    refine .bind ((binary_gives ((h.emitted ht).emitted hu) hl.operand.1 hr.operand.1).mono ?_)
    rintro _ x ⟨m, rfl, hx⟩
    exact .pure ⟨_, _, rfl, (ht.trans hu).trans hx, .infixed hl hr hb⟩
  | .prefixed .neg y, hy, s, h => by
    rw [Gen.value]
    simp only [Expr.isInteger, Bool.and_eq_true] at hy
    refine .bind ((value_gives hk y hy.2 s h).mono ?_)
    rintro _ t ⟨is, v, rfl, ht, hx⟩
    refine .bind ((binary_gives (h.emitted ht) hx.operand.1 rfl).mono ?_)
    rintro _ u ⟨m, rfl, hu⟩
    exact .pure ⟨_, _, rfl, ht.trans hu, .neg hx⟩
  | .call (.ident f) args, hy, s, h => by
    rw [Gen.value]
    simp only [Expr.isInteger, Bool.and_eq_true, List.contains_iff_mem] at hy
    obtain ⟨hprintf, hfind⟩ := h.bound.functions f _ hy.1
    have hname : (e.has .strings && decide (Literal.text f = Gen.printfName)) = false := by
      simp [Gen.printfName, hprintf]
    refine .bind_run rfl (.bind ((values_gives hk args hy.2 s h).mono ?_))
    rintro _ t ⟨is, vs, rfl, ht, hvs⟩
    obtain ⟨-, -, htys, hlen⟩ := hvs.fits
    rw [Gen.applied, hname, List.map_map]
    refine .bind_run (run_binding (ht.scopes ▸ hfind)) (.bind ?_)
    rw [← hlen]
    refine (call_gives (h.emitted ht) htys).mono ?_
    rintro _ u ⟨m, rfl, hu⟩
    refine .pure ⟨_, _, rfl, ht.trans hu, ?_⟩
    rw [hlen]
    exact .call hy.1 hvs
  | .missing, hy, _, _ | .float _, hy, _, _ | .bool _, hy, _, _ | .str _, hy, _, _ |
    .prefixed .not _, hy, _, _ | .openCall _, hy, _, _ | .stepped _ _, hy, _, _ |
    .ifThen _ _, hy, _, _ | .ifElse _ _ _, hy, _, _ => by
    simp [Expr.isInteger] at hy

theorem values_gives (hk : Scoped e vars env) :
    ∀ (ys : List Expr), areIntegers e fs vars ys = true → ∀ s, Writes fs env p s →
      Gives (Gen.values e ys) s fun vs t =>
        ∃ is ws, vs = ws.map (.of · .i32) ∧ Emitted p s is t ∧ ArgsCode fs env ys is ws
  | [], _, s, h => by
    rw [Gen.values]
    exact .pure ⟨[], [], rfl, .refl h.sound, .nil⟩
  | y :: ys, hys, s, h => by
    rw [Gen.values]
    simp only [areIntegers, Bool.and_eq_true] at hys
    refine .bind ((value_gives hk y hys.1 s h).mono ?_)
    rintro _ t ⟨is, v, rfl, ht, hv⟩
    refine .bind ((values_gives hk ys hys.2 t (h.emitted ht)).mono ?_)
    rintro _ u ⟨js, vs, rfl, hu, hvs⟩
    exact .pure ⟨_, _, rfl, ht.trans hu, .cons hv hvs⟩

end

theorem InfixOp.relation?_of_isComparison (ho : o.isComparison = true) :
    ∃ rel, o.relation? = some rel := by
  cases o <;> simp_all [isComparison, relation?]

theorem test_gives (hk : Scoped e vars env)
    {c : Expr} (hc : c.isCondition e fs vars = true) (h : Writes fs env p s) :
    Gives (Gen.value e c) s fun v t =>
      ∃ is w, v = .of w .i1 ∧ Emitted p s is t ∧ TestCode fs env c is w := by
  rw [Expr.isCondition.eq_def] at hc
  split at hc
  · rename_i l o r
    simp only [Bool.and_eq_true] at hc
    obtain ⟨rel, hrel⟩ := InfixOp.relation?_of_isComparison hc.1.1
    rw [Gen.value]
    refine .bind ((value_gives hk l hc.1.2 s h).mono ?_)
    rintro _ t ⟨is, v, rfl, ht, hl⟩
    refine .bind ((value_gives hk r hc.2 t (h.emitted ht)).mono ?_)
    rintro _ u ⟨js, w, rfl, hu, hr⟩
    rw [infixed_ints, hrel]
    refine .bind (.bind_run rfl ((((h.emitted ht).emitted hu).emit rfl rfl).mono ?_))
    rintro _ x ⟨m, rfl, hx⟩
    exact .pure ⟨_, _, rfl, (ht.trans hu).trans hx, .compare hl hr hrel⟩
  · simp at hc

theorem InfixOp.assignOp?_of_ofAssignment? (ho : ofAssignment? op = some o) :
    ∃ b b', o.machineOp? = some b ∧ Gen.assignOp? (.text op) = some (b, b') ∧ op ≠ "=" := by
  rw [ofAssignment?.eq_def] at ho
  split at ho <;> simp_all [Gen.assignOp?]
  all_goals subst ho; simp [machineOp?]

theorem updateVar_gives (hop : op = "=" ∨ (InfixOp.ofAssignment? op).isSome = true)
    (hw : w.ty = .i32) (h : Writes fs env p s) :
    Gives (Gen.updateVar (.text op) ⟨slotOf n, .i32⟩ (.of w .i32)) s fun _ t =>
      ∃ is, Emitted p s is t ∧ AssignCode n w op is := by
  rw [Gen.updateVar_eq]
  refine .bind ((load_gives h).mono ?_)
  rintro _ t ⟨k, rfl, ht⟩
  have ht' := h.emitted ht
  rcases hop with rfl | hop
  · change Gives (Gen.store (some w) (slotOf n)) t _
    refine (store_gives ht' hw).mono ?_
    rintro _ u ⟨m, hu⟩
    exact ⟨_, ht.trans hu, .loaded⟩
  · obtain ⟨o, ho⟩ := Option.isSome_iff_exists.mp hop
    obtain ⟨b, b', hb, hassign, hne⟩ := InfixOp.assignOp?_of_ofAssignment? ho
    have hplain : Literal.text op ≠ plainAssign := by simpa [plainAssign] using hne
    change Gives (Gen.storeUpdated _ _ _ (.result k .i32) (some w)) t _
    simp only [Gen.storeUpdated, if_neg hplain, hassign]
    refine .bind ((binary_gives ht' rfl hw).mono ?_)
    rintro _ u ⟨j, rfl, hu⟩
    refine (store_gives (ht'.emitted hu) rfl).mono ?_
    rintro _ v ⟨m, hv⟩
    exact ⟨_, (ht.trans hu).trans hv, .update ho hb⟩

theorem assign_gives {importer : String → Gen Unit} (hk : Scoped e vars env) {y : Expr}
    (hx : env x = some n) (hop : e.assigns op = true) (hy : y.isInteger e fs vars = true)
    (h : Writes fs env p s) :
    Gives (Gen.statement e importer (.assign (.text x) (.text op) y)) s fun _ t =>
      ∃ is js w, Emitted p s (is ++ js) t ∧ ExprCode fs env y is w ∧ AssignCode n w op js := by
  have hlookup : ∀ {t : Session}, t.scopes = s.scopes →
      (Gen.lookup (.text x)).run t = (.ok (some ⟨slotOf n, .i32⟩), t) := by
    intro t ht
    rw [← h.bound.vars x n hx, ← ht]
    rfl
  rw [Gen.statement]
  by_cases hcompound : e.has .compoundAssignment = true
  · rw [if_pos hcompound]
    refine .bind_run (hlookup rfl) (.bind ((value_gives hk y hy s h).mono ?_))
    rintro _ t ⟨is, w, rfl, ht, hw⟩
    have hops : op = "=" ∨ (InfixOp.ofAssignment? op).isSome = true := by
      simpa [Edition.assigns, hcompound] using hop
    refine (updateVar_gives hops hw.operand.1 (h.emitted ht)).mono ?_
    rintro _ u ⟨js, hu, hassign⟩
    exact ⟨is, js, w, ht.trans hu, hw, hassign⟩
  · rw [if_neg hcompound]
    have hplain : op = "=" := by simpa [Edition.assigns, hcompound] using hop
    subst hplain
    refine .bind ((value_gives hk y hy s h).mono ?_)
    rintro _ t ⟨is, w, rfl, ht, hw⟩
    refine .bind_run (hlookup ht.scopes) ((store_gives (h.emitted ht) hw.operand.1).mono ?_)
    rintro _ u ⟨m, hu⟩
    exact ⟨is, _, w, ht.trans hu, hw, .plain⟩

theorem step_gives {op : StepOp} (hx : env x = some n) (h : Writes fs env p s) :
    Gives (Gen.step op (.ident x)) s fun _ t => ∃ i j m,
      Emitted p s [⟨i, .load (slotOf n)⟩,
        ⟨j, .binary (if op = .increment then .add else .sub) (.result i .i32) (.int .i32 1)⟩,
        ⟨m, .store (.result j .i32) (slotOf n)⟩] t := by
  have hlookup : (Gen.lookup (.text x)).run s = (.ok (some ⟨slotOf n, .i32⟩), s) := by
    rw [← h.bound.vars x n hx]
    rfl
  refine .bind_run rfl (.bind_run hlookup (.bind ((load_gives h).mono ?_)))
  rintro _ t ⟨i, rfl, ht⟩
  have ht' := h.emitted ht
  refine .bind ((binary_gives ht' rfl rfl).mono ?_)
  rintro _ u ⟨j, rfl, hu⟩
  refine (store_gives (ht'.emitted hu) rfl).mono ?_
  rintro _ v ⟨m, hv⟩
  exact ⟨i, j, m, (ht.trans hu).trans hv⟩

theorem slot_gives (hw : w.ty = .i32) (h : Writes fs env p s) {β : Type} {f : Operand → Gen β}
    {Q : β → Session → Prop} (hf : ∀ n m t,
      Emitted p s [⟨n, .alloca .i32⟩, ⟨m, .store w (slotOf n)⟩] t → Gives (f (slotOf n)) t Q) :
    Gives (Gen.alloca (some .i32) >>= fun slot => Gen.store (some w) slot >>= fun _ => f slot) s
      Q := by
  refine .bind (show Gives (Gen.emit (.alloca .i32)) s _ from (h.emit rfl rfl).mono ?_)
  rintro _ t ⟨n, rfl, ht⟩
  refine .bind (show Gives (Gen.store (some w) (slotOf n)) t _ from
    (store_gives (h.emitted ht) hw).mono ?_)
  rintro _ u ⟨m, hu⟩
  exact hf n m u (ht.trans hu)

theorem letVar_gives (he : e.has .functions = true) (hx : s.scopes.find? (.text x) = none)
    (hw : w.ty = .i32) (h : Writes fs env p s) :
    Gives (Gen.letVar e x (.of w .i32)) s fun _ t => ∃ n m u,
      Emitted p s [⟨n, .alloca .i32⟩, ⟨m, .store w (slotOf n)⟩] u ∧
        t = { u with scopes := u.scopes.define (.text x) ⟨slotOf n, .i32⟩ } := by
  have hlookup : (Gen.lookup (.text x)).run s = (.ok none, s) := by
    rw [← hx]
    rfl
  refine .bind_run hlookup (slot_gives hw h fun n m u hu => ?_)
  rw [if_pos he]
  exact .of_run rfl ⟨n, m, u, hu, rfl⟩

end Values

end LimeLang
