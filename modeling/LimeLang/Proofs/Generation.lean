import LimeLang.Code.Check
import LimeLang.Compile
import LimeLang.Proofs.AssemblyView

/-! Code generation never writes behind the end of a block. Most of it only appends to the open
block that it stands in; such steps are called plain. -/

namespace LimeLang

open Code

variable {s : Session} {op : Op} {r : Routine} {p : Place}

namespace Gen

section Run

variable {α β : Type}

theorem run_pure (a : α) (s : Session) : (pure a : Gen α).run s = (.ok a, s) := rfl

theorem run_get (s : Session) : (get : Gen Session).run s = (.ok s, s) := rfl

theorem run_set (s t : Session) : (set t : Gen Unit).run s = (.ok (), t) := rfl

theorem run_modify (f : Session → Session) (s : Session) :
    (modify f : Gen Unit).run s = (.ok (), f s) := rfl

theorem run_bind (x : Gen α) (f : α → Gen β) (s : Session) :
    (x >>= f).run s = match x.run s with
      | (.ok a, t) => (f a).run t
      | (.error e, t) => (.error e, t) := by
  change ExceptT.bindCont f (x s).1 (x s).2 = _
  rcases h : x s with ⟨r, t⟩
  rw [show x.run s = (r, t) from h]
  cases r <;> rfl

theorem run_bind_of_ok {x : Gen α} {f : α → Gen β} {a : α} {s t : Session}
    (h : x.run s = (.ok a, t)) : (x >>= f).run s = (f a).run t := by
  rw [run_bind, h]

end Run

/-- The end of an update: the old value and the new one are put together and stored. -/
def storeUpdated (op : Literal) (b : Binding) (x : Typed) (old : Operand) (new : Option Operand) :
    Gen Unit :=
  if op = plainAssign then store new b.value
  else
    match assignOp? op with
    | some (onInts, onFloats) => do
      let v ← binary (if old.ty.isInt && x.isInt then onInts else onFloats) (some old) new
      store (some v) b.value
    | none => do
      print "Unsupported Assignment Operator"
      store none b.value

theorem updateVar_eq (op : Literal) (b : Binding) (x : Typed) : updateVar op b x = (do
    let old ← load b.value
    let old ← if old.ty.isInt && x.isFloat then toFloat (some old) else pure old
    let new ← if old.ty = .float && x.isInt then do pure (some (← toFloat x.value))
      else pure x.value
    storeUpdated op b x old new) := rfl

end Gen

/-- All blocks are closed except for the open ones, which have no terminator yet, and control stays
inside of routines. -/
structure WellFormed (opens : List Place) (a : Assembly) : Prop where
  sound : a.Sound
  nodup : opens.Nodup
  opened : ∀ q ∈ opens, ∃ is, a.code? q = some is ∧ ∀ i ∈ is, i.op.isTerminator = false
  closed : ∀ q is, a.code? q = some is → q ∉ opens → endsOnce is = true
  targets : ∀ q is, a.code? q = some is → ∀ i ∈ is, ∀ t ∈ i.op.targets,
    (a.code? ⟨q.routine, t⟩).isSome = true

theorem Op.targets_of_not_terminator (h : op.isTerminator = false) : op.targets = [] := by
  cases op <;> simp_all [Op.isTerminator, Op.targets]

namespace WellFormed

variable {opens : List Place} {a : Assembly} {p q : Place} {r : Routine} {op : Op} {n : String}

theorem perm {opens' : List Place} (h : WellFormed opens a) (hp : opens.Perm opens') :
    WellFormed opens' a where
  sound := h.sound
  nodup := hp.nodup_iff.mp h.nodup
  opened := fun q hq => h.opened q (hp.mem_iff.mpr hq)
  closed := fun q is hq hn => h.closed q is hq fun hm => hn (hp.mem_iff.mp hm)
  targets := h.targets

theorem routine_of_mem (h : WellFormed opens a) (hp : p ∈ opens) :
    ∃ r, a.routine? p.routine = some r := by
  obtain ⟨is, his, -⟩ := h.opened p hp
  rw [Assembly.code?, Option.bind_eq_some_iff] at his
  obtain ⟨r, hr, -⟩ := his
  exact ⟨r, hr⟩

theorem isSome_code (h : WellFormed opens a) (hp : p ∈ opens) : (a.code? p).isSome = true := by
  obtain ⟨is, his, -⟩ := h.opened p hp
  rw [his]
  rfl

theorem targets_withInstr (h : WellFormed opens a) (hr : a.routine? p.routine = some r)
    (ht : ∀ t ∈ op.targets, (a.code? ⟨p.routine, t⟩).isSome = true) {is : List Instr}
    (hq : (a.withInstr p r op).code? q = some is) :
    ∀ i ∈ is, ∀ t ∈ i.op.targets, ((a.withInstr p r op).code? ⟨q.routine, t⟩).isSome = true := by
  have hkeep : ∀ q', (a.code? q').isSome = true →
      ((a.withInstr p r op).code? q').isSome = true := by
    intro q' hq'
    rw [Assembly.code?_withInstr hr]
    split_ifs with heq
    · simpa [heq] using hq'
    · exact hq'
  rw [Assembly.code?_withInstr hr] at hq
  split_ifs at hq with heq
  · subst heq
    obtain ⟨js, hjs, rfl⟩ := Option.map_eq_some_iff.mp hq
    intro i hi t hmem
    rcases List.mem_append.mp hi with hi | hi
    · exact hkeep _ (h.targets q js hjs i hi t hmem)
    · rw [List.mem_singleton.mp hi] at hmem
      exact hkeep _ (ht t hmem)
  · exact fun i hi t hmem => hkeep _ (h.targets q is hq i hi t hmem)

theorem withInstr (h : WellFormed opens a) (hp : p ∈ opens) (hr : a.routine? p.routine = some r)
    (hop : op.isTerminator = false) : WellFormed opens (a.withInstr p r op) where
  sound := h.sound.withInstr hr
  nodup := h.nodup
  opened := by
    intro q hq
    obtain ⟨is, his, hi⟩ := h.opened q hq
    rw [Assembly.code?_withInstr hr]
    split_ifs with heq
    · subst heq
      refine ⟨_, by rw [his]; rfl, ?_⟩
      intro i hmem
      rcases List.mem_append.mp hmem with hmem | hmem
      · exact hi i hmem
      · rw [List.mem_singleton.mp hmem]
        exact hop
    · exact ⟨is, his, hi⟩
  closed := by
    intro q is hq hn
    have hne : q ≠ p := fun heq => hn (heq ▸ hp)
    rw [Assembly.code?_withInstr hr, if_neg hne] at hq
    exact h.closed q is hq hn
  targets := fun q is hq => h.targets_withInstr hr (by simp [Op.targets_of_not_terminator hop]) hq

theorem withTerminator (h : WellFormed (p :: opens) a) (hr : a.routine? p.routine = some r)
    (hop : op.isTerminator = true) (ht : ∀ t ∈ op.targets, (a.code? ⟨p.routine, t⟩).isSome = true) :
    WellFormed opens (a.withInstr p r op) where
  sound := h.sound.withInstr hr
  nodup := (List.nodup_cons.mp h.nodup).2
  opened := by
    intro q hq
    have hne : q ≠ p := fun heq => (List.nodup_cons.mp h.nodup).1 (heq ▸ hq)
    rw [Assembly.code?_withInstr hr, if_neg hne]
    exact h.opened q (List.mem_cons_of_mem _ hq)
  closed := by
    intro q is hq hn
    rw [Assembly.code?_withInstr hr] at hq
    split_ifs at hq with heq
    · subst heq
      obtain ⟨js, hjs, hj⟩ := h.opened q List.mem_cons_self
      obtain ⟨ks, hks, rfl⟩ := Option.map_eq_some_iff.mp hq
      obtain rfl : js = ks := Option.some.inj (hjs.symm.trans hks)
      rw [endsOnce_append (by simpa [List.all_eq_true] using hj)]
      exact hop
    · exact h.closed q is hq fun hm => (List.mem_cons.mp hm).elim heq hn
  targets := fun q is hq => h.targets_withInstr hr ht hq

theorem withBlock (h : WellFormed opens a) (hr : a.routine? r.name = some r) :
    WellFormed (⟨r.name, (r.addBlock n).1⟩ :: opens) (a.withBlock r n) where
  sound := h.sound.withBlock hr
  nodup := by
    refine List.nodup_cons.mpr ⟨fun hm => ?_, h.nodup⟩
    obtain ⟨is, his, -⟩ := h.opened _ hm
    rw [Assembly.code?_new h.sound hr] at his
    simp at his
  opened := by
    intro q hq
    rw [Assembly.code?_withBlock h.sound hr]
    split_ifs with heq
    · exact ⟨[], rfl, by simp⟩
    · exact h.opened q ((List.mem_cons.mp hq).resolve_left heq)
  closed := by
    intro q is hq hn
    have hne : q ≠ ⟨r.name, (r.addBlock n).1⟩ := fun heq => hn (heq ▸ List.mem_cons_self)
    rw [Assembly.code?_withBlock h.sound hr, if_neg hne] at hq
    exact h.closed q is hq fun hm => hn (List.mem_cons_of_mem _ hm)
  targets := by
    intro q is hq i hi t ht
    rw [Assembly.code?_withBlock h.sound hr] at hq ⊢
    split_ifs at hq with heq
    · obtain rfl := Option.some.inj hq
      simp at hi
    · split_ifs
      · rfl
      · exact h.targets q is hq i hi t ht

theorem add (h : WellFormed opens a) {i : Item} (hi : a.item? i.name = none)
    (hblocks : ∀ r, i = .routine r → r.blocks = []) : WellFormed opens (a.add i) := by
  have hcode : ∀ q, (a.add i).code? q = a.code? q := fun q => Assembly.code?_add hi hblocks
  refine ⟨h.sound.add hi hblocks, h.nodup, ?_, ?_, ?_⟩
  · simpa only [hcode] using h.opened
  · simpa only [hcode] using h.closed
  · simpa only [hcode] using h.targets

end WellFormed

/-- The step comes to an end in which `Q` holds, or fails with all blocks in order. -/
def Ensures {α : Type} (g : Gen α) (s : Session) (Q : α → Session → Prop) : Prop :=
  match g.run s with
  | (.ok a, t) => Q a t
  | (.error f, t) => f ≠ .terminated ∧ ∃ opens, WellFormed opens t.assembly

namespace Ensures

variable {α β : Type} {s : Session} {Q : α → Session → Prop} {opens : List Place}

theorem throw {f : Failure} (hf : f ≠ .terminated) (h : WellFormed opens s.assembly) :
    Ensures (throw f) s Q := ⟨hf, opens, h⟩

theorem bind {x : Gen α} {f : α → Gen β} {Q : β → Session → Prop}
    (h : Ensures x s fun a t => Ensures (f a) t Q) : Ensures (x >>= f) s Q := by
  rw [Ensures, Gen.run_bind]
  rw [Ensures] at h
  generalize x.run s = result at h ⊢
  obtain ⟨r, t⟩ := result
  cases r with
  | error e => exact h
  | ok a => exact h

theorem get {f : Session → Gen β} {Q : β → Session → Prop} (h : Ensures (f s) s Q) :
    Ensures (MonadState.get >>= f) s Q := bind (x := MonadState.get) h

theorem mono {Q' : α → Session → Prop} {g : Gen α} (h : Ensures g s Q)
    (hQ : ∀ a t, Q a t → Q' a t) : Ensures g s Q' := by
  rw [Ensures] at h ⊢
  generalize g.run s = result at h ⊢
  obtain ⟨r, t⟩ := result
  cases r with
  | error e => exact h
  | ok a => exact hQ a t h

end Ensures

/-- The same place, loops and numbers of blocks, and all places still there. -/
structure Session.Keeps (s t : Session) : Prop where
  place : t.place = s.place
  loops : t.loops = s.loops
  shape : t.assembly.shape = s.assembly.shape
  code : ∀ q, (s.assembly.code? q).isSome = true → (t.assembly.code? q).isSome = true
  items : ∀ n, (s.assembly.item? n).isSome = true → (t.assembly.item? n).isSome = true

theorem Session.Keeps.refl (s : Session) : s.Keeps s := ⟨rfl, rfl, rfl, fun _ h => h, fun _ h => h⟩

theorem Session.Keeps.trans {s t u : Session} (h : s.Keeps t) (h' : t.Keeps u) : s.Keeps u :=
  ⟨h'.place.trans h.place, h'.loops.trans h.loops, h'.shape.trans h.shape,
    fun q hq => h'.code q (h.code q hq), fun n hn => h'.items n (h.items n hn)⟩

/-- A step that writes to the open block it stands in, and nowhere else. -/
def Plain {α : Type} (g : Gen α) : Prop :=
  ∀ (opens : List Place) (s : Session), WellFormed (s.place.toList ++ opens) s.assembly →
    Ensures g s fun _ t => s.Keeps t ∧ WellFormed (t.place.toList ++ opens) t.assembly

namespace Plain

variable {α β : Type}

theorem pure (a : α) : Plain (Pure.pure a : Gen α) := fun _ s h => ⟨.refl s, h⟩

theorem throw {f : Failure} (hf : f ≠ .terminated) : Plain (MonadExcept.throw f : Gen α) :=
  fun _ _ h => .throw hf h

theorem bind {x : Gen α} {f : α → Gen β} (hx : Plain x) (hf : ∀ a, Plain (f a)) :
    Plain (x >>= f) := by
  intro opens s h
  refine .bind ((hx opens s h).mono fun a t ht => ?_)
  exact (hf a opens t ht.2).mono fun _ u hu => ⟨ht.1.trans hu.1, hu.2⟩

theorem get {f : Session → Gen β} (hf : ∀ s, Plain (f s)) : Plain (MonadState.get >>= f) :=
  fun opens s h => .get (hf s opens s h)

theorem modified {f : Session → Session} (hf : ∀ s, (f s).assembly = s.assembly ∧
    (f s).place = s.place ∧ (f s).loops = s.loops) : Plain (modify f : Gen Unit) := by
  intro opens s h
  obtain ⟨ha, hp, hl⟩ := hf s
  refine ⟨⟨hp, hl, ?_, ?_, ?_⟩, ?_⟩
  · rw [ha]
  · rw [ha]
    exact fun _ h => h
  · rw [ha]
    exact fun _ h => h
  · rwa [ha, hp]

end Plain

namespace Gen

theorem run_isTerminated (p : Place) (s : Session) :
    (isTerminated p).run s =
      (.ok ((s.assembly.code? p).any fun is => is.any (·.op.isTerminator)), s) := by
  rw [isTerminated, run_bind, run_get, Assembly.code?]
  dsimp only
  cases s.assembly.routine? p.routine with
  | none => rfl
  | some r =>
    cases h : r.block? p.block with
    | none => simp [h, run_pure]
    | some b => simp [h, run_pure, Block.isTerminated]

theorem run_emit_at (hp : s.place = some p) (hr : s.assembly.routine? p.routine = some r) :
    (emit op).run s =
      if (op.isTerminator && (s.assembly.code? p).any fun is => is.any (·.op.isTerminator))
          = true then
        (.error .terminated,
          { s with assembly := s.assembly.modifyRoutine p.routine fun _ => r.takeName.2 })
      else
        (.ok (.result r.takeName.1 op.ty), { s with assembly := s.assembly.withInstr p r op }) := by
  have hname : r.takeName.2.name = p.routine :=
    show r.name = p.routine from Assembly.routine?_name hr
  have hcode : (s.assembly.modifyRoutine p.routine fun _ => r.takeName.2).code? p =
      s.assembly.code? p := by
    rw [Assembly.code?, Assembly.routine?_modifyRoutine fun _ _ => hname, if_pos rfl, hr,
      Assembly.code?, hr]
    rfl
  rw [emit, run_bind, run_get]
  simp only [hp, hr]
  rw [run_bind, run_set]
  dsimp only
  rw [run_bind, run_isTerminated]
  simp only [hcode]
  split_ifs
  · rfl
  · rfl

theorem run_emit (hp : s.place = some p) (hr : s.assembly.routine? p.routine = some r)
    (hopen : op.isTerminator = true →
      ∃ is, s.assembly.code? p = some is ∧ ∀ i ∈ is, i.op.isTerminator = false) :
    (emit op).run s =
      (.ok (.result r.takeName.1 op.ty), { s with assembly := s.assembly.withInstr p r op }) := by
  rw [run_emit_at hp hr, if_neg]
  rw [Bool.not_eq_true, Bool.and_eq_false_imp]
  intro hop
  obtain ⟨is, his, hi⟩ := hopen hop
  simpa [his] using hi

theorem run_emit_nowhere (hp : s.place = none) : (emit op).run s = (.error .noBlock, s) := by
  rw [emit, run_bind, run_get]
  simp only [hp]
  rfl

theorem run_emit_unknown (hp : s.place = some p) (hr : s.assembly.routine? p.routine = none) :
    (emit op).run s = (.error .noBlock, s) := by
  rw [emit, run_bind, run_get]
  simp only [hp, hr]
  rfl

end Gen

theorem Session.keeps_withInstr (hs : s.assembly.Sound)
    (hr : s.assembly.routine? p.routine = some r) :
    s.Keeps { s with assembly := s.assembly.withInstr p r op } := by
  have hname : r.takeName.2.name = p.routine :=
    show r.name = p.routine from Assembly.routine?_name hr
  refine ⟨rfl, rfl, hs.shape_withInstr hr, ?_, ?_⟩
  · intro q hq
    dsimp only
    rw [Assembly.code?_withInstr hr]
    split_ifs with heq
    · simpa [heq] using hq
    · exact hq
  · intro n hn
    have hadd : ∀ r' : Routine, r'.name = p.routine →
      (r'.addInstr p.block ⟨r.takeName.1, op⟩).name = p.routine := fun _ h => h
    dsimp only
    rw [Assembly.withInstr, Assembly.item?_modifyRoutine hadd,
      Assembly.item?_modifyRoutine fun _ _ => hname]
    simpa using hn

namespace Plain

theorem emit (hop : op.isTerminator = false) : Plain (Gen.emit op) := by
  intro opens s h
  cases hp : s.place with
  | none =>
    rw [Ensures, Gen.run_emit_nowhere hp]
    exact ⟨by simp, _, h⟩
  | some p =>
    have hmem : p ∈ s.place.toList ++ opens := by simp [hp]
    obtain ⟨r, hr⟩ := h.routine_of_mem hmem
    rw [Ensures, Gen.run_emit hp hr (by simp [hop])]
    exact ⟨Session.keeps_withInstr h.sound hr, h.withInstr hmem hr hop⟩

end Plain

theorem emit_terminator {opens : List Place} (hop : op.isTerminator = true)
    (h : WellFormed (s.place.toList ++ opens) s.assembly)
    (ht : ∀ p, s.place = some p → ∀ t ∈ op.targets,
      (s.assembly.code? ⟨p.routine, t⟩).isSome = true) :
    Ensures (Gen.emit op) s fun _ t => s.Keeps t ∧ WellFormed opens t.assembly := by
  cases hp : s.place with
  | none =>
    rw [Ensures, Gen.run_emit_nowhere hp]
    exact ⟨by simp, _, h⟩
  | some p =>
    rw [hp] at h
    obtain ⟨r, hr⟩ := h.routine_of_mem List.mem_cons_self
    rw [Ensures, Gen.run_emit hp hr fun _ => h.opened p List.mem_cons_self]
    exact ⟨Session.keeps_withInstr h.sound hr, h.withTerminator hr hop (ht p hp)⟩

theorem Assembly.item?_add_isSome {a : Assembly} {i : Item} (hi : a.item? i.name = none)
    {n : String} (hn : (a.item? n).isSome = true) : ((a.add i).item? n).isSome = true := by
  rw [Assembly.item?_add hi]
  split_ifs
  · rfl
  · exact hn

theorem addItem_routine {opens : List Place} (hr : r.blocks = [])
    (h : WellFormed opens s.assembly) :
    Ensures (Gen.addItem (.routine r)) s fun _ t =>
      s.assembly.item? r.name = none ∧ t = { s with assembly := s.assembly.add (.routine r) } ∧
        WellFormed opens t.assembly := by
  refine .get ?_
  cases hi : s.assembly.item? (Item.routine r).name with
  | some i => exact .throw (by simp) h
  | none => exact ⟨hi, rfl, h.add hi fun r' hr' => by rwa [← Item.routine.inj hr']⟩

theorem Plain.addConstant (c : Constant) : Plain (Gen.addItem (.constant c)) := by
  intro opens s h
  refine .get ?_
  cases hi : s.assembly.item? (Item.constant c).name with
  | some i => exact .throw (by simp) h
  | none =>
    refine ⟨⟨rfl, rfl, Assembly.shape_add_constant, ?_, ?_⟩, h.add hi (by simp)⟩
    · intro q hq
      dsimp only
      rwa [Assembly.code?_add hi (by simp)]
    · exact fun n hn => Assembly.item?_add_isSome hi hn

theorem addBlockTo_spec {n name : String} {opens : List Place} (h : WellFormed opens s.assembly) :
    Ensures (Gen.addBlockTo n name) s fun q t =>
      q.routine = n ∧ t = { s with assembly := t.assembly } ∧
        t.assembly.shape = grown n 1 s.assembly.shape ∧
        (∀ p, (s.assembly.code? p).isSome = true → (t.assembly.code? p).isSome = true) ∧
        (∀ m, (s.assembly.item? m).isSome = true → (t.assembly.item? m).isSome = true) ∧
        WellFormed (q :: opens) t.assembly := by
  refine .get ?_
  cases hr : s.assembly.routine? n with
  | none => exact .throw (by simp) h
  | some r =>
    have hn : r.name = n := Assembly.routine?_name hr
    subst hn
    refine ⟨rfl, rfl, h.sound.shape_withBlock hr, ?_, ?_, h.withBlock hr⟩
    · intro p hp
      change ((s.assembly.withBlock r name).code? p).isSome = true
      rw [Assembly.code?_withBlock h.sound hr]
      split_ifs
      · rfl
      · exact hp
    · intro m hm
      change ((s.assembly.withBlock r name).item? m).isSome = true
      have hname : ∀ r' : Routine, r'.name = r.name → (r.addBlock name).2.name = r.name :=
        fun _ _ => rfl
      rw [Assembly.withBlock, Assembly.item?_modifyRoutine hname]
      simpa using hm

/-- What a session knows of imports, and what has been printed. -/
structure Margin where
  pallets : List String
  opened : List String
  output : List String

def Session.withMargin (s : Session) (m : Margin) : Session :=
  { s with pallets := m.pallets, opened := m.opened, output := m.output }

/-- What is printed while code is generated. Imports print other lines. -/
def Gen.remarks : List String := ["True", "False", "Unsupported Assignment Operator"]

/-- A property of computations that holds of those that fail, only look at the session or append to
the current block, and of everything made of them. What they see of the session is not its
margin. -/
structure ClosedCode (P : {α : Type} → Gen α → Prop) : Prop where
  pure {α : Type} (a : α) : P (Pure.pure a : Gen α)
  throw {α : Type} {f : Failure} (hf : f ≠ .terminated ∧ f ≠ .blockInUse ∧ f ≠ .importsTooDeep) :
    P (MonadExcept.throw f : Gen α)
  bind {α β : Type} {x : Gen α} {f : α → Gen β} (hx : P x) (hf : ∀ a, P (f a)) : P (x >>= f)
  get {β : Type} {f : Session → Gen β} (hf : ∀ s, P (f s))
    (hmargin : ∀ s m, f (s.withMargin m) = f s := by intros; rfl) : P (MonadState.get >>= f)
  emit {op : Op} (hop : op.isTerminator = false) : P (Gen.emit op)

/-- The same for computations that also add a constant. -/
structure Closed (P : {α : Type} → Gen α → Prop) : Prop extends ClosedCode P where
  print {line : String} (hline : line ∈ Gen.remarks) : P (Gen.print line)
  record (e : CompileError) : P (Gen.record e)
  countUp : P Gen.countUp
  addConstant (c : Constant) : P (Gen.addItem (.constant c))

/-- The same for computations that also change scopes. -/
structure ClosedScopes (P : {α : Type} → Gen α → Prop) : Prop extends Closed P where
  define (name : Literal) (b : Binding) : P (Gen.define name b)
  enterScope : P Gen.enterScope
  leaveScopes (depth : Nat) : P (Gen.leaveScopes depth)

theorem Closed.choice {P : {α : Type} → Gen α → Prop} {α : Type} {c : Prop} [Decidable c]
    {x y : Gen α} (hx : P x) (hy : P y) : P (if c then x else y) := by
  split
  · exact hx
  · exact hy

namespace ClosedCode

open Closed (choice)

variable {P : {α : Type} → Gen α → Prop} (h : ClosedCode P)

include h

theorem lookup (name : Literal) : P (Gen.lookup name) := h.get fun _ => h.pure _

theorem need (x : Option Operand) : P (Gen.need x) := by
  cases x with
  | none => exact h.throw (by simp)
  | some x => exact h.pure x

theorem binary (op : BinaryOp) (l r : Option Operand) : P (Gen.binary op l r) :=
  h.bind (h.need l) fun _ => h.bind (h.need r) fun _ => choice (h.emit rfl) (h.throw (by simp))

theorem compareInts (rel : Relation) (l r : Option Operand) : P (Gen.compareInts rel l r) :=
  h.bind (h.need l) fun _ => h.emit rfl

theorem compareFloats (rel : Relation) (l r : Option Operand) : P (Gen.compareFloats rel l r) :=
  h.bind (h.need l) fun _ => h.emit rfl

theorem complement (x : Option Operand) : P (Gen.complement x) :=
  h.bind (h.need x) fun _ => h.binary _ _ _

theorem toFloat (x : Option Operand) : P (Gen.toFloat x) :=
  h.bind (h.need x) fun _ => choice (h.pure _) (h.emit rfl)

theorem bitcast (x : Operand) (t : Ty) : P (Gen.bitcast x t) := choice (h.pure _) (h.emit rfl)

theorem alloca (t : Option Ty) : P (Gen.alloca t) := by
  rw [Gen.alloca.eq_def]
  split
  · exact h.throw (by simp)
  · exact h.throw (by simp)
  · exact h.emit rfl

theorem describe (x : Operand) : P (Gen.describe x) := by
  rw [Gen.describe.eq_def]
  split
  · refine h.get fun s => ?_
    dsimp only
    split <;> exact h.pure _
  · exact h.pure _

theorem load (x : Operand) : P (Gen.load x) :=
  choice (h.emit rfl) (h.bind (h.describe x) fun _ => h.throw (by simp))

theorem store (x : Option Operand) (pointer : Operand) : P (Gen.store x pointer) := by
  rw [Gen.store]
  split
  · exact h.bind (h.need x) fun _ => choice (h.bind (h.emit rfl) fun _ => h.pure _)
      (h.throw (by simp))
  · exact h.bind (h.describe _) fun _ => h.throw (by simp)

theorem checkArguments (i : Nat) (ts : List Ty) (as : List (Option Operand)) :
    P (Gen.checkArguments i ts as) := by
  induction ts generalizing i as with
  | nil => exact h.pure _
  | cons t ts ih =>
    cases as with
    | nil => exact h.throw (by simp)
    | cons a as => exact h.bind (h.need a) fun _ => choice (ih _ _) (h.throw (by simp))

theorem call (callee : Operand) (args : List (Option Operand)) : P (Gen.call callee args) := by
  rw [Gen.call]
  split
  · exact h.throw (by simp)
  · exact h.bind (h.checkArguments _ _ _) fun _ => h.emit rfl

theorem named (x : Expr) : P (Gen.named x) := by
  rw [Gen.named]
  split
  · exact h.pure _
  · exact h.throw (by simp)

theorem binding (name : Literal) : P (Gen.binding name) := by
  refine h.bind (h.lookup name) fun b => ?_
  cases b with
  | none => exact h.throw (by simp)
  | some b => exact h.pure b

theorem infixed (e : Edition) (op : InfixOp) (l r : Typed) : P (Gen.infixed e op l r) := by
  rw [Gen.infixed]
  refine choice ?_ (choice ?_ (h.pure _))
  · split
    · exact h.bind (h.compareInts _ _ _) fun _ => h.pure _
    · split
      · exact h.bind (h.binary _ _ _) fun _ => h.pure _
      · exact h.pure _
  · split
    · exact h.bind (h.compareFloats _ _ _) fun _ => h.pure _
    · split
      · exact h.bind (h.binary _ _ _) fun _ => h.pure _
      · exact h.pure _

theorem prefixed (op : PrefixOp) (x : Typed) : P (Gen.prefixed op x) := by
  rw [Gen.prefixed.eq_def]
  refine choice ?_ (choice ?_ (h.pure _))
  · cases op with
    | neg => exact h.bind (h.binary _ _ _) fun _ => h.pure _
    | not => exact h.pure _
  · cases op with
    | neg => exact h.bind (h.binary _ _ _) fun _ => h.pure _
    | not => exact h.bind (h.complement _) fun _ => h.pure _

theorem loadedFrom? (x : Operand) : P (Gen.loadedFrom? x) := by
  rw [Gen.loadedFrom?.eq_def]
  split
  · refine h.get fun s => ?_
    dsimp only
    split <;> exact h.pure _
  · exact h.pure _

theorem format (x : Operand) : P (Gen.format x) := by
  refine h.bind (h.loadedFrom? x) fun p => ?_
  cases p with
  | some p => exact h.bind (h.load p) fun _ => h.bitcast _ _
  | none =>
    refine h.get fun s => h.get fun t => ?_
    split
    · exact h.bitcast _ _
    · exact h.get fun _ => h.throw (by simp)

theorem printf (args : List Typed) : P (Gen.printf args) := by
  cases args with
  | nil => exact h.throw (by simp)
  | cons first rest =>
    exact h.bind (h.binding _) fun _ => h.bind (h.alloca _) fun _ => h.bind (h.store _ _) fun _ =>
      h.bind (h.need _) fun _ => h.bind (h.format _) fun _ => h.bind (h.call _ _) fun _ => h.pure _

theorem applied (e : Edition) (name : Literal) (args : List Typed) : P (Gen.applied e name args) :=
  choice (h.printf args) (h.bind (h.binding name) fun _ => h.bind (h.call _ _) fun _ => h.pure _)

end ClosedCode

namespace Closed

variable {P : {α : Type} → Gen α → Prop} (h : Closed P)

include h

theorem string (s : String) : P (Gen.string s) :=
  h.bind h.countUp fun _ => h.bind (h.addConstant _) fun _ => h.pure _

mutual

theorem value (e : Edition) : ∀ x : Expr, P (Gen.value e x)
  | .missing => by
    rw [Gen.value]
    exact h.throw (by simp)
  | .int n | .float x => by
    rw [Gen.value]
    exact h.pure _
  | .ident s => by
    rw [Gen.value]
    exact h.bind (h.binding _) fun _ => h.bind (h.load _) fun _ => h.pure _
  | .bool b => by
    rw [Gen.value]
    exact choice (h.bind (h.print (by cases b <;> simp [Gen.remarks])) fun _ => h.pure _) (h.pure _)
  | .str s => by
    rw [Gen.value]
    exact h.string s
  | .infixed l op r => by
    rw [Gen.value]
    exact h.bind (value e l) fun _ => h.bind (value e r) fun _ => h.infixed _ _ _ _
  | .prefixed op r => by
    rw [Gen.value]
    exact h.bind (value e r) fun _ => h.prefixed _ _
  | .call f args => by
    rw [Gen.value]
    exact h.bind (h.named f) fun _ => h.bind (values e args) fun _ => h.applied _ _ _
  | .openCall f => by
    rw [Gen.value]
    exact h.bind (h.named f) fun _ => h.throw (by simp)
  | .stepped .. | .ifThen .. | .ifElse .. => by
    rw [Gen.value]
    exact h.throw (by simp)

theorem values (e : Edition) : ∀ xs : List Expr, P (Gen.values e xs)
  | [] => by
    rw [Gen.values]
    exact h.pure _
  | x :: xs => by
    rw [Gen.values]
    exact h.bind (value e x) fun _ => h.bind (values e xs) fun _ => h.pure _

end

theorem typeNamed (e : Edition) (l : Literal) : P (Gen.typeNamed e l) := by
  rw [Gen.typeNamed]
  split
  · exact h.pure _
  · exact h.throw (by simp)

theorem typesNamed (e : Edition) (ls : List Literal) : P (Gen.typesNamed e ls) := by
  induction ls with
  | nil => exact h.pure _
  | cons l ls ih => exact h.bind (h.typeNamed e l) fun _ => h.bind ih fun _ => h.pure _

theorem updateVar (op : Literal) (b : Binding) (x : Typed) : P (Gen.updateVar op b x) := by
  have hstore : ∀ (old : Operand) (new : Option Operand), P (Gen.storeUpdated op b x old new) := by
    intro old new
    refine choice (h.store _ _) ?_
    split
    · exact h.bind (h.binary _ _ _) fun _ => h.store _ _
    · exact h.bind (h.print (by simp [Gen.remarks])) fun _ => h.store _ _
  have hnew : ∀ old : Operand, P (do
      let new ← if old.ty = .float && x.isInt then do Pure.pure (some (← Gen.toFloat x.value))
        else Pure.pure x.value
      Gen.storeUpdated op b x old new) := by
    intro old
    exact choice (h.bind (h.toFloat _) fun _ => h.bind (h.pure _) fun _ => hstore _ _)
      (h.bind (h.pure _) fun _ => hstore _ _)
  rw [Gen.updateVar_eq]
  exact h.bind (h.load _) fun _ =>
    choice (h.bind (h.toFloat _) fun _ => hnew _) (h.bind (h.pure _) fun _ => hnew _)

theorem step (op : StepOp) (x : Expr) : P (Gen.step op x) := by
  refine h.bind (h.named x) fun name => h.bind (h.lookup name) fun b => ?_
  cases b with
  | none => exact h.record _
  | some b =>
    exact h.bind (h.load _) fun _ => choice (h.bind (h.binary _ _ _) fun _ => h.store _ _)
      (choice (h.bind (h.binary _ _ _) fun _ => h.store _ _) (h.store _ _))

theorem slots (ps : List (String × Ty)) : P (Gen.slots ps) := by
  induction ps with
  | nil => exact h.pure _
  | cons p ps ih =>
    exact h.bind (h.alloca _) fun _ => h.bind (h.store _ _) fun _ => h.bind ih fun _ => h.pure _

theorem assignment (e : Edition) (importer : String → Gen Unit) (target op : Literal) (x : Expr) :
    P (Gen.statement e importer (.assign target op x)) := by
  rw [Gen.statement]
  refine choice (h.bind (h.lookup _) fun b => ?_) (h.bind (h.value _ _) fun v =>
    h.bind (h.lookup _) fun b => ?_)
  · cases b with
    | none => exact h.record _
    | some b => exact h.bind (h.value _ _) fun _ => h.updateVar _ _ _
  · cases b with
    | none => exact h.record _
    | some b => exact h.store _ _

end Closed

namespace ClosedScopes

variable {P : {α : Type} → Gen α → Prop} (h : ClosedScopes P)

include h

theorem letVar (e : Edition) (name : String) (x : Typed) : P (Gen.letVar e name x) := by
  refine h.bind (h.lookup _) fun b => ?_
  cases b with
  | some b => exact h.store _ _
  | none => exact h.bind (h.alloca _) fun _ => h.bind (h.store _ _) fun _ => h.define _ _

theorem defineParams (ps : List (Literal × Operand × Ty)) : P (Gen.defineParams ps) := by
  induction ps with
  | nil => exact h.pure _
  | cons p ps ih => exact h.bind (h.define _ _) fun _ => ih

end ClosedScopes

theorem plain : ClosedScopes Plain where
  pure := .pure
  throw hf := .throw hf.1
  bind := .bind
  get hf _ := .get hf
  print _ := .modified fun _ => ⟨rfl, rfl, rfl⟩
  record _ := .modified fun _ => ⟨rfl, rfl, rfl⟩
  countUp := .bind (.modified fun _ => ⟨rfl, rfl, rfl⟩) fun _ => .get fun _ => .pure _
  emit := .emit
  addConstant := .addConstant
  define _ _ := .modified fun _ => ⟨rfl, rfl, rfl⟩
  enterScope := .modified fun _ => ⟨rfl, rfl, rfl⟩
  leaveScopes _ := .modified fun _ => ⟨rfl, rfl, rfl⟩

end LimeLang
