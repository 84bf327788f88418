import LimeLang.Proofs.Availability
import LimeLang.Proofs.LexicalScope

/-! The code of an expression uses only what is at hand: results that it has computed in the same
block, and the slots of names that may be used. -/

namespace LimeLang

open Code

variable {x : Operand}

/-- Instructions of a routine have names of their own. -/
structure Code.Assembly.Distinct (a : Assembly) : Prop where
  used : ∀ q r is, a.routine? q.routine = some r → a.code? q = some is →
    ∀ i ∈ is, i.name ∈ r.names.used
  same : ∀ q q' is is', q.routine = q'.routine → a.code? q = some is → a.code? q' = some is' →
    ∀ i ∈ is, ∀ i' ∈ is', i.name = i'.name → i = i'

namespace Code.Assembly.Distinct

variable {a b : Assembly}

theorem of_code (h : a.Distinct) (hg : a.Grows b)
    (hcode : ∀ q js, b.code? q = some js → js = [] ∨ a.code? q = some js) : b.Distinct where
  used := by
    intro q r is hr hq i hi
    rcases hcode q is hq with rfl | hq'
    · simp at hi
    · obtain ⟨r', hr', -⟩ := Option.bind_eq_some_iff.mp hq'
      obtain ⟨r'', hr'', hgrow⟩ := hg _ r' hr'
      obtain rfl := Option.some.inj (hr.symm.trans hr'')
      exact hgrow.used (h.used q r' is hr' hq' i hi)
  same := by
    intro q q' is is' hqq hq hq' i hi i' hi' hname
    rcases hcode q is hq with rfl | hq
    · simp at hi
    rcases hcode q' is' hq' with rfl | hq'
    · simp at hi'
    exact h.same q q' is is' hqq hq hq' i hi i' hi' hname

theorem withInstr {p : Place} {r : Routine} {op : Op} (h : a.Distinct)
    (hr : a.routine? p.routine = some r) : (a.withInstr p r op).Distinct := by
  have hg : a.Grows (a.withInstr p r op) := Assembly.Grows.steps.withInstr hr
  have hfresh : r.takeName.1 ∉ r.names.used := r.names.register_fresh ""
  have hcode : ∀ q is, (a.withInstr p r op).code? q = some is → ∀ i ∈ is,
      (∃ js, a.code? q = some js ∧ i ∈ js) ∨ q.routine = p.routine ∧ i = ⟨r.takeName.1, op⟩ := by
    intro q is hq i hi
    rw [Assembly.code?_withInstr hr] at hq
    split_ifs at hq with heq
    · obtain ⟨js, hjs, rfl⟩ := Option.map_eq_some_iff.mp hq
      rcases List.mem_append.mp hi with hi | hi
      · exact .inl ⟨js, heq ▸ hjs, hi⟩
      · exact .inr ⟨congrArg _ heq, List.mem_singleton.mp hi⟩
    · exact .inl ⟨is, hq, hi⟩
  -- the new instruction has a name that no old one has
  have hapart : ∀ q js, q.routine = p.routine → a.code? q = some js →
      ∀ i ∈ js, i.name ≠ r.takeName.1 :=
    fun q js hq hjs i hi heq => hfresh (heq ▸ h.used q r js (hq ▸ hr) hjs i hi)
  refine ⟨?_, ?_⟩
  · intro q r' is hr' hq i hi
    rcases hcode q is hq i hi with ⟨js, hjs, hi⟩ | ⟨hq', rfl⟩
    · obtain ⟨r₀, hr₀, -⟩ := Option.bind_eq_some_iff.mp hjs
      obtain ⟨r₁, hr₁, hgrow⟩ := hg _ r₀ hr₀
      obtain rfl := Option.some.inj (hr'.symm.trans hr₁)
      exact hgrow.used (h.used q r₀ js hr₀ hjs i hi)
    · rw [Assembly.routine?_withInstr hr, if_pos hq'] at hr'
      rw [← Option.some.inj hr']
      change r.takeName.1 ∈ (r.names.register "").2.used
      rw [r.names.register_used]
      exact List.mem_cons_self
  · intro q q' is is' hqq hq hq' i hi i' hi' hname
    rcases hcode q is hq i hi with ⟨js, hjs, hi⟩ | ⟨hp, rfl⟩
    · rcases hcode q' is' hq' i' hi' with ⟨js', hjs', hi'⟩ | ⟨hp', rfl⟩
      · exact h.same q q' js js' hqq hjs hjs' i hi i' hi' hname
      · exact absurd hname (hapart q js (hqq.trans hp') hjs i hi)
    · rcases hcode q' is' hq' i' hi' with ⟨js', hjs', hi'⟩ | ⟨-, rfl⟩
      · exact absurd hname.symm (hapart q' js' (hqq.symm.trans hp) hjs' i' hi')
      · rfl

theorem steps : AssemblySteps fun a b => a.Sound ∧ a.Distinct → b.Sound ∧ b.Distinct where
  refl _ h := h
  trans h h' ha := h' (h ha)
  takeName {a n r} hr h := by
    have hname : r.takeName.2.name = n := show r.name = n from Assembly.routine?_name hr
    refine ⟨h.1.takeName hr, h.2.of_code (Assembly.Grows.steps.takeName hr) fun q js hq => .inr ?_⟩
    rw [Assembly.code?, Assembly.routine?_modifyRoutine fun _ _ => hname] at hq
    rw [Assembly.code?]
    split_ifs at hq with hn
    · rw [hr] at hq
      rw [hn, hr]
      exact hq
    · exact hq
  withInstr hr h := ⟨h.1.withInstr hr, h.2.withInstr hr⟩
  withBlock {a r name} hr h := by
    refine ⟨h.1.withBlock hr, h.2.of_code (Assembly.Grows.steps.withBlock hr) fun q js hq => ?_⟩
    rw [Assembly.code?_withBlock h.1 hr] at hq
    split_ifs at hq
    · exact .inl (Option.some.inj hq).symm
    · exact .inr hq
  add {a i} hi hblocks h := by
    refine ⟨h.1.add hi hblocks, h.2.of_code (Assembly.Grows.steps.add hi hblocks) fun q js hq =>
      .inr ?_⟩
    rwa [Assembly.code?_add hi hblocks] at hq

end Code.Assembly.Distinct

/-- A flow that is right for a session. -/
structure Dataflow.Suits (f : Dataflow) (s : Session) : Prop where
  valid : s.Valid
  distinct : s.assembly.Distinct
  certified : f.Certifies s.assembly

def Dataflow.AtHand (f : Dataflow) (s : Session) (x : Operand) : Prop :=
  ∀ p is, s.place = some p → s.assembly.code? p = some is → f.Usable s.assembly p is x

/-- An operand that is a constant, a global or computed in the current block. -/
def Session.Computes (s : Session) : Operand → Prop
  | .int .. | .float _ => True
  | .global n t => ∃ i, s.assembly.item? n = some i ∧ i.operand = .global n t
  | .result n t => ∃ p is i, s.place = some p ∧ s.assembly.code? p = some is ∧ i ∈ is ∧
    i.name = n ∧ i.op.ty = t

section Operands

variable {f : Dataflow} {s t : Session} {x : Operand}

theorem Session.Computes.atHand (h : s.Computes x) : f.AtHand s x := by
  intro p is hp his
  cases x with
  | int t n => trivial
  | float d => trivial
  | global n t => exact h
  | result n t =>
    obtain ⟨p', is', i, hp', his', hi, hname⟩ := h
    obtain rfl := Option.some.inj (hp.symm.trans hp')
    obtain rfl := Option.some.inj (his.symm.trans his')
    exact .inr ⟨p.block, i, .inl ⟨rfl, hi⟩, hname⟩

theorem Session.Computes.some (h : s.Computes x) : ∀ y ∈ Option.some x, f.AtHand s y := by
  rintro _ ⟨⟩
  exact h.atHand

theorem Session.Computes.quiet (h : s.Computes x) (hst : s.Quiet t) : t.Computes x := by
  cases x with
  | int t n => trivial
  | float d => trivial
  | global n ty =>
    obtain ⟨item, hitem, hop⟩ := h
    obtain ⟨item', hitem', hop'⟩ := Dataflow.operand_kept hst.grows hst.constants hitem
    exact ⟨item', hitem', hop'.trans hop⟩
  | result n ty =>
    obtain ⟨p, is, i, hp, his, hi, hname⟩ := h
    obtain ⟨js, hjs⟩ := hst.grows.code his
    exact ⟨p, is ++ js, i, hst.place.trans hp, hjs, List.mem_append_left _ hi, hname⟩

theorem Dataflow.AtHand.quiet (h : f.AtHand s x) (hs : f.Suits s) (hst : s.Quiet t) :
    f.AtHand t x := by
  intro p js hp hjs
  rw [hst.place] at hp
  obtain ⟨is, his⟩ := Option.isSome_iff_exists.mp (hs.valid.placed p hp)
  obtain ⟨ks, hks⟩ := hst.grows.code his
  obtain rfl := Option.some.inj (hjs.symm.trans hks)
  refine (h p is hp his).mono hst.grows hst.constants rfl fun A i hi => ?_
  exact hi.mono (List.subset_append_left _ _)

end Operands

/-- If the computation does not fail, it has written to the current block only, the flow is still
right, and `Q` holds. -/
def Dataflow.Follows (f : Dataflow) {α : Type} (g : Gen α) (s : Session) (Q : α → Session → Prop) :
    Prop :=
  ∀ a t, g.run s = (.ok a, t) → s.Quiet t ∧ f.Suits t ∧ Q a t

namespace Dataflow.Follows

variable {f : Dataflow} {α β : Type} {s : Session} {g : Gen α} {Q : α → Session → Prop}

theorem pure {a : α} (hs : f.Suits s) (h : Q a s) : f.Follows (Pure.pure a) s Q := by
  rintro _ _ ⟨⟩
  exact ⟨.refl s, hs, h⟩

theorem throw {e : Failure} : f.Follows (MonadExcept.throw e) s Q := by
  rintro _ _ ⟨⟩

theorem bind {k : α → Gen β} {R : β → Session → Prop} (h : f.Follows g s Q)
    (hk : ∀ a t, s.Quiet t → f.Suits t → Q a t → f.Follows (k a) t R) :
      f.Follows (g >>= k) s R := by
  intro b u hrun
  rw [Gen.run_bind] at hrun
  cases hg : g.run s with
  | mk r t =>
    rw [hg] at hrun
    cases r with
    | error e => simp at hrun
    | ok a =>
      obtain ⟨hst, ht, hQ⟩ := h a t hg
      obtain ⟨htu, hu, hR⟩ := hk a t hst ht hQ b u hrun
      exact ⟨hst.trans htu, hu, hR⟩

theorem get {k : Session → Gen β} {R : β → Session → Prop} (h : f.Follows (k s) s R) :
    f.Follows (MonadState.get >>= k) s R := h

theorem fails {e : α → Failure} {R : β → Session → Prop} :
    f.Follows (g >>= fun a => MonadExcept.throw (e a)) s R := by
  intro b u hrun
  rw [Gen.run_bind] at hrun
  split at hrun
  · cases hrun
  · cases hrun

theorem choice {c : Prop} [Decidable c] {g' : Gen α} (h : f.Follows g s Q) (h' : f.Follows g' s Q) :
    f.Follows (if c then g else g') s Q := by
  split
  · exact h
  · exact h'

end Dataflow.Follows

section Emitting

variable {f : Dataflow} {s : Session}

theorem emit_follows {op : Op} (hs : f.Suits s) (hops : ∀ x ∈ op.operands, f.AtHand s x)
    (htargets : ∀ p is, s.place = some p → s.assembly.code? p = some is → ∀ t ∈ op.targets,
      (s.assembly.code? ⟨p.routine, t⟩).isSome = true ∧ ∀ A i, f ⟨p.routine, t⟩ A i →
      f.Done p is A i) :
    f.Follows (Gen.emit op) s fun x t => t.Computes x := by
  intro x t hrun
  have hquiet := quiet_emit op s
  rw [hrun] at hquiet
  cases hp : s.place with
  | none => simp [Gen.run_emit_nowhere hp] at hrun
  | some p =>
    obtain ⟨is, his⟩ := Option.isSome_iff_exists.mp (hs.valid.placed p hp)
    obtain ⟨r, hr, -⟩ := Option.bind_eq_some_iff.mp his
    rw [Gen.run_emit_at hp hr] at hrun
    split_ifs at hrun
    · simp at hrun
    · obtain ⟨hx, rfl⟩ := Prod.mk.inj hrun
      obtain rfl := Except.ok.inj hx
      refine ⟨hquiet, ⟨hquiet.valid hs.valid, hs.distinct.withInstr hr, ?_⟩, p,
        is ++ [⟨r.takeName.1, op⟩], ⟨r.takeName.1, op⟩, hp, ?_, by simp, rfl, rfl⟩
      · exact hs.certified.withInstr hr his (htargets p is hp his) fun x hx => hops x hx p is hp his
      · dsimp only
        rw [Assembly.code?_withInstr hr, if_pos rfl, his]
        rfl

theorem compute_follows {op : Op} (hs : f.Suits s) (hop : op.isTerminator = false)
    (hops : ∀ x ∈ op.operands, f.AtHand s x) :
      f.Follows (Gen.emit op) s fun x t => t.Computes x := by
  refine emit_follows hs hops fun p is _ _ t ht => ?_
  simp [Op.targets_of_not_terminator hop] at ht

theorem need_follows (hs : f.Suits s) (x : Option Operand) :
    f.Follows (Gen.need x) s fun y t => x = some y ∧ t = s := by
  cases x with
  | none => exact .throw
  | some y => exact .pure hs ⟨rfl, rfl⟩

theorem binary_follows {op : BinaryOp} {l r : Option Operand} (hs : f.Suits s)
    (hl : ∀ x ∈ l, f.AtHand s x) (hr : ∀ x ∈ r, f.AtHand s x) :
    f.Follows (Gen.binary op l r) s fun x t => t.Computes x := by
  refine (need_follows hs l).bind ?_
  rintro x _ - - ⟨rfl, rfl⟩
  refine (need_follows hs r).bind ?_
  rintro y _ - - ⟨rfl, rfl⟩
  refine .choice (compute_follows hs rfl ?_) .throw
  simpa [Op.operands] using ⟨hl x rfl, hr y rfl⟩

theorem compare_follows {rel : Relation} {l r : Option Operand} (hs : f.Suits s)
    (hl : ∀ x ∈ l, f.AtHand s x) (hr : ∀ x ∈ r, f.AtHand s x) :
    f.Follows (Gen.compareInts rel l r) s (fun x t => t.Computes x) ∧
      f.Follows (Gen.compareFloats rel l r) s fun x t => t.Computes x := by
  refine ⟨(need_follows hs l).bind ?_, (need_follows hs l).bind ?_⟩
  · rintro x _ - - ⟨rfl, rfl⟩
    refine compute_follows hs rfl ?_
    simpa [Op.operands] using ⟨hl x rfl, hr⟩
  · rintro x _ - - ⟨rfl, rfl⟩
    refine compute_follows hs rfl ?_
    simpa [Op.operands] using ⟨hl x rfl, hr⟩

theorem complement_follows {x : Option Operand} (hs : f.Suits s) (hx : ∀ y ∈ x, f.AtHand s y) :
    f.Follows (Gen.complement x) s fun y t => t.Computes y := by
  refine (need_follows hs x).bind ?_
  rintro y _ - - ⟨rfl, rfl⟩
  exact binary_follows hs hx (Session.Computes.some (x := .int _ _) trivial)

theorem toFloat_follows {x : Option Operand} (hs : f.Suits s) (hx : ∀ y ∈ x, s.Computes y) :
    f.Follows (Gen.toFloat x) s fun y t => t.Computes y := by
  refine (need_follows hs x).bind ?_
  rintro y _ - - ⟨rfl, rfl⟩
  refine .choice (.pure hs (hx y rfl)) (compute_follows hs rfl ?_)
  simpa [Op.operands] using (hx y rfl).atHand

theorem bitcast_follows {t : Ty} (hs : f.Suits s) (hx : s.Computes x) :
    f.Follows (Gen.bitcast x t) s fun y t => t.Computes y := by
  refine .choice (.pure hs hx) (compute_follows hs rfl ?_)
  simpa [Op.operands] using hx.atHand

theorem alloca_follows (hs : f.Suits s) (ty : Option Ty) :
    f.Follows (Gen.alloca ty) s fun x t => t.Computes x := by
  rw [Gen.alloca.eq_def]
  split
  · exact .throw
  · exact .throw
  · exact compute_follows hs rfl (by simp [Op.operands])

theorem load_follows (hs : f.Suits s) (hx : f.AtHand s x) :
    f.Follows (Gen.load x) s fun y t => t.Computes y :=
  .choice (compute_follows hs rfl (by simpa [Op.operands] using hx)) .fails

theorem store_follows {x : Option Operand} {pointer : Operand} (hs : f.Suits s)
    (hx : ∀ y ∈ x, f.AtHand s y) (hpointer : f.AtHand s pointer) :
    f.Follows (Gen.store x pointer) s fun _ _ => True := by
  rw [Gen.store]
  split
  · refine (need_follows hs x).bind ?_
    rintro y _ - - ⟨rfl, rfl⟩
    refine .choice ?_ .throw
    refine (compute_follows hs rfl ?_).bind fun _ t _ ht _ => .pure ht trivial
    simpa [Op.operands] using ⟨hx y rfl, hpointer⟩
  · exact .fails

theorem checkArguments_follows (hs : f.Suits s) (i : Nat) (ts : List Ty)
    (as : List (Option Operand)) : f.Follows (Gen.checkArguments i ts as) s fun _ t => t = s := by
  induction ts generalizing i as with
  | nil => exact .pure hs rfl
  | cons t ts ih =>
    cases as with
    | nil => exact .throw
    | cons a as =>
      refine (need_follows hs a).bind ?_
      rintro x _ - - ⟨rfl, rfl⟩
      exact .choice (ih _ _) .throw

theorem call_follows {callee : Operand} {args : List (Option Operand)} (hs : f.Suits s)
    (hcallee : f.AtHand s callee) (hargs : ∀ a ∈ args, ∀ x ∈ a, f.AtHand s x) :
    f.Follows (Gen.call callee args) s fun x t => t.Computes x := by
  rw [Gen.call]
  split
  · exact .throw
  · refine (checkArguments_follows hs _ _ _).bind ?_
    rintro - _ - - rfl
    refine compute_follows hs rfl fun x hx => ?_
    rcases List.mem_cons.mp hx with rfl | hx
    · exact hcallee
    · obtain ⟨a, ha, hax⟩ := List.mem_filterMap.mp hx
      exact hargs a ha x hax

theorem named_follows (hs : f.Suits s) (x : Expr) :
    f.Follows (Gen.named x) s fun l t => x.literal? = some l ∧ t = s := by
  rw [Gen.named]
  split
  · rename_i l hl
    exact .pure hs ⟨hl, rfl⟩
  · exact .throw

theorem lookup_follows (hs : f.Suits s) (name : Literal) :
    f.Follows (Gen.lookup name) s fun b t => b = s.scopes.find? name ∧ t = s :=
  .get (.pure hs ⟨rfl, rfl⟩)

theorem print_follows (hs : f.Suits s) (line : String) :
    f.Follows (Gen.print line) s fun _ _ => True := by
  rintro _ _ ⟨⟩
  exact ⟨quiet_print line s, ⟨(quiet_print line s).valid hs.valid, hs.distinct, hs.certified⟩,
    trivial⟩

theorem openFile_follows (hs : f.Suits s) (path : String) :
    f.Follows (modify fun s => { s with opened := s.opened ++ [path] } : Gen Unit) s fun _ _ =>
      True := by
  rintro _ _ ⟨⟩
  exact ⟨quiet_openFile path s, ⟨(quiet_openFile path s).valid hs.valid, hs.distinct, hs.certified⟩,
    trivial⟩

theorem record_follows (hs : f.Suits s) (e : CompileError) :
    f.Follows (Gen.record e) s fun _ _ => True := by
  rintro _ _ ⟨⟩
  exact ⟨quiet.record e s, ⟨(quiet.record e s).valid hs.valid, hs.distinct, hs.certified⟩, trivial⟩

theorem binding_follows (hs : f.Suits s) (name : Literal) :
    f.Follows (Gen.binding name) s fun b t => s.scopes.find? name = some b ∧ t = s := by
  refine (lookup_follows hs name).bind ?_
  rintro b _ - - ⟨hb, rfl⟩
  cases b with
  | none => exact .throw
  | some b => exact .pure hs ⟨hb.symm, rfl⟩

end Emitting

/-- The value of an expression is a constant, a global or computed in the current block. -/
def Session.ComputesValue (s : Session) (v : Typed) : Prop := ∀ x ∈ v.value, s.Computes x

theorem Session.ComputesValue.quiet {s t : Session} {v : Typed} (h : s.ComputesValue v)
    (hst : s.Quiet t) : t.ComputesValue v := fun x hx => (h x hx).quiet hst

theorem Session.ComputesValue.atHand {f : Dataflow} {s : Session} {v : Typed}
    (h : s.ComputesValue v) : ∀ x ∈ v.value, f.AtHand s x := fun x hx => (h x hx).atHand

theorem Session.computesValue_of {s : Session} (t : Ty) (h : s.Computes x) :
    s.ComputesValue (.of x t) := by
  rintro _ ⟨⟩
  exact h

theorem Session.computesValue_none {s : Session} (t : Option Ty) : s.ComputesValue ⟨none, t⟩ := by
  rintro _ ⟨⟩

/-- The slots of the names that may be used are at hand. -/
def Dataflow.Admits (f : Dataflow) (k : Known) (s : Session) : Prop :=
  ∀ name b, k.admits name = true → s.scopes.find? name = some b → f.AtHand s b.value

theorem Dataflow.Admits.quiet {f : Dataflow} {k : Known} {s t : Session} (h : f.Admits k s)
    (hs : f.Suits s) (hst : s.Quiet t) : f.Admits k t := by
  intro name b hk hb
  rw [hst.scopes] at hb
  exact (h name b hk hb).quiet hs hst

section Values

variable {f : Dataflow} {s : Session} {k : Known}

theorem infixed_follows (e : Edition) (op : InfixOp) {l r : Typed} (hs : f.Suits s)
    (hl : s.ComputesValue l) (hr : s.ComputesValue r) :
    f.Follows (Gen.infixed e op l r) s fun v t => t.ComputesValue v := by
  have hcompare : ∀ rel, f.Follows (Gen.compareInts rel l.value r.value) s
      (fun x t => t.Computes x) ∧
      f.Follows (Gen.compareFloats rel l.value r.value) s fun x t => t.Computes x :=
    fun _ => compare_follows hs hl.atHand hr.atHand
  have hbinary : ∀ op, f.Follows (Gen.binary op l.value r.value) s fun x t => t.Computes x :=
    fun _ => binary_follows hs hl.atHand hr.atHand
  rw [Gen.infixed]
  refine .choice ?_ (.choice ?_ (.pure hs (Session.computesValue_none _)))
  · split
    · exact (hcompare _).1.bind fun x t _ ht hx => .pure ht (Session.computesValue_of _ hx)
    · split
      · exact (hbinary _).bind fun x t _ ht hx => .pure ht (Session.computesValue_of _ hx)
      · exact .pure hs (Session.computesValue_none _)
  · split
    · exact (hcompare _).2.bind fun x t _ ht hx => .pure ht (Session.computesValue_of _ hx)
    · split
      · exact (hbinary _).bind fun x t _ ht hx => .pure ht (Session.computesValue_of _ hx)
      · exact .pure hs (Session.computesValue_none _)

theorem prefixed_follows (op : PrefixOp) {x : Typed} (hs : f.Suits s) (hx : s.ComputesValue x) :
    f.Follows (Gen.prefixed op x) s fun v t => t.ComputesValue v := by
  rw [Gen.prefixed.eq_def]
  refine .choice ?_ (.choice ?_ (.pure hs (Session.computesValue_none _)))
  · cases op with
    | neg =>
      exact (binary_follows hs hx.atHand (Session.Computes.some (x := .float _) trivial)).bind
        fun x t _ ht hx => .pure ht (Session.computesValue_of _ hx)
    | not => exact .pure hs (Session.computesValue_of _ trivial)
  · cases op with
    | neg =>
      exact (binary_follows hs hx.atHand (Session.Computes.some (x := .int _ _) trivial)).bind
        fun x t _ ht hx => .pure ht (Session.computesValue_of _ hx)
    | not =>
      exact (complement_follows hs hx.atHand).bind fun x t _ ht hx =>
        .pure ht (Session.computesValue_of _ hx)

theorem addConstant_follows {c : Constant} (hs : f.Suits s) :
    f.Follows (Gen.addItem (.constant c)) s fun _ t =>
      t.assembly.item? c.name = some (.constant c) := by
  intro a t hrun
  have hquiet := quiet.addConstant c s
  rw [hrun] at hquiet
  cases hi : s.assembly.item? (Item.constant c).name with
  | some j => simp [Gen.run_addItem_taken hi] at hrun
  | none =>
    rw [Gen.run_addItem hi] at hrun
    obtain ⟨-, rfl⟩ := Prod.mk.inj hrun
    refine ⟨hquiet, ⟨hquiet.valid hs.valid, ?_, hs.certified.add hi (by simp)⟩, ?_⟩
    · exact (Assembly.Distinct.steps.add hi (by simp) ⟨hs.valid.sound, hs.distinct⟩).2
    · exact (Assembly.item?_add hi).trans (if_pos rfl)

theorem countUp_follows (hs : f.Suits s) : f.Follows Gen.countUp s fun n t => n = t.counter := by
  rintro _ _ ⟨⟩
  exact ⟨quiet.countUp s, ⟨(quiet.countUp s).valid hs.valid, hs.distinct, hs.certified⟩, rfl⟩

theorem string_follows (hs : f.Suits s) (text : String) :
    f.Follows (Gen.string text) s fun v t => t.ComputesValue v := by
  refine (countUp_follows hs).bind fun n t _ ht _ => ?_
  refine (addConstant_follows ht).bind fun _ u _ hu hitem => ?_
  exact .pure hu (Session.computesValue_of _ ⟨_, hitem, rfl⟩)

theorem loadedFrom?_follows (hs : f.Suits s) (hx : s.Computes x) :
    f.Follows (Gen.loadedFrom? x) s fun pointer t => t = s ∧ ∀ y ∈ pointer, f.AtHand s y := by
  rw [Gen.loadedFrom?.eq_def]
  split
  swap
  · exact .pure hs ⟨rfl, by rintro _ ⟨⟩⟩
  rename_i n ty
  refine .get ?_
  dsimp only
  split
  swap
  · exact .pure hs ⟨rfl, by rintro _ ⟨⟩⟩
  rename_i n' pointer hfound
  refine .pure hs ⟨rfl, ?_⟩
  rintro _ ⟨⟩
  obtain ⟨p, is, i, hp, his, hi, rfl, -⟩ := hx
  obtain ⟨p', hp', hfound⟩ := Option.bind_eq_some_iff.mp hfound
  obtain rfl := Option.some.inj (hp.symm.trans hp')
  obtain ⟨r, hr, hfound⟩ := Option.bind_eq_some_iff.mp hfound
  -- names are distinct, so the load that was found is the one that computed the value
  obtain ⟨b, hb, hmem⟩ := List.mem_flatMap.mp (List.mem_of_find?_eq_some hfound)
  have hname : n' = i.name := by simpa using List.find?_some hfound
  have hcode := hs.valid.sound.code?_of_mem (Assembly.mem_of_routine? hr) hb
  have hsame : i = ⟨n', .load pointer⟩ :=
    hs.distinct.same p _ is _ (Assembly.routine?_name hr).symm his hcode i hi _ hmem hname.symm
  subst hsame
  intro p'' is'' hp'' his''
  obtain rfl := Option.some.inj (hp.symm.trans hp'')
  obtain rfl := Option.some.inj (his.symm.trans his'')
  obtain ⟨before, behind, rfl⟩ := List.append_of_mem hi
  refine (hs.certified.use p before _ behind his pointer (by simp [Op.operands])).mono (.refl _)
    (fun _ _ h => h) rfl fun A j hj => hj.mono (List.subset_append_left _ _)

theorem format_follows (hs : f.Suits s) (hx : s.Computes x) :
    f.Follows (Gen.format x) s fun y t => t.Computes y := by
  refine (loadedFrom?_follows hs hx).bind ?_
  rintro pointer _ - - ⟨rfl, hpointer⟩
  cases pointer with
  | some pointer =>
    exact (load_follows hs (hpointer pointer rfl)).bind fun y t _ ht hy => bitcast_follows ht hy
  | none =>
    refine .get (.get ?_)
    split
    · rename_i item hitem
      refine bitcast_follows hs ?_
      have hname := Assembly.item?_name hitem
      cases item with
      | constant c => exact ⟨_, hname ▸ hitem, rfl⟩
      | routine r => exact ⟨_, hname ▸ hitem, rfl⟩
    · exact .fails

theorem printf_follows {args : List Typed} (hs : f.Suits s) (hk : f.Admits k s)
    (hprintf : k.admits Gen.printfName = true) (hargs : ∀ v ∈ args, s.ComputesValue v) :
    f.Follows (Gen.printf args) s fun v t => t.ComputesValue v := by
  cases args with
  | nil => exact .throw
  | cons first rest =>
    obtain ⟨hfirst, hrest⟩ := List.forall_mem_cons.mp hargs
    refine (binding_follows hs _).bind ?_
    rintro b _ - - ⟨hb, rfl⟩
    refine (alloca_follows hs _).bind fun slot s₁ h₁ hs₁ hslot => ?_
    refine (store_follows hs₁ (hfirst.quiet h₁).atHand hslot.atHand).bind fun _ s₂ h₂ hs₂ _ => ?_
    refine (need_follows hs₂ _).bind ?_
    rintro x _ - - ⟨hx, rfl⟩
    have hx := (hfirst x hx).quiet (h₁.trans h₂)
    refine (format_follows hs₂ hx).bind fun y s₃ h₃ hs₃ hy => ?_
    have hall := h₁.trans (h₂.trans h₃)
    have hcallee : f.AtHand s₃ b.value := (hk _ b hprintf hb).quiet hs hall
    refine (call_follows hs₃ hcallee ?_).bind fun z s₄ _ hs₄ hz =>
      .pure hs₄ (Session.computesValue_of _ hz)
    intro a ha
    rcases List.mem_cons.mp ha with rfl | ha
    · exact hy.some
    · obtain ⟨v, hv, rfl⟩ := List.mem_map.mp ha
      exact ((hrest v hv).quiet hall).atHand

theorem applied_follows (e : Edition) {name : Literal} {args : List Typed} (hs : f.Suits s)
    (hk : f.Admits k s) (hname : k.admits name = true) (hargs : ∀ v ∈ args, s.ComputesValue v) :
    f.Follows (Gen.applied e name args) s fun v t => t.ComputesValue v := by
  rw [Gen.applied]
  split
  · rename_i h
    have hprintf : name = Gen.printfName := by simpa using (Bool.and_eq_true_iff.mp h).2
    exact printf_follows hs hk (hprintf ▸ hname) hargs
  · refine (binding_follows hs name).bind ?_
    rintro b _ - - ⟨hb, rfl⟩
    refine (call_follows hs (hk name b hname hb) fun a ha => ?_).bind fun x t _ ht hx =>
      .pure ht (Session.computesValue_of _ hx)
    obtain ⟨v, hv, rfl⟩ := List.mem_map.mp ha
    exact (hargs v hv).atHand

mutual

theorem value_follows (e : Edition) : ∀ (x : Expr) {s : Session}, f.Suits s → f.Admits k s →
    x.isClear k = true → f.Follows (Gen.value e x) s fun v t => t.ComputesValue v
  | .missing, _, _, _, _ => by
    rw [Gen.value]
    exact .throw
  | .int n, _, hs, _, _ | .float n, _, hs, _, _ => by
    rw [Gen.value]
    exact .pure hs (Session.computesValue_of _ trivial)
  | .ident name, s, hs, hk, hx => by
    rw [Gen.value]
    refine (binding_follows hs _).bind ?_
    rintro b _ - - ⟨hb, rfl⟩
    exact (load_follows hs (hk _ b hx hb)).bind fun x t _ ht hx =>
      .pure ht (Session.computesValue_of _ hx)
  | .bool b, s, hs, _, _ => by
    rw [Gen.value]
    refine .choice ((print_follows hs _).bind fun _ t _ ht _ => ?_) ?_
    · exact .pure ht (Session.computesValue_of _ trivial)
    · exact .pure hs (Session.computesValue_of _ trivial)
  | .str text, _, hs, _, _ => by
    rw [Gen.value]
    exact string_follows hs text
  | .infixed l op r, _, hs, hk, hx => by
    rw [Expr.isClear, Bool.and_eq_true] at hx
    rw [Gen.value]
    refine (value_follows e l hs hk hx.1).bind fun v t h ht hv => ?_
    refine (value_follows e r ht (hk.quiet hs h) hx.2).bind fun w u h' hu hw => ?_
    exact infixed_follows e op hu (hv.quiet h') hw
  | .prefixed op r, _, hs, hk, hx => by
    rw [Expr.isClear] at hx
    rw [Gen.value]
    exact (value_follows e r hs hk hx).bind fun v t _ ht hv => prefixed_follows op ht hv
  | .call g args, s, hs, hk, hx => by
    rw [Expr.isClear, Bool.and_eq_true] at hx
    rw [Gen.value]
    refine (named_follows hs g).bind ?_
    rintro name _ - - ⟨hname, rfl⟩
    refine (values_follow e args hs hk hx.2).bind fun vs t h ht hvs => ?_
    exact applied_follows e ht (hk.quiet hs h) (by simpa [hname] using hx.1) hvs
  | .openCall g, _, _, _, _ => by
    rw [Gen.value]
    exact .fails
  | .stepped .., _, _, _, _ | .ifThen .., _, _, _, _ | .ifElse .., _, _, _, _ => by
    rw [Gen.value]
    exact .throw

theorem values_follow (e : Edition) : ∀ (xs : List Expr) {s : Session}, f.Suits s → f.Admits k s →
    areClear k xs = true → f.Follows (Gen.values e xs) s fun vs t => ∀ v ∈ vs, t.ComputesValue v
  | [], _, hs, _, _ => by
    rw [Gen.values]
    exact .pure hs (by simp)
  | x :: xs, _, hs, hk, hx => by
    rw [areClear, Bool.and_eq_true] at hx
    rw [Gen.values]
    refine (value_follows e x hs hk hx.1).bind fun v t h ht hv => ?_
    refine (values_follow e xs ht (hk.quiet hs h) hx.2).bind fun vs u h' hu hvs => ?_
    exact .pure hu (List.forall_mem_cons.mpr ⟨hv.quiet h', hvs⟩)

end

theorem updateVar_follows {op : Literal} {b : Binding} {x : Typed} (hs : f.Suits s)
    (hb : f.AtHand s b.value) (hx : s.ComputesValue x) :
    f.Follows (Gen.updateVar op b x) s fun _ _ => True := by
  have hstore : ∀ (old : Operand) (new : Option Operand) (t : Session), s.Quiet t → f.Suits t →
      t.Computes old → (∀ y ∈ new, t.Computes y) →
          f.Follows (Gen.storeUpdated op b x old new) t fun _ _ => True := by
    intro old new t hst ht hold hnew
    have hb := hb.quiet hs hst
    refine .choice (store_follows ht (fun y hy => (hnew y hy).atHand) hb) ?_
    split
    · refine (binary_follows ht hold.some fun y hy => (hnew y hy).atHand).bind fun y u htu hu hy =>
        ?_
      exact store_follows hu hy.some (hb.quiet ht htu)
    · refine (print_follows ht _).bind fun _ u htu hu _ => ?_
      exact store_follows hu (by rintro _ ⟨⟩) (hb.quiet ht htu)
  have hconvert : ∀ (old : Operand) (t : Session), s.Quiet t → f.Suits t → t.Computes old →
      f.Follows (do
        let new ← if old.ty = .float && x.isInt then do Pure.pure (some (← Gen.toFloat x.value))
          else Pure.pure x.value
        Gen.storeUpdated op b x old new) t fun _ _ => True := by
    intro old t hst ht hold
    have hx := hx.quiet hst
    refine .choice ?_ ((Dataflow.Follows.pure (Q := fun y t' => y = x.value ∧
      t' = t) ht ⟨rfl, rfl⟩).bind ?_)
    · refine (toFloat_follows ht hx).bind fun y u htu hu hy => ?_
      refine (Dataflow.Follows.pure (Q := fun z t' => z = some y ∧ t' = u) hu ⟨rfl, rfl⟩).bind ?_
      rintro _ _ - - ⟨rfl, rfl⟩
      refine hstore old _ _ (hst.trans htu) hu (hold.quiet htu) ?_
      rintro _ ⟨⟩
      exact hy
    · rintro _ _ - - ⟨rfl, rfl⟩
      exact hstore old _ _ hst ht hold hx
  rw [Gen.updateVar_eq]
  refine (load_follows hs hb).bind fun old t hst ht hold => ?_
  refine .choice ?_ ((Dataflow.Follows.pure (Q := fun y t' => y = old ∧ t' = t) ht ⟨rfl, rfl⟩).bind
    ?_)
  · refine (toFloat_follows ht (by rintro _ ⟨⟩; exact hold)).bind fun y u htu hu hy => ?_
    exact hconvert y u (hst.trans htu) hu hy
  · rintro _ _ - - ⟨rfl, rfl⟩
    exact hconvert _ _ hst ht hold

theorem stepping_follows {op : StepOp} {x : Expr} (hs : f.Suits s) (hk : f.Admits k s)
    (hx : x.literal?.all k.admits = true) : f.Follows (Gen.step op x) s fun _ _ => True := by
  refine (named_follows hs x).bind ?_
  rintro name s - - ⟨hname, rfl⟩
  rw [hname, Option.all_some] at hx
  refine (lookup_follows hs name).bind ?_
  rintro b s - - ⟨hb, rfl⟩
  cases b with
  | none => exact record_follows hs _
  | some b =>
    have hslot := hk name b hx hb.symm
    have hstep : ∀ (op : BinaryOp) (c old : Operand) (t : Session), s.Quiet t → f.Suits t →
        t.Computes old → t.Computes c → f.Follows (do
          let v ← Gen.binary op (some old) (some c)
          Gen.store (some v) b.value) t fun _ _ => True := by
      intro op c old t hst ht hold hc
      refine (binary_follows ht hold.some hc.some).bind fun v u htu hu hv => ?_
      exact store_follows hu hv.some (hslot.quiet hs (hst.trans htu))
    refine (load_follows hs hslot).bind fun old t hst ht hold => ?_
    refine .choice (hstep _ _ _ t hst ht hold trivial)
      (.choice (hstep _ _ _ t hst ht hold trivial) ?_)
    exact store_follows ht (by rintro _ ⟨⟩) (hslot.quiet hs hst)

theorem assignment_follows (e : Edition) (importer : String → Gen Unit) {target op : Literal}
    {x : Expr}
    (hs : f.Suits s) (hk : f.Admits k s) (htarget : k.admits target = true)
      (hx : x.isClear k = true) :
    f.Follows (Gen.statement e importer (.assign target op x)) s fun _ _ => True := by
  rw [Gen.statement]
  refine .choice ((lookup_follows hs target).bind ?_) ((value_follows e x hs hk hx).bind ?_)
  · rintro b _ - - ⟨hb, rfl⟩
    cases b with
    | none => exact record_follows hs _
    | some b =>
      refine (value_follows e x hs hk hx).bind fun v t hst ht hv => ?_
      exact updateVar_follows ht ((hk target b htarget hb.symm).quiet hs hst) hv
  · intro v t hst ht hv
    refine (lookup_follows ht target).bind ?_
    rintro b _ - - ⟨hb, rfl⟩
    cases b with
    | none => exact record_follows ht _
    | some b =>
      exact store_follows ht hv.atHand ((hk.quiet hs hst) target b htarget hb.symm)

theorem slots_follow {p : Place} {r : Routine} {ps : List (String × Ty)} (hs : f.Suits s)
    (hp : s.place = some p) (hr : s.assembly.routine? p.routine = some r) (hps : ps ⊆ r.params) :
    f.Follows (Gen.slots ps) s fun slots t => slots.length = ps.length ∧
      ∀ x ∈ slots, t.Computes x := by
  induction ps generalizing s r with
  | nil => exact .pure hs ⟨rfl, by simp⟩
  | cons q ps ih =>
    obtain ⟨name, ty⟩ := q
    obtain ⟨hq, hps⟩ := List.cons_subset.mp hps
    refine (alloca_follows hs _).bind fun slot s₁ h₁ hs₁ hslot => ?_
    obtain ⟨r₁, hr₁, hgrow₁⟩ := h₁.grows _ r hr
    have hparam : f.AtHand s₁ (.result name ty) := by
      intro p' is hp' his
      obtain rfl := Option.some.inj (hp.symm.trans (h₁.place ▸ hp'))
      exact .inl ⟨r₁, hr₁, hgrow₁.params ▸ hq⟩
    refine (store_follows hs₁ (by rintro _ ⟨⟩; exact hparam) hslot.atHand).bind fun _ s₂ h₂ hs₂ _ =>
      ?_
    obtain ⟨r₂, hr₂, hgrow₂⟩ := h₂.grows _ r₁ hr₁
    have hps₂ : ps ⊆ r₂.params := by
      rw [hgrow₂.params, hgrow₁.params]
      exact hps
    refine (ih hs₂ (h₂.place.trans (h₁.place.trans hp)) hr₂ hps₂).bind ?_
    rintro slots s₃ h₃ hs₃ ⟨hlen, hslots⟩
    exact .pure hs₃ ⟨by simp [hlen], List.forall_mem_cons.mpr ⟨hslot.quiet (h₂.trans h₃), hslots⟩⟩

end Values

end LimeLang
