import LimeLang.Proofs.ValueLowering

/-! The code that is generated for the statements of a function on integers is the code that stands
for them. The blocks where conditionals and loops go on stay empty until their turn comes. -/

namespace LimeLang

open Code

/-- The code has grown; scopes, mistakes and globals are the same. -/
structure Session.Advances (s t : Session) : Prop where
  scopes : t.scopes = s.scopes
  errors : t.errors = s.errors
  interface : t.assembly.interface = s.assembly.interface
  grows : s.assembly.Grows t.assembly

structure Inside (fs : Signatures) (env : Env) (ρ : String) (s : Session) : Prop where
  bound : Bound fs env s.scopes
  slots : ∀ x n, env x = some n → n ∈ s.assembly.used ρ

/-- Code generation stands in the open block at `p`, and other blocks wait for their code. -/
structure Ready (fs : Signatures) (env : Env) (opens : List Place) (p : Place) (s : Session) :
    Prop where
  place : s.place = some p
  wellFormed : WellFormed (p :: opens) s.assembly
  inside : Inside fs env p.routine s
  accepted : Accepted s.assembly
  sees : ∀ x n, env x = some n → Sees s.assembly p n

def Session.point (s : Session) (p : Place) :
    Point := ⟨p.block, ((s.assembly.code? p).getD []).length⟩

def Usable (a : Assembly) (p : Place) (w : Operand) : Prop :=
  ∀ old name t, a.code? p = some old → w = .result name t → AtHand a p old name t

section Preparation

variable {fs : Signatures} {env : Env} {opens : List Place} {p q : Place} {s t u : Session}
  {is : List Instr} {w : Operand} {a b : Assembly}

theorem Session.Advances.trans (h : s.Advances t) (h' : t.Advances u) : s.Advances u :=
  ⟨h'.scopes.trans h.scopes, h'.errors.trans h.errors, h'.interface.trans h.interface,
    h.grows.trans h'.grows⟩

theorem Session.Advances.of_place {r : Option Place} (h : { s with place := r }.Advances t) :
    s.Advances t :=
  ⟨h.scopes, h.errors, h.interface, h.grows⟩

theorem Emitted.advances (h : Emitted p s is t) : s.Advances t :=
  ⟨h.scopes, by rw [h.session], h.interface, h.appended.grows⟩

theorem Inside.advances {ρ : String} (h : Inside fs env ρ s) (hst : s.Advances t) :
    Inside fs env ρ t where
  bound := hst.scopes ▸ h.bound
  slots := fun x n hx => hst.grows.used_subset ρ (h.slots x n hx)

theorem Usable.grows (h : Usable a p w) (hg : a.Grows b) (hb : WellFormed opens b)
    (hcode : b.code? p = a.code? p) : Usable b p w :=
  fun old name t hold hw => (h old name t (hcode ▸ hold) hw).grows hg hb

theorem Session.point_start (h : s.assembly.code? p = some []) : s.point p = .start p.block := by
  simp [Session.point, h, Point.start]

namespace Ready

variable (h : Ready fs env opens p s)

include h

theorem code : ∃ old, s.assembly.code? p = some old ∧ ∀ i ∈ old, i.op.isTerminator = false :=
  h.wellFormed.opened p List.mem_cons_self

theorem writes : Writes fs env p s where
  place := h.place
  sound := h.wellFormed.sound
  block := by
    obtain ⟨old, hold, -⟩ := h.code
    exact ⟨old, hold⟩
  bound := h.inside.bound

theorem straight (hb : Appended p s.assembly is b) : Straight b p.routine env (s.point p) is where
  segment := by
    obtain ⟨old, hold, -⟩ := h.code
    have hcode : b.code? p = some (old ++ (is ++ [])) := by rw [hb.code, hold, List.append_nil]; rfl
    exact ⟨old, [], hcode, by simp [Session.point, hold]⟩
  fresh := ⟨hb.taken.nodup, fun x n hx hn => hb.taken.fresh n hn (h.inside.slots x n hx)⟩

theorem point_after (ht : Appended p s.assembly is t.assembly) :
    t.point p = (s.point p).after is := by
  obtain ⟨old, hold, -⟩ := h.code
  simp [Session.point, ht.code, hold, Point.after]

theorem accepts {known : String → Ty → Prop} {opens' : List Place} (ht : Emitted p s is t)
    (hwf : WellFormed opens' t.assembly) (hfits : Fits known is)
    (hknown : ∀ old name ty, s.assembly.code? p = some old → known name ty →
      AtHand s.assembly p old name ty) :
    Accepted t.assembly := by
  obtain ⟨old, hold, -⟩ := h.code
  refine h.accepted.append ht.appended.grows hwf hold (fun q => ?_) (hfits.mono fun name ty hk =>
    ?_)
  · split_ifs with hq
    · rw [hq, ht.appended.code, hold]
      rfl
    · exact ht.others q hq
  · exact (hknown old name ty hold hk).grows ht.appended.grows hwf

theorem knownSlots (old : List Instr) (name : String) (ty : Ty)
    (hold : s.assembly.code? p = some old)
    (hk : KnownSlots env name ty) : AtHand s.assembly p old name ty := by
  obtain ⟨⟨x, hx⟩, rfl⟩ := hk
  exact (h.sees x name hx).atHand hold

theorem usable {opens' : List Place} (ht : Emitted p s is t) (hwf : WellFormed opens' t.assembly)
    (hw : IsKnown (KnownSlots env) is w) : Usable t.assembly p w := by
  obtain ⟨old, hold, -⟩ := h.code
  intro new name ty hnew hname
  obtain rfl : old ++ is = new := by
    have hcode := ht.appended.code
    rw [hold, hnew] at hcode
    exact (Option.some.inj hcode).symm
  refine .behind ((hw name ty hname).imp_left fun hk => ?_)
  exact (h.knownSlots old name ty hold hk).grows ht.appended.grows hwf

theorem emitted (ht : Emitted p s is t) (hwf : WellFormed (p :: opens) t.assembly)
    (hfits : Fits (KnownSlots env) is) : Ready fs env opens p t where
  place := ht.place.trans h.place
  wellFormed := hwf
  inside := h.inside.advances ht.advances
  accepted := h.accepts ht hwf hfits h.knownSlots
  sees := fun x n hx => (h.sees x n hx).grows ht.appended.grows hwf

theorem placed : WellFormed (s.place.toList ++ opens) s.assembly := by
  rw [h.place]
  exact h.wellFormed

theorem plain {α : Type} {g : Gen α} {Q : α → Session → Prop} (hg : Plain g) (hQ : Gives g s Q) :
    Gives g s fun v t => Q v t ∧ WellFormed (p :: opens) t.assembly := by
  refine (hQ.and_ensures (hg opens s h.placed)).mono fun v t ht => ⟨ht.1, ?_⟩
  have hh := ht.2.2
  rwa [ht.2.1.place, h.place] at hh

theorem close {op : Op} (hop : op.isTerminator = true) (hty : op.isTyped .i32 = true)
    (htargets : ∀ β ∈ op.targets, IsBlock s.assembly p.routine β)
    (hops : ∀ x ∈ op.operands, Usable s.assembly p x) :
    Gives (do let _ ← Gen.emit op) s fun _ t =>
      ∃ m, Emitted p s [⟨m, op⟩] t ∧ WellFormed opens t.assembly ∧ Accepted t.assembly := by
  obtain ⟨old, hold, hopen⟩ := h.code
  have htargets' : ∀ q, s.place = some q → ∀ β ∈ op.targets,
      (s.assembly.code? ⟨q.routine, β⟩).isSome = true := by
    intro q hq
    obtain rfl := Option.some.inj (h.place.symm.trans hq)
    exact htargets
  refine .bind (((emit_gives h.place h.wellFormed.sound hold fun _ => hopen).and_ensures
    (emit_terminator hop h.placed htargets')).mono ?_)
  rintro _ t ⟨⟨m, -, ht⟩, -, hwft⟩
  have hfits : Fits (fun name ty => .result name ty ∈ op.operands) [(⟨m, op⟩ : Instr)] :=
    ⟨hty, fun _ _ hmem => hmem, trivial⟩
  refine .pure ⟨m, ht, hwft, h.accepts ht hwft hfits fun old name ty hold hmem => ?_⟩
  exact hops _ hmem old name ty hold rfl

end Ready

structure NewBlock (fs : Signatures) (env : Env) (opens : List Place) (p : Place) (s : Session)
    (q : Place) (t : Session) : Prop where
  ready : Ready fs env (q :: opens) p t
  routine : q.routine = p.routine
  advances : s.Advances t
  code : t.assembly.code? q = some []
  others : ∀ q', q' ≠ q → t.assembly.code? q' = s.assembly.code? q'
  sees : ∀ x n, env x = some n → Sees t.assembly q n

theorem Ready.addBlock (h : Ready fs env opens p s) (name : String) :
    Gives (Gen.addBlock name) s (NewBlock fs env opens p s) := by
  obtain ⟨r, hr⟩ := h.wellFormed.routine_of_mem List.mem_cons_self
  have hname : r.name = p.routine := Assembly.routine?_name hr
  have hr' : s.assembly.routine? r.name = some r := hname ▸ hr
  have hs := h.wellFormed.sound
  have hrun : (Gen.addBlock name).run s =
      (.ok ⟨p.routine, (r.addBlock name).1⟩, { s with assembly := s.assembly.withBlock r name }) :=
    Gen.run_addBlock h.place hr
  have hcode : ∀ q, (s.assembly.withBlock r name).code? q =
      if q = ⟨p.routine, (r.addBlock name).1⟩ then some [] else s.assembly.code? q := by
    intro q
    rw [Assembly.code?_withBlock hs hr', hname]
  have hwf : WellFormed (⟨p.routine, (r.addBlock name).1⟩ :: p :: opens)
      (s.assembly.withBlock r name) :=
    hname ▸ h.wellFormed.withBlock hr'
  have hgrows : s.assembly.Grows (s.assembly.withBlock r name) :=
    Assembly.Grows.setRoutine hr' rfl (.addBlock r name)
  have hadvances : s.Advances { s with assembly := s.assembly.withBlock r name } :=
    ⟨rfl, rfl, hs.interface_withBlock hr', hgrows⟩
  have hnew : (⟨p.routine, (r.addBlock name).1⟩ : Place).routine = p.routine := rfl
  have hnone : s.assembly.code? ⟨p.routine, (r.addBlock name).1⟩ = none :=
    hname ▸ Assembly.code?_new hs hr'
  refine .of_run hrun ⟨⟨h.place, hwf.perm (.swap _ _ _), h.inside.advances hadvances, ?_, ?_⟩, rfl,
    hadvances, ?_, ?_, ?_⟩
  · refine h.accepted.of_code hgrows hwf fun q is hq => ?_
    rw [hcode] at hq
    split_ifs at hq
    · exact .inl (Option.some.inj hq).symm
    · exact .inr hq
  · exact fun x n hx => (h.sees x n hx).grows hgrows hwf
  · exact (hcode _).trans (if_pos rfl)
  · exact fun q hq => (hcode q).trans (if_neg hq)
  · exact fun x n hx => (Sees.new (h.sees x n hx) hnew hnone).grows hgrows hwf

end Preparation

/-- The way from the end of the code at `p` to that at `p'`. It leaves waiting blocks alone. -/
structure Lowered (env : Env) (opens : List Place) (p : Place) (s : Session) (leaves : Bool)
    (p' : Place) (t : Session) : Prop where
  advances : s.Advances t
  place : t.place = some p'
  routine : p'.routine = p.routine
  others : ∀ q ∈ opens, t.assembly.code? q = s.assembly.code? q
  standing : Standing leaves opens t
  accepted : Accepted t.assembly
  sees : ∀ x n, env x = some n → Sees t.assembly p' n

/-- What generating code for statements gives, with the code that stands for them. -/
def Lowers (fs : Signatures) (env : Env) (leaves : Bool) (Code : Assembly → String → Point → Point →
    Prop) (g : Gen Unit) : Prop :=
  ∀ opens p s, Ready fs env opens p s → Gives g s fun _ t =>
    ∃ p', Lowered env opens p s leaves p' t ∧ Code t.assembly p.routine (s.point p) (t.point p')

section Ways

variable {fs : Signatures} {env : Env} {opens : List Place} {p p' p'' q : Place} {s t u : Session}
  {leaves : Bool} {is : List Instr}

theorem Lowered.ready (h : Ready fs env opens p s) (ht : Lowered env opens p s false p' t) :
    Ready fs env opens p' t where
  place := ht.place
  wellFormed := by
    have hwf : WellFormed (t.place.toList ++ opens) t.assembly := ht.standing
    rwa [ht.place] at hwf
  inside := ht.routine ▸ h.inside.advances ht.advances
  accepted := ht.accepted
  sees := ht.sees

theorem Lowered.trans (h : Lowered env opens p s false p' t)
    (h' : Lowered env opens p' t leaves p'' u) : Lowered env opens p s leaves p'' u where
  advances := h.advances.trans h'.advances
  place := h'.place
  routine := h'.routine.trans h.routine
  others := fun q hq => (h'.others q hq).trans (h.others q hq)
  standing := h'.standing
  accepted := h'.accepted
  sees := h'.sees

theorem Ready.ne_of_mem (h : Ready fs env opens p s) (hq : q ∈ opens) : q ≠ p :=
  fun heq => (List.nodup_cons.mp h.wellFormed.nodup).1 (heq ▸ hq)

theorem Ready.lowered (h : Ready fs env opens p s) (ht : Emitted p s is t)
    (hstanding : Standing leaves opens t)
    {opens' : List Place} (hwf : WellFormed opens' t.assembly) (haccepted : Accepted t.assembly) :
    Lowered env opens p s leaves p t where
  advances := ht.advances
  place := ht.place.trans h.place
  routine := rfl
  others := fun q hq => ht.others q (h.ne_of_mem hq)
  standing := hstanding
  accepted := haccepted
  sees := fun x n hx => (h.sees x n hx).grows ht.appended.grows hwf

theorem Lowers.straight {Code : Assembly → String → Point → Point →
    Prop} {g : Gen Unit} (hg : Plain g)
    (hgives : ∀ p s, Writes fs env p s → Gives g s fun _ t => ∃ is, Emitted p s is t ∧
      Fits (KnownSlots env) is ∧ ∀ a ρ P, Straight a ρ env P is → Code a ρ P (P.after is)) :
    Lowers fs env false Code g := by
  intro opens p s h
  refine (h.plain hg (hgives p s h.writes)).mono ?_
  rintro _ t ⟨⟨is, ht, hfits, hcode⟩, hwf⟩
  have hready := h.emitted ht hwf hfits
  have hstanding : Standing false opens t := by
    rw [Standing, hready.place]
    exact hwf
  refine ⟨p, h.lowered ht hstanding hwf hready.accepted, ?_⟩
  rw [h.point_after ht.appended]
  exact hcode _ _ _ (h.straight ht.appended)

/-- The blocks `news` are there and wait for their code, like the blocks `opens` from before. -/
structure Waiting (env : Env) (news opens : List Place) (p : Place) (s t : Session) : Prop where
  advances : s.Advances t
  routine : ∀ q ∈ news, q.routine = p.routine
  empty : ∀ q ∈ news, t.assembly.code? q = some []
  sees : ∀ q ∈ news, ∀ x n, env x = some n → Sees t.assembly q n
  others : ∀ q ∈ opens, t.assembly.code? q = s.assembly.code? q

structure Forked (env : Env) (news opens : List Place) (p : Place) (s t : Session) : Prop
    extends Waiting env news opens p s t where
  wellFormed : WellFormed (news ++ opens) t.assembly
  accepted : Accepted t.assembly

theorem Waiting.advance {news news' opens' : List Place} (h : Waiting env news opens p s t)
    (hsub : news' ⊆ news) (htu : t.Advances u) (hwf : WellFormed opens' u.assembly)
    (hcode : ∀ q ∈ news' ++ opens, u.assembly.code? q = t.assembly.code? q) :
    Waiting env news' opens p s u where
  advances := h.advances.trans htu
  routine := fun q hq => h.routine q (hsub hq)
  empty := fun q hq => (hcode q (List.mem_append_left _ hq)).trans (h.empty q (hsub hq))
  sees := fun q hq x n hx => (h.sees q (hsub hq) x n hx).grows htu.grows hwf
  others := fun q hq => (hcode q (List.mem_append_right _ hq)).trans (h.others q hq)

theorem Forked.perm {news news' : List Place} (h : Forked env news opens p s t)
    (hp : news.Perm news') : Forked env news' opens p s t where
  advances := h.advances
  routine := fun q hq => h.routine q (hp.mem_iff.mpr hq)
  empty := fun q hq => h.empty q (hp.mem_iff.mpr hq)
  sees := fun q hq => h.sees q (hp.mem_iff.mpr hq)
  others := h.others
  wellFormed := h.wellFormed.perm (hp.append_right opens)
  accepted := h.accepted

theorem Forked.enter {news : List Place} (h : Ready fs env opens p s)
    (ht : Forked env (q :: news) opens p s t) :
    Ready fs env (news ++ opens) q { t with place := some q } where
  place := rfl
  wellFormed := ht.wellFormed
  inside := by
    have hh := h.inside.advances ht.advances
    rw [← ht.routine q List.mem_cons_self] at hh
    exact ⟨hh.bound, hh.slots⟩
  accepted := ht.accepted
  sees := ht.sees q List.mem_cons_self

theorem Forked.start {news : List Place} (h : Forked env (q :: news) opens p s t) :
    Session.point { t with place := some q } q = .start q.block :=
  Session.point_start (h.empty q List.mem_cons_self)

theorem Forked.run_moveToStart {news : List Place} (h : Forked env (q :: news) opens p s t) :
    (Gen.moveToStart q).run t = (Gen.moveTo (some q)).run t := by
  rw [Gen.run_moveToStart, if_pos (h.empty q List.mem_cons_self)]
  rfl

theorem Forked.finish (Code : Assembly → String → Point → Point →
    Prop) (h : Forked env [q] opens p s t)
    (hcode : Code t.assembly p.routine (s.point p) (.start q.block)) :
    Gives (Gen.moveTo (some q)) t fun _ u => ∃ p', Lowered env opens p s false p' u ∧
      Code u.assembly p.routine (s.point p) (u.point p') := by
  have hadvances := h.advances
  refine .of_run rfl ⟨q, ⟨?_, rfl, h.routine q List.mem_cons_self, h.others, h.wellFormed,
    h.accepted, h.sees q List.mem_cons_self⟩, h.start ▸ hcode⟩
  exact ⟨hadvances.scopes, hadvances.errors, hadvances.interface, hadvances.grows⟩

end Ways

/-- Behind the code of a condition, when the blocks `news` were opened. -/
structure Tested (fs : Signatures) (env : Env) (news opens : List Place) (p : Place) (s : Session)
    (c : Expr) (w : Operand) (t : Session) : Prop where
  ready : Ready fs env (news ++ opens) p t
  waiting : Waiting env news opens p s t
  test : ∃ is, TestCode fs env c is w ∧ Appended p s.assembly is t.assembly
  usable : Usable t.assembly p w

section Forks

variable {e : Edition} {vars : List String} {fs : Signatures} {env : Env} {news opens : List Place}
  {p q q' : Place} {s t : Session} {c : Expr} {w : Operand}

theorem isBlock_of_code {a : Assembly} {ρ : String} {is : List Instr} (hq : q.routine = ρ)
    (hcode : a.code? q = some is) : IsBlock a ρ q.block := by
  subst hq
  exact Option.isSome_iff_exists.mpr ⟨is, hcode⟩

theorem Waiting.isBlock (h : Waiting env news opens p s t) (hq : q ∈ news) :
    IsBlock t.assembly p.routine q.block := isBlock_of_code (h.routine q hq) (h.empty q hq)

theorem Ready.test (hk : Scoped e vars env)
    (hc : c.isCondition e fs vars = true) (h : Ready fs env opens p s) :
    Gives (Gen.value e c) s fun v t => ∃ w, v = .of w .i1 ∧ Tested fs env [] opens p s c w t := by
  refine (h.plain (LimeLang.plain.value e c) (test_gives hk hc h.writes)).mono ?_
  rintro _ t ⟨⟨is, w, rfl, ht, hw⟩, hwf⟩
  obtain ⟨hfits, hknown, -⟩ := hw.fits
  refine ⟨w, rfl, h.emitted ht hwf hfits, ⟨ht.advances, by simp, by simp, by simp, ?_⟩,
    ⟨is, hw, ht.appended⟩, h.usable ht hwf hknown⟩
  exact fun q hq => ht.others q (h.ne_of_mem hq)

theorem Tested.addBlock (h : Tested fs env news opens p s c w t) (name : String) :
    Gives (Gen.addBlock name) t fun q u => Tested fs env (q :: news) opens p s c w u := by
  refine (h.ready.addBlock name).mono fun q u hu => ?_
  have hne : ∀ q' ∈ p :: (news ++ opens), q' ≠ q := by
    intro q' hq'
    have hnodup := (hu.ready.wellFormed.perm (.swap _ _ _)).nodup
    exact fun heq => (List.nodup_cons.mp hnodup).1 (heq ▸ hq')
  have hp := hu.others p (hne p List.mem_cons_self)
  have hwf := hu.ready.wellFormed
  obtain ⟨is, hw, ht⟩ := h.test
  have hwaiting := h.waiting.advance (List.Subset.refl news) hu.advances hwf
    fun q' hq' => hu.others q' (hne q' (List.mem_cons_of_mem _ hq'))
  refine ⟨hu.ready, ⟨hwaiting.advances, ?_, ?_, ?_, hwaiting.others⟩, ⟨is, hw, ?_⟩,
    h.usable.grows hu.advances.grows hwf hp⟩
  · exact List.forall_mem_cons.mpr ⟨hu.routine, hwaiting.routine⟩
  · exact List.forall_mem_cons.mpr ⟨hu.code, hwaiting.empty⟩
  · exact List.forall_mem_cons.mpr ⟨hu.sees, hwaiting.sees⟩
  · have hh := ht.trans (.of_code hu.advances.grows hp)
    rwa [List.append_nil] at hh

theorem Tested.countUp (h : Tested fs env news opens p s c w t) :
    Gives Gen.countUp t fun _ u => Tested fs env news opens p s c w u := by
  have hr := h.ready
  have hw := h.waiting
  exact .of_run rfl ⟨⟨hr.place, hr.wellFormed, ⟨hr.inside.bound, hr.inside.slots⟩, hr.accepted,
    hr.sees⟩,
    ⟨⟨hw.advances.scopes, hw.advances.errors, hw.advances.interface, hw.advances.grows⟩, hw.routine,
      hw.empty, hw.sees, hw.others⟩, h.test, h.usable⟩

theorem Tested.branchOn (hs : Ready fs env opens p s) (h : Tested fs env news opens p s c w t)
    (hq : IsBlock t.assembly p.routine q.block) (hq' : IsBlock t.assembly p.routine q'.block) :
    Gives (Gen.branchOn (some w) q q') t fun _ u => Forked env news opens p s u ∧
      Decides u.assembly p.routine fs env c q.block q'.block (s.point p) := by
  obtain ⟨is, hw, ht⟩ := h.test
  have hty : (Op.condBr (some w) q.block q'.block).isTyped .i32 = true := by
    simp [Op.isTyped, hw.fits.2.2]
  have htargets : ∀ β ∈ (Op.condBr (some w) q.block q'.block).targets,
      IsBlock t.assembly p.routine β := by
    simpa [Op.targets] using ⟨hq, hq'⟩
  have hops : ∀ x ∈ (Op.condBr (some w) q.block q'.block).operands, Usable t.assembly p x := by
    simpa [Op.operands] using h.usable
  refine (h.ready.close rfl hty htargets hops).mono ?_
  rintro _ u ⟨m, hu, hwf, haccepted⟩
  have hgrows := hu.appended.grows
  refine ⟨⟨?_, hwf, haccepted⟩, ⟨is, w, m, hw, hs.straight (ht.trans hu.appended)⟩, hq.grows hgrows,
    hq'.grows hgrows⟩
  exact h.waiting.advance (List.Subset.refl news) hu.advances hwf
    fun r hr => hu.others r (h.ready.ne_of_mem hr)

theorem Gives.arm {after : Place} {leaves : Bool} {ss : List Stmt} {g k : Gen Unit} {Q : Unit →
    Session → Prop} (hg : Lowers fs env leaves (fun a ρ => StmtsCode a ρ fs env ss) g)
    (hleaves : leaves = true → ss.getLast?.any Stmt.isReturn = true) (hs : Ready fs env opens p s)
    (ht : Forked env (q :: news) opens p s t) (hafter : after ∈ news)
    (hk : ∀ u, Forked env news opens p s u → t.assembly.Grows u.assembly →
      ArmCode u.assembly p.routine fs env ss (.start q.block) after.block → Gives k u Q) :
    Gives (Gen.moveTo (some q) >>= fun _ => g >>= fun _ => Gen.closeWith after >>= fun _ => k) t
      Q := by
  have hq := ht.routine q List.mem_cons_self
  have hready := ht.enter hs
  refine .bind_run rfl (.bind ((hg _ _ _ hready).mono ?_))
  rintro _ u ⟨p', hu, hcode⟩
  rw [ht.start, hq] at hcode
  have htu := hu.advances.of_place
  cases leaves with
  | true =>
    obtain ⟨hwf, hclosed⟩ := hu.standing
    obtain ⟨hsome, hnot⟩ := hclosed p' hu.place
    obtain ⟨is, his⟩ := Option.isSome_iff_exists.mp hsome
    have hrun := (Gen.run_closeWith (q := after) hu.place his).trans
      (if_pos (endsOnce_any (hwf.closed p' is his hnot)))
    refine .bind_run hrun (hk u ⟨?_, hwf, hu.accepted⟩ htu.grows (.returns hcode (hleaves rfl)))
    exact ht.advance (List.subset_cons_self q news) htu hwf hu.others
  | false =>
    have hready' := hu.ready hready
    obtain ⟨is, his, hopen⟩ := hready'.code
    have hrun := (Gen.run_closeWith (q := after) hu.place his).trans (if_neg (by simpa using hopen))
    have hafter' : IsBlock u.assembly p'.routine after.block := by
      rw [hu.routine, hq]
      exact (ht.isBlock (List.mem_cons_of_mem _ hafter)).grows htu.grows
    have htargets : ∀ β ∈ (Op.br after.block).targets, IsBlock u.assembly p'.routine β := by
      simpa [Op.targets] using hafter'
    obtain ⟨⟨⟩, v, hv, m, hemitted, hwf, haccepted⟩ :=
      hready'.close rfl rfl htargets (by simp [Op.operands])
    have hgrows := hemitted.appended.grows
    refine .bind_run (hrun.trans hv) (hk v ⟨?_, hwf, haccepted⟩ (htu.grows.trans hgrows) ?_)
    · refine ht.advance (List.subset_cons_self q news) (htu.trans hemitted.advances) hwf fun r hr =>
        ?_
      exact (hemitted.others r (hready'.ne_of_mem hr)).trans (hu.others r hr)
    · have hj := (hready'.straight hemitted.appended).segment
      rw [hu.routine, hq] at hj hafter'
      exact .jumps (hcode.grows hgrows) hj (hafter'.grows hgrows)

end Forks

section Statements

variable {e : Edition} {importer : String → Gen Unit} {vars : List String} {fs : Signatures}
  {env : Env} {c : Expr} {body alternative : List Stmt} {leaves leaves' : Bool}

theorem ifThen_lowers (hk : Scoped e vars env) (hc : c.isCondition e fs vars = true)
    (hbody : Lowers fs env leaves (fun a ρ => StmtsCode a ρ fs env body)
    (Gen.statements e importer body))
    (hleaves : leaves = true → body.getLast?.any Stmt.isReturn = true) :
    Lowers fs env false (fun a ρ => StmtCode a ρ fs env (.expr (.ifThen c body)))
      (Gen.effect e importer (.ifThen c body)) := by
  intro opens p s h
  rw [Gen.effect]
  refine .bind ((h.test hk hc).mono ?_)
  rintro _ t ⟨w, rfl, ht⟩
  refine .bind_run (Gen.run_branchPlace ht.ready.place) ?_
  refine .bind ((ht.addBlock _).mono fun onTrue t₁ h₁ => ?_)
  refine .bind ((h₁.addBlock _).mono fun after t₂ h₂ => ?_)
  refine .bind ((h₂.branchOn h (h₂.waiting.isBlock (by simp)) (h₂.waiting.isBlock (by simp))).mono
    ?_)
  rintro _ t₃ ⟨hfork, hdecides⟩
  refine .arm hbody hleaves h (hfork.perm (.swap _ _ _)) List.mem_cons_self fun u hu hgrows harm =>
    ?_
  exact hu.finish (fun a ρ => StmtCode a ρ fs env _) (.ifThen (hdecides.grows hgrows) harm)

theorem ifElse_lowers (hk : Scoped e vars env)
    (hc : c.isCondition e fs vars = true)
    (hbody : Lowers fs env leaves (fun a ρ => StmtsCode a ρ fs env body)
      (Gen.statements e importer body))
    (hleaves : leaves = true → body.getLast?.any Stmt.isReturn = true)
    (halt : Lowers fs env leaves' (fun a ρ => StmtsCode a ρ fs env alternative)
      (Gen.statements e importer alternative))
    (hleaves' : leaves' = true → alternative.getLast?.any Stmt.isReturn = true) :
    Lowers fs env false (fun a ρ => StmtCode a ρ fs env (.expr (.ifElse c body alternative)))
      (Gen.effect e importer (.ifElse c body alternative)) := by
  intro opens p s h
  rw [Gen.effect]
  refine .bind ((h.test hk hc).mono ?_)
  rintro _ t ⟨w, rfl, ht⟩
  refine .bind_run (Gen.run_branchPlace ht.ready.place) ?_
  refine .bind ((ht.addBlock _).mono fun onTrue t₁ h₁ => ?_)
  refine .bind ((h₁.addBlock _).mono fun onFalse t₂ h₂ => ?_)
  refine .bind ((h₂.addBlock _).mono fun after t₃ h₃ => ?_)
  refine .bind ((h₃.branchOn h (h₃.waiting.isBlock (by simp)) (h₃.waiting.isBlock (by simp))).mono
    ?_)
  rintro _ t₄ ⟨hfork, hdecides⟩
  refine .arm hbody hleaves h (hfork.perm (List.reverse_perm _).symm) (by simp)
    fun u hu hgrows harm => ?_
  refine .arm halt hleaves' h hu List.mem_cons_self fun v hv hgrows' harm' => ?_
  exact hv.finish (fun a ρ => StmtCode a ρ fs env _)
    (.ifElse (hdecides.grows (hgrows.trans hgrows')) (harm.grows hgrows') harm')

/-- The condition of a loop has code in front of the loop and at the end of each round. -/
theorem whileLoop_lowers (hk : Scoped e vars env)
    (hc : c.isCondition e fs vars = true)
    (hbody : Lowers fs env false (fun a ρ => StmtsCode a ρ fs env body)
      (Gen.statements e importer body)) :
    Lowers fs env false (fun a ρ => StmtCode a ρ fs env (.whileLoop c body))
      (Gen.statement e importer (.whileLoop c body)) := by
  intro opens p s h
  rw [Gen.statement]
  refine .bind ((h.test hk hc).mono ?_)
  rintro _ t ⟨w, rfl, ht⟩
  refine .bind (ht.countUp.mono fun n t₀ h₀ => ?_)
  refine .bind ((h₀.addBlock _).mono fun entry t₁ h₁ => ?_)
  refine .bind ((h₁.addBlock _).mono fun exit t₂ h₂ => ?_)
  refine .bind ((h₂.branchOn h (h₂.waiting.isBlock (by simp)) (h₂.waiting.isBlock (by simp))).mono
    ?_)
  rintro _ t₃ ⟨hfork, hdecides⟩
  have hfork' := hfork.perm (.swap entry exit [])
  have hentry := hfork'.routine entry List.mem_cons_self
  have hready := hfork'.enter h
  refine .bind_run hfork'.run_moveToStart (.bind ((hbody _ _ _ hready).mono ?_))
  rintro _ u ⟨p', hu, hcode⟩
  have hready' := hu.ready hready
  have hp' : p'.routine = p.routine := hu.routine.trans hentry
  have htu := hu.advances.of_place
  refine .bind ((hready'.test hk hc).mono ?_)
  rintro _ v ⟨w', rfl, hv⟩
  have hblocks : ∀ q ∈ [entry, exit], IsBlock v.assembly p'.routine q.block := by
    intro q hq
    rw [hp']
    exact ((hfork'.isBlock hq).grows htu.grows).grows hv.waiting.advances.grows
  refine .bind ((hv.branchOn hready' (hblocks entry (by simp)) (hblocks exit (by simp))).mono ?_)
  rintro _ x ⟨hround, hdecides'⟩
  have hux := hround.advances
  have hend : Forked env [exit] opens p s x := by
    refine ⟨hfork'.advance (List.subset_cons_self _ _) (htu.trans hux) hround.wellFormed fun q hq =>
      ?_, hround.wellFormed, hround.accepted⟩
    exact (hround.others q hq).trans (hu.others q hq)
  rw [hfork'.start, hentry] at hcode
  rw [hp'] at hdecides'
  rw [Gives, hend.run_moveToStart]
  exact hend.finish (fun a ρ => StmtCode a ρ fs env _)
    (.whileLoop (hdecides.grows (htu.grows.trans hux.grows)) (hcode.grows hux.grows) hdecides')

theorem ret_lowers (hk : Scoped e vars env) {x : Expr} (hx : x.isInteger e fs vars = true) :
    Lowers fs env true (fun a ρ => StmtCode a ρ fs env (.ret x))
      (Gen.statement e importer (.ret x)) := by
  intro opens p s h
  rw [Gen.statement]
  refine .bind ((h.plain (plain.value e x) (value_gives hk x hx s h.writes)).mono ?_)
  rintro _ t ⟨⟨is, w, rfl, ht, hw⟩, hwf⟩
  obtain ⟨hfits, hknown⟩ := hw.fits
  have hty : (Op.ret (some w)).isTyped .i32 = true := by
    rw [Op.isTyped, hw.operand.1]
    rfl
  have hops : ∀ x ∈ (Op.ret (some w)).operands, Usable t.assembly p x := by
    simpa [Op.operands] using h.usable ht hwf hknown
  refine ((h.emitted ht hwf hfits).close rfl hty (by simp [Op.targets]) hops).mono ?_
  rintro _ u ⟨m, hu, hwfu, haccepted⟩
  have hsu := ht.trans hu
  obtain ⟨old, hold, -⟩ := h.code
  refine ⟨p, h.lowered hsu ⟨hwfu, fun q hq => ?_⟩ hwfu haccepted, .ret hw (h.straight hsu.appended)⟩
  obtain rfl : p = q := Option.some.inj (h.place.symm.trans (hsu.place.symm.trans hq))
  exact ⟨by simp [hsu.appended.code, hold], (List.nodup_cons.mp h.wellFormed.nodup).1⟩

theorem assign_lowers (hk : Scoped e vars env) {x n op : String} {y : Expr} (hx : env x = some n)
    (hop : e.assigns op = true) (hy : y.isInteger e fs vars = true) :
    Lowers fs env false (fun a ρ => StmtCode a ρ fs env (.assign (.text x) (.text op) y))
      (Gen.statement e importer (.assign (.text x) (.text op) y)) := by
  refine .straight (plain.assignment e importer _ _ y) fun p s h => ?_
  refine (assign_gives hk hx hop hy h).mono ?_
  rintro _ t ⟨is, js, w, ht, hw, hassign⟩
  obtain ⟨hfits, hknown⟩ := hw.fits
  exact ⟨_, ht, hassign.fits hfits hw.operand.1 hknown hx, fun a ρ P hP => .assign hw hx hassign hP⟩

theorem step_lowers {x n : String} (op : StepOp) (hx : env x = some n) :
    Lowers fs env false (fun a ρ => StmtCode a ρ fs env (.expr (.stepped (.ident x) op)))
      (Gen.effect e importer (.stepped (.ident x) op)) := by
  rw [Gen.effect]
  refine .straight (plain.step op _) fun p s h => ?_
  refine (step_gives hx h).mono ?_
  rintro _ t ⟨i, j, m, ht⟩
  refine ⟨_, ht, ?_, fun a ρ P hP => .step hx rfl rfl hP⟩
  have hload : Fits (KnownSlots env) ([] ++ [⟨i, .load (slotOf n)⟩]) := Fits.load trivial hx
  obtain ⟨o, ho⟩ : ∃ o : InfixOp, o.machineOp? = some (if op = .increment then .add else .sub) := by
    cases op with
    | increment => exact ⟨.add, rfl⟩
    | decrement => exact ⟨.sub, rfl⟩
  exact (hload.binary ho rfl rfl (isKnown_last rfl) (isKnown_int _ _)).store rfl (isKnown_last rfl)
    (isKnown_slot hx)

theorem call_lowers (hk : Scoped e vars env)
    {f : Expr} {args : List Expr} (hx : (Expr.call f args).isInteger e fs vars = true) :
    Lowers fs env false (fun a ρ => StmtCode a ρ fs env (.expr (.call f args)))
      (Gen.effect e importer (.call f args)) := by
  rw [Gen.effect]
  refine .straight (.bind (plain.value e _) fun _ => .pure _) fun p s h => ?_
  refine .bind ((value_gives hk _ hx s h).mono ?_)
  rintro _ t ⟨is, w, rfl, ht, hw⟩
  exact .pure ⟨is, ht, hw.fits.1, fun a ρ P hP => .call hw hP⟩

theorem lowers_nil :
    Lowers fs env false (fun a ρ => StmtsCode a ρ fs env []) (Gen.statements e importer []) := by
  rw [Gen.statements]
  refine .straight (.pure _) fun p s h => .pure ⟨[], .refl h.sound, trivial, fun a ρ P _ => ?_⟩
  exact .nil

theorem lowers_cons {st : Stmt} {ss : List Stmt}
    (hst : Lowers fs env false (fun a ρ => StmtCode a ρ fs env st) (Gen.statement e importer st))
    (hss : Lowers fs env leaves (fun a ρ => StmtsCode a ρ fs env ss)
      (Gen.statements e importer ss)) :
    Lowers fs env leaves (fun a ρ => StmtsCode a ρ fs env (st :: ss))
      (Gen.statements e importer (st :: ss)) := by
  intro opens p s h
  rw [Gen.statements]
  refine .bind ((hst opens p s h).mono ?_)
  rintro _ t ⟨p', ht, hcode⟩
  refine (hss opens p' t (ht.ready h)).mono ?_
  rintro _ u ⟨p'', hu, hcode'⟩
  rw [ht.routine] at hcode'
  exact ⟨p'', ht.trans hu, .cons (hcode.grows hu.advances.grows) hcode'⟩

theorem lowers_single {st : Stmt}
    (hst : Lowers fs env leaves (fun a ρ => StmtCode a ρ fs env st) (Gen.statement e importer st)) :
    Lowers fs env leaves (fun a ρ => StmtsCode a ρ fs env [st])
      (Gen.statements e importer [st]) := by
  intro opens p s h
  rw [Gen.statements]
  refine .bind ((hst opens p s h).mono ?_)
  rintro _ t ⟨p', ht, hcode⟩
  rw [Gen.statements]
  exact .pure ⟨p', ht, .cons hcode .nil⟩

mutual

theorem Expr.lowers (hk : Scoped e vars env) :
    ∀ x : Expr, x.isIntegerStmt e fs vars = true →
      Lowers fs env false (fun a ρ => StmtCode a ρ fs env (.expr x)) (Gen.effect e importer x)
  | .stepped y op, hx => by
    cases y with
    | ident x =>
      simp only [Expr.isIntegerStmt, Bool.and_eq_true, hk.vars] at hx
      obtain ⟨n, hn⟩ := Option.isSome_iff_exists.mp hx.2
      exact step_lowers op hn
    | _ => simp [Expr.isIntegerStmt] at hx
  | .call f args, hx => by
    rw [Expr.isIntegerStmt] at hx
    exact call_lowers hk hx
  | .ifThen c body, hx => by
    simp only [Expr.isIntegerStmt, Bool.and_eq_true] at hx
    exact ifThen_lowers hk hx.1 (statements_lower hk body hx.2) id
  | .ifElse c body alternative, hx => by
    simp only [Expr.isIntegerStmt, Bool.and_eq_true] at hx
    exact ifElse_lowers hk hx.1.1 (statements_lower hk body hx.1.2) id
      (statements_lower hk alternative hx.2) id
  | .missing, hx | .int _, hx | .float _, hx | .ident _, hx | .bool _, hx | .str _,
    hx | .infixed _ _ _, hx | .prefixed _ _, hx | .openCall _, hx => by
    simp [Expr.isIntegerStmt] at hx

theorem Stmt.lowers (hk : Scoped e vars env) :
    ∀ st : Stmt, st.isIntegerStmt e fs vars = true →
      Lowers fs env st.isReturn (fun a ρ => StmtCode a ρ fs env st) (Gen.statement e importer st)
  | .expr x, hst => by
    rw [Gen.statement]
    exact Expr.lowers hk x (by simpa [Stmt.isIntegerStmt] using hst)
  | .assign target op y, hst => by
    rw [Stmt.isIntegerStmt.eq_def] at hst
    cases target with
    | text x =>
      cases op with
      | text op =>
        simp only [Bool.and_eq_true, hk.vars] at hst
        obtain ⟨n, hn⟩ := Option.isSome_iff_exists.mp hst.1.1
        exact assign_lowers hk hn hst.1.2 hst.2
      | _ => simp at hst
    | _ => simp at hst
  | .whileLoop c body, hst => by
    simp only [Stmt.isIntegerStmt, Bool.and_eq_true, Bool.not_eq_true'] at hst
    have hbody := statements_lower hk body hst.1.2
    rw [hst.2] at hbody
    exact whileLoop_lowers hk hst.1.1 hbody
  | .ret x, hst => ret_lowers hk (by simpa [Stmt.isIntegerStmt] using hst)
  | .missing, hst | .bare _, hst | .letVar _ _ _, hst | .fn _ _ _ _, hst | .breakLoop,
    hst | .continueLoop, hst | .forLoop _ _ _ _, hst | .importPallet _, hst => by
    simp [Stmt.isIntegerStmt] at hst

theorem statements_lower (hk : Scoped e vars env) :
    ∀ ss : List Stmt, areIntegerStmts e fs vars ss = true →
      Lowers fs env (ss.getLast?.any Stmt.isReturn) (fun a ρ => StmtsCode a ρ fs env ss)
        (Gen.statements e importer ss)
  | [], _ => lowers_nil
  | [st], hss => by
    simp only [areIntegerStmts, Bool.and_eq_true] at hss
    exact lowers_single (Stmt.lowers hk st hss.1.1)
  | st :: st' :: ss, hss => by
    rw [areIntegerStmts] at hss
    simp only [Bool.and_eq_true, List.isEmpty_cons, Bool.false_or, Bool.not_eq_true'] at hss
    have hst := Stmt.lowers hk st hss.1.1
    rw [hss.2] at hst
    rw [List.getLast?_cons_cons]
    exact lowers_cons hst (statements_lower hk (st' :: ss) hss.1.2)

end

end Statements

/-- At the end of the body of a function all blocks are closed. -/
structure Completed (outer : Chain Binding) (s t : Session) : Prop where
  scopes : ∃ table, t.scopes = table :: outer
  errors : t.errors = s.errors
  interface : t.assembly.interface = s.assembly.interface
  grows : s.assembly.Grows t.assembly
  wellFormed : WellFormed [] t.assembly
  accepted : Accepted t.assembly

section Bodies

variable {e : Edition} {importer : String → Gen Unit} {vars : List String} {fs : Signatures}
  {env : Env} {outer : Chain Binding} {p : Place} {s t u : Session}

theorem Completed.after (h : Completed outer t u) (herrors : t.errors = s.errors)
    (hinterface : t.assembly.interface = s.assembly.interface)
    (hgrows : s.assembly.Grows t.assembly) : Completed outer s u :=
  ⟨h.scopes, h.errors.trans herrors, h.interface.trans hinterface, hgrows.trans h.grows,
    h.wellFormed, h.accepted⟩

theorem letVar_ready (hfun : e.has .functions = true) (hk : Scoped e vars env)
    (h : Ready fs env [] p s) {x type : String} {y : Expr}
    (hy : y.isInteger e fs vars = true) (hx : env x = none) (hname : isVariableName fs x = true) :
    Gives (Gen.statement e importer (.letVar x y type)) s fun _ t => ∃ n m is w u,
      Ready fs (Function.update env x (some n)) [] p t ∧ ExprCode fs env y is w ∧
        Emitted p s (is ++ [⟨n, .alloca .i32⟩, ⟨m, .store w (slotOf n)⟩]) u ∧
        t = { u with scopes := s.scopes.define (.text x) ⟨slotOf n, .i32⟩ } := by
  have hplain : Plain (Gen.statement e importer (.letVar x y type)) := by
    rw [Gen.statement]
    exact .bind (plain.value e y) fun _ => plain.letVar e x _
  have hgives : Gives (Gen.statement e importer (.letVar x y type)) s fun _ t => ∃ n m is w u,
      ExprCode fs env y is w ∧ Emitted p s (is ++ [⟨n, .alloca .i32⟩, ⟨m, .store w (slotOf n)⟩]) u ∧
        t = { u with scopes := s.scopes.define (.text x) ⟨slotOf n, .i32⟩ } := by
    rw [Gen.statement]
    refine .bind ((value_gives hk y hy s h.writes).mono ?_)
    rintro _ t ⟨is, w, rfl, ht, hw⟩
    have hfree : t.scopes.find? (.text x) = none := by
      rw [ht.scopes]
      exact h.inside.bound.free x hx hname
    refine (letVar_gives hfun hfree hw.operand.1 (h.writes.emitted ht)).mono ?_
    rintro _ t ⟨n, m, u, hu, rfl⟩
    refine ⟨n, m, is, w, u, hw, ht.trans hu, ?_⟩
    rw [(ht.trans hu).scopes]
  refine (h.plain hplain hgives).mono ?_
  rintro _ t ⟨⟨n, m, is, w, u, hw, hu, rfl⟩, hwf⟩
  refine ⟨n, m, is, w, u, ⟨?_, hwf, ⟨h.inside.bound.define hname, ?_⟩, ?_, ?_⟩, hw, hu, rfl⟩
  · exact hu.place.trans h.place
  · intro z k hz
    by_cases hzx : z = x
    · subst hzx
      rw [Function.update_self] at hz
      rw [← Option.some.inj hz]
      exact hu.appended.taken.used (by simp)
    · rw [Function.update_of_ne hzx] at hz
      exact hu.appended.grows.used_subset _ (h.inside.slots z k hz)
  · obtain ⟨hfits, hknown⟩ := hw.fits
    have haccepted : Accepted u.assembly :=
      h.accepts hu hwf (hfits.slot hw.operand.1 hknown) h.knownSlots
    exact haccepted
  · intro z k hz
    by_cases hzx : z = x
    · subst hzx
      rw [Function.update_self] at hz
      rw [← Option.some.inj hz]
      obtain ⟨old, hold, -⟩ := h.code
      have hcode := hu.appended.code
      rw [hold] at hcode
      exact sees_of_alloca hwf hcode (by simp)
    · rw [Function.update_of_ne hzx] at hz
      exact (h.sees z k hz).grows hu.appended.grows hwf

theorem body_lowers (hfun : e.has .functions = true) {ss : List Stmt}
    (hss : isIntegerBody e fs vars ss = true) (hk : Scoped e vars env) (h : Ready fs env [] p s)
    (houter : ∃ table, s.scopes = table :: outer) :
    Gives (Gen.statements e importer ss) s fun _ t => Completed outer s t ∧
      BodyCode t.assembly p.routine fs env ss (s.point p) := by
  fun_induction isIntegerBody e fs vars ss generalizing env s p with
  | case1 vars x y type ss ih =>
    simp only [Bool.and_eq_true, Bool.not_eq_true', hk.vars] at hss
    obtain ⟨⟨⟨⟨-, hy⟩, hx⟩, hname⟩, hss⟩ := hss
    have hx' : env x = none := by simpa using hx
    rw [Gen.statements]
    refine .bind ((letVar_ready hfun hk h hy hx' hname).mono ?_)
    rintro _ t ⟨n, m, is, w, u, ht, hw, hu, rfl⟩
    have hk' : Scoped e (x :: vars) (Function.update env x (some n)) := by
      refine ⟨hk.remainders, fun z => ?_⟩
      by_cases hz : z = x
      · simp [hz]
      · rw [Function.update_of_ne hz, ← hk.vars, List.contains_cons]
        simp [hz]
    obtain ⟨table, htable⟩ := houter
    refine (ih hss hk' ht ⟨table.define (.text x) ⟨slotOf n, .i32⟩, by rw [htable]; rfl⟩).mono ?_
    rintro _ v ⟨hv, hcode⟩
    refine ⟨hv.after hu.advances.errors hu.interface hu.appended.grows, ?_⟩
    refine .letVar hw hx' ((h.straight hu.appended).grows hv.grows) ?_
    rw [← h.point_after hu.appended]
    exact hcode
  | case2 vars st _ =>
    simp only [Bool.and_eq_true] at hss
    rw [Gen.statements]
    refine .bind ((Stmt.lowers hk st hss.2 [] p s h).mono ?_)
    rintro _ t ⟨p', ht, hcode⟩
    have hstanding := ht.standing
    rw [hss.1] at hstanding
    rw [Gen.statements]
    refine .pure ⟨⟨?_, ht.advances.errors, ht.advances.interface, ht.advances.grows, hstanding.1,
      ht.accepted⟩, .stmt hcode .nil⟩
    rw [ht.advances.scopes]
    exact houter
  | case3 vars st ss _ _ ih =>
    simp only [Bool.and_eq_true, Bool.not_eq_true'] at hss
    rw [Gen.statements]
    have hst : Lowers fs env st.isReturn _ (Gen.statement e importer st) :=
      Stmt.lowers hk st hss.1.1
    rw [hss.1.2] at hst
    refine .bind ((hst [] p s h).mono ?_)
    rintro _ t ⟨p', ht, hcode⟩
    refine (ih hss.2 hk (ht.ready h) (ht.advances.scopes ▸ houter)).mono ?_
    rintro _ u ⟨hu, hcode'⟩
    refine ⟨hu.after ht.advances.errors ht.advances.interface ht.advances.grows, ?_⟩
    rw [ht.routine] at hcode'
    exact .stmt (hcode.grows hu.grows) hcode'
  | case4 => simp at hss

end Bodies

end LimeLang
