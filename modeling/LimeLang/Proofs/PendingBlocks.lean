import LimeLang.Proofs.AppendOnly
import LimeLang.Proofs.ControlFlow
import LimeLang.Proofs.LoopJumps

/-! Which blocks have no terminator while code is written. An instruction in the middle of a block
changes none of that. A conditional or a loop closes the block it starts from and every block of its
own except the one behind it, in which writing goes on. -/

namespace LimeLang

open Code

/-- What some statements do to the block in which code is written. It stays the same, or it ends
with a jump, or code goes on in a new one. -/
inductive Tail
  | same
  | jump
  | join
deriving DecidableEq

def Tail.andThen : Tail → Tail → Tail
  | τ, .same => τ
  | _, τ => τ

@[simp] theorem Tail.same_andThen (τ : Tail) : Tail.same.andThen τ = τ := by cases τ <;> rfl

@[simp] theorem Tail.andThen_same (τ : Tail) : τ.andThen .same = τ := rfl

theorem Tail.andThen_assoc (τ₁ τ₂ τ₃ : Tail) :
    (τ₁.andThen τ₂).andThen τ₃ = τ₁.andThen (τ₂.andThen τ₃) := by
  cases τ₃ <;> rfl

theorem Code.Assembly.code?_takeName {a : Assembly} {n : String} {r : Routine}
    (hr : a.routine? n = some r)
    (q : Place) : (a.modifyRoutine n fun _ => r.takeName.2).code? q = a.code? q := by
  have hname : r.takeName.2.name = n := show r.name = n from routine?_name hr
  rw [code?, routine?_modifyRoutine fun _ _ => hname, code?]
  split_ifs with hq
  · rw [hq, hr]
    rfl
  · rfl

namespace Session

variable {s t u : Session} {p q : Place} {r : Routine} {op : Op}

def Pending (s : Session) (q : Place) : Prop :=
  ∃ is, s.assembly.code? q = some is ∧ ∀ i ∈ is, i.op.isTerminator = false

theorem pending_congr (h : t.assembly.code? q = s.assembly.code? q) : t.Pending q ↔
    s.Pending q := by
  rw [Pending, Pending, h]

/-- The current block is the same, and the same blocks have no terminator. -/
structure Steady (s t : Session) : Prop where
  place : t.place = s.place
  pending : ∀ q, t.Pending q ↔ s.Pending q

theorem Steady.refl (s : Session) : s.Steady s := ⟨rfl, fun _ => .rfl⟩

theorem Steady.trans (h : s.Steady t) (h' : t.Steady u) : s.Steady u :=
  ⟨h'.place.trans h.place, fun q => (h'.pending q).trans (h.pending q)⟩

theorem Steady.of_code (hplace : t.place = s.place)
    (h : ∀ q, t.assembly.code? q = s.assembly.code? q) :
    s.Steady t := ⟨hplace, fun q => pending_congr (h q)⟩

/-- An instruction goes to the current block, and a terminator closes it. -/
theorem pending_withInstr (hr : s.assembly.routine? p.routine = some r) :
    ({ s with assembly := s.assembly.withInstr p r op } : Session).Pending q ↔
      s.Pending q ∧ (op.isTerminator = true → q ≠ p) := by
  rw [Pending, Pending, Assembly.code?_withInstr hr]
  by_cases hq : q = p
  · subst hq
    simp only [if_true, Option.map_eq_some_iff, ne_eq, not_true_eq_false, imp_false,
      Bool.not_eq_true]
    constructor
    · rintro ⟨_, ⟨is, his, rfl⟩, hall⟩
      obtain ⟨hold, hnew⟩ := List.forall_mem_append.mp hall
      exact ⟨⟨is, his, hold⟩, hnew _ (List.mem_singleton.mpr rfl)⟩
    · rintro ⟨⟨is, his, hold⟩, hop⟩
      exact ⟨_, ⟨is, his, rfl⟩, List.forall_mem_append.mpr ⟨hold, by simpa using hop⟩⟩
  · simp [hq]

end Session

theorem steady : ClosedScopes (Obeys Session.Steady) where
  pure := .pure .refl
  throw _ := .throw .refl _
  bind := .bind fun _ _ _ => .trans
  get hf _ := .get hf
  print _ _ := ⟨rfl, fun _ => .rfl⟩
  record _ _ := ⟨rfl, fun _ => .rfl⟩
  countUp _ := ⟨rfl, fun _ => .rfl⟩
  emit hop := .emit .refl (fun _ _ _ _ hr => .of_code rfl (Assembly.code?_takeName hr))
    fun _ _ _ _ hr => ⟨rfl, fun _ => (Session.pending_withInstr hr).trans (by simp [hop])⟩
  addConstant _ := .addItem .refl fun _ hi => .of_code rfl fun _ => Assembly.code?_add hi (by simp)
  define _ _ _ := ⟨rfl, fun _ => .rfl⟩
  enterScope _ := ⟨rfl, fun _ => .rfl⟩
  leaveScopes _ _ := ⟨rfl, fun _ => .rfl⟩

structure Session.Closes (s : Session) (p : Place) (t : Session) : Prop where
  place : t.place = some p
  pending : ∀ q, t.Pending q ↔ s.Pending q ∧ q ≠ p

/-- There is a new block, and writing goes on where it was. -/
structure Session.AddsBlock (s : Session) (p q : Place) (t : Session) : Prop where
  orderly : t.Orderly
  place : t.place = some p
  routine : q.routine = p.routine
  new : s.assembly.code? q = none
  pending : ∀ q', t.Pending q' ↔ s.Pending q' ∨ q' = q

section Blocks

variable {α : Type} {g : Gen α} {s t u : Session} {p q q' : Place} {r : Except Failure α}

theorem Appending.preserves_of_run (hg : Appending g) (hs : s.Orderly) (h : g.run s = (r, t)) :
    s.Preserves t := by
  have hst := (hg s hs).1
  rwa [h] at hst

theorem Appending.orderly_of_run (hg : Appending g) (hs : s.Orderly) (h : g.run s = (r, t)) :
    t.Orderly :=
  (hg.preserves_of_run hs h).orderly hs

theorem Session.Preserves.pending (h : s.Preserves t) (hs : s.Orderly) (hq : s.Pending q)
    (hplace : s.place ≠ some q) : t.Pending q := by
  obtain ⟨is, his, hopen⟩ := hq
  exact ⟨is, h.code hs his hplace, hopen⟩

theorem terminate_ok {op : Op} {v : Operand} (hop : op.isTerminator = true) (hp : s.place = some p)
    (h : (Gen.emit op).run s = (.ok v, t)) : s.Closes p t := by
  cases hr : s.assembly.routine? p.routine with
  | none =>
    rw [Gen.run_emit_unknown hp hr] at h
    cases h
  | some r =>
    rw [Gen.run_emit_at hp hr] at h
    split_ifs at h
    · cases h
    · cases h
      exact ⟨hp, fun q => (Session.pending_withInstr hr).trans (by simp [hop])⟩

theorem branch_ok (hp : s.place = some p) (h : (Gen.branch q).run s = (.ok (), t)) :
    s.Closes p t := by
  obtain ⟨_, _, h, hret⟩ := Gen.bind_ok h
  cases hret
  exact terminate_ok rfl hp h

theorem branchOn_ok {c : Option Operand} (hp : s.place = some p)
    (h : (Gen.branchOn c q q').run s = (.ok (), t)) : s.Closes p t := by
  obtain ⟨_, _, h, hret⟩ := Gen.bind_ok h
  cases hret
  exact terminate_ok rfl hp h

theorem ret_ok {x : Option Operand} (hp : s.place = some p) (h : (Gen.ret x).run s = (.ok (), t)) :
    s.Closes p t := by
  obtain ⟨_, _, h, hret⟩ := Gen.bind_ok h
  cases hret
  exact terminate_ok rfl hp h

/-- A block that has ended needs no branch, so in either case it has a terminator afterwards. -/
theorem closeWith_ok (hs : s.Orderly) (hp : s.place = some p)
    (h : (Gen.closeWith q).run s = (.ok (), t)) : s.Closes p t := by
  obtain ⟨is, his⟩ := Option.isSome_iff_exists.mp (hs.placed p hp)
  rw [Gen.run_closeWith hp his] at h
  split_ifs at h with hended
  · cases h
    refine ⟨hp, fun q => ⟨fun hq => ⟨hq, ?_⟩, And.left⟩⟩
    rintro rfl
    obtain ⟨js, hjs, hopen⟩ := hq
    obtain rfl := Option.some.inj (his.symm.trans hjs)
    obtain ⟨i, hi, hterminator⟩ := List.any_eq_true.mp hended
    exact absurd hterminator (by simp [hopen i hi])
  · exact branch_ok hp h

theorem addBlock_ok {name : String} (hs : s.Orderly) (hp : s.place = some p)
    (h : (Gen.addBlock name).run s = (.ok q, t)) : s.AddsBlock p q t := by
  obtain ⟨is, his⟩ := Option.isSome_iff_exists.mp (hs.placed p hp)
  obtain ⟨r, hr, -⟩ := Option.bind_eq_some_iff.mp his
  have hpreserves := ((addBlock_adds hs (.refl s) name).ok h).1
  have hname : r.name = p.routine := Assembly.routine?_name hr
  rw [Gen.run_addBlock hp hr, ← hname] at h
  cases h
  have hr' : s.assembly.routine? r.name = some r := hname ▸ hr
  refine ⟨hpreserves.orderly hs, hp, hname, Assembly.code?_new hs.sound hr', fun q' => ?_⟩
  rw [Session.Pending, Assembly.code?_withBlock hs.sound hr']
  split_ifs with hq'
  · simp [hq']
  · simp [hq', Session.Pending]

theorem Session.Pending.isSome (h : s.Pending q) : (s.assembly.code? q).isSome = true := by
  obtain ⟨is, his, -⟩ := h
  rw [his]
  rfl

theorem Session.Orderly.moveTo (hs : s.Orderly) (hq : (s.assembly.code? q).isSome = true) :
    ({ s with place := some q } : Session).Orderly :=
  ⟨hs.sound, fun _ hp => Option.some.inj hp ▸ hq⟩

end Blocks

/-- Code from the block at `p` to the one at `p'`. Of the blocks that have no terminator, only `p'`
is new. -/
structure Session.Moves (s : Session) (p : Place) (τ : Tail) (t : Session) (p' : Place) : Prop where
  place : t.place = some p'
  routine : p'.routine = p.routine
  settled : ∀ q, q.routine = p.routine → t.Pending q → q = p' ∨ s.Pending q ∧ q ≠ p
  same : τ = .same → p' = p ∧ (t.Pending p ↔ s.Pending p)
  jump : τ = .jump → ¬ t.Pending p'
  join : τ = .join → t.Pending p'

namespace Session.Moves

variable {s t u : Session} {p p' p'' : Place} {τ τ' : Tail}

theorem trans (h : s.Moves p τ t p') (h' : t.Moves p' τ' u p'') :
    s.Moves p (τ.andThen τ') u p'' where
  place := h'.place
  routine := h'.routine.trans h.routine
  settled q hq hpending := by
    rcases h'.settled q (hq.trans h.routine.symm) hpending with rfl | ⟨hbefore, hne⟩
    · exact .inl rfl
    · exact .inr ((h.settled q hq hbefore).resolve_left hne)
  same hτ := by
    cases τ' with
    | same =>
      obtain ⟨rfl, hpending⟩ := h'.same rfl
      obtain ⟨rfl, hpending'⟩ := h.same hτ
      exact ⟨rfl, hpending.trans hpending'⟩
    | jump | join => cases hτ
  jump hτ := by
    cases τ' with
    | same =>
      obtain ⟨rfl, hpending⟩ := h'.same rfl
      exact mt hpending.mp (h.jump hτ)
    | jump => exact h'.jump rfl
    | join => cases hτ
  join hτ := by
    cases τ' with
    | same =>
      obtain ⟨rfl, hpending⟩ := h'.same rfl
      exact hpending.mpr (h.join hτ)
    | jump => cases hτ
    | join => exact h'.join rfl

theorem of_steady (h : s.Steady t) (hp : s.place = some p) : s.Moves p .same t p where
  place := h.place.trans hp
  routine := rfl
  settled q _ hq := by
    by_cases heq : q = p
    · exact .inl heq
    · exact .inr ⟨(h.pending q).mp hq, heq⟩
  same _ := ⟨rfl, h.pending p⟩
  jump := by simp
  join := by simp

theorem of_code {s' t' : Session} (h : s.Moves p τ t p') (hs : s'.assembly = s.assembly := by rfl)
    (ht : t'.assembly = t.assembly := by rfl) (hplace : t'.place = t.place := by rfl) :
      s'.Moves p τ t' p' := by
  have hs' : ∀ q, s'.Pending q ↔ s.Pending q := fun q => pending_congr (by rw [hs])
  have ht' : ∀ q, t'.Pending q ↔ t.Pending q := fun q => pending_congr (by rw [ht])
  refine ⟨hplace.trans h.place, h.routine, ?_, ?_, ?_, ?_⟩
  · simpa only [hs', ht'] using h.settled
  · simpa only [hs', ht'] using h.same
  · simpa only [ht'] using h.jump
  · simpa only [ht'] using h.join

theorem of_closes (h : s.Closes p t) : s.Moves p .jump t p where
  place := h.place
  routine := rfl
  settled q _ hq := .inr ((h.pending q).mp hq)
  same := by simp
  jump _ hp := ((h.pending p).mp hp).2 rfl
  join := by simp

end Session.Moves

/-- Blocks are made for the parts of a statement, while writing goes on at `p`. -/
structure Session.Offers (s : Session) (p : Place) (qs : List Place) (t : Session) : Prop where
  orderly : t.Orderly
  place : t.place = some p
  distinct : (p :: qs).Nodup
  routine : ∀ q ∈ qs, q.routine = p.routine
  pending : ∀ q ∈ qs, t.Pending q
  settled : ∀ q, t.Pending q → q ∈ qs ∨ s.Pending q

/-- The block at `p` is closed and the part at `inner` is being written. Others wait for their
turn. -/
structure Session.Forks (s : Session) (p inner : Place) (waiting : List Place) (t : Session) :
    Prop where
  orderly : t.Orderly
  place : t.place = some inner
  distinct : (inner :: waiting).Nodup
  routine : ∀ q ∈ inner :: waiting, q.routine = p.routine
  pending : ∀ q ∈ inner :: waiting, t.Pending q
  settled : ∀ q, q.routine = p.routine → t.Pending q → q ∈ inner :: waiting ∨ s.Pending q ∧ q ≠ p

section Forking

variable {s t u v : Session} {p p' q inner : Place} {qs waiting : List Place} {τ : Tail}

theorem Session.Offers.nil (h : s.Steady t) (ht : t.Orderly) (hp : s.place = some p) :
    s.Offers p [] t where
  orderly := ht
  place := h.place.trans hp
  distinct := by simp
  routine := by simp
  pending := by simp
  settled q hq := .inr ((h.pending q).mp hq)

theorem Session.Offers.steady (h : s.Offers p qs t) (htu : t.Steady u) (hu : u.Orderly) :
    s.Offers p qs u where
  orderly := hu
  place := htu.place.trans h.place
  distinct := h.distinct
  routine := h.routine
  pending q hq := (htu.pending q).mpr (h.pending q hq)
  settled q hq := h.settled q ((htu.pending q).mp hq)

theorem Session.Offers.add {name : String} (h : s.Offers p qs t)
    (hrun : (Gen.addBlock name).run t = (.ok q, u)) : s.Offers p (qs ++ [q]) u := by
  have hadd := addBlock_ok h.orderly h.place hrun
  refine ⟨hadd.orderly, hadd.place, ?_, ?_, fun q' hq' => ?_, fun q' hq' => ?_⟩
  · have hused : ∀ q' ∈ p :: qs, (t.assembly.code? q').isSome = true :=
      List.forall_mem_cons.mpr ⟨h.orderly.placed p h.place, fun q' hq' => (h.pending q' hq').isSome⟩
    have hfresh : q ∉ p :: qs := by
      intro hq
      have hsome := hused q hq
      rw [hadd.new] at hsome
      cases hsome
    rw [← List.cons_append]
    exact List.nodup_append.mpr ⟨h.distinct, List.nodup_singleton q, by
      rintro a ha b hb rfl
      exact hfresh (List.mem_singleton.mp hb ▸ ha)⟩
  · exact List.forall_mem_append.mpr ⟨h.routine, by simpa using hadd.routine⟩
  · exact (hadd.pending q').mpr ((List.mem_append.mp hq').imp (h.pending q') List.mem_singleton.mp)
  · rcases (hadd.pending q').mp hq' with hold | rfl
    · exact (h.settled q' hold).imp (List.mem_append_left _) id
    · exact .inl (by simp)

theorem Session.Offers.fork (h : s.Offers p (inner :: waiting) t) (hclose : t.Closes p u)
    (hu : u.Orderly) : s.Forks p inner waiting { u with place := some inner } := by
  have hne : ∀ q ∈ inner :: waiting, q ≠ p :=
    fun q hq heq => (List.nodup_cons.mp h.distinct).1 (heq ▸ hq)
  have hpending : ∀ q ∈ inner :: waiting, u.Pending q :=
    fun q hq => (hclose.pending q).mpr ⟨h.pending q hq, hne q hq⟩
  refine ⟨hu.moveTo (hpending inner (by simp)).isSome, rfl, (List.nodup_cons.mp h.distinct).2,
    h.routine, hpending, fun q _ hq => ?_⟩
  obtain ⟨hbefore, hq⟩ := (hclose.pending q).mp hq
  exact (h.settled q hbefore).imp id fun hold => ⟨hold, hq⟩

theorem Session.Offers.forkOn {c : Option Operand} {q' : Place}
    (h : s.Offers p (inner :: waiting) t) (hrun : (Gen.branchOn c q q').run t = (.ok (), u)) :
    s.Forks p inner waiting { u with place := some inner } :=
  h.fork (branchOn_ok h.place hrun) ((appending.branchOn _ _ _).orderly_of_run h.orderly hrun)

/-- A part is written from its block on, and the block where it stops is closed. -/
theorem Session.Forks.next (h : s.Forks p inner (q :: waiting) t) (hpart : t.Moves inner τ u p')
    (hpreserves : t.Preserves v) (hclose : u.Closes p' v) :
      s.Forks p q waiting { v with place := some q } := by
  obtain ⟨hinner, hdistinct⟩ := List.nodup_cons.mp h.distinct
  have hpending : ∀ q' ∈ q :: waiting, v.Pending q' := by
    intro q' hq'
    refine hpreserves.pending h.orderly (h.pending q' (List.mem_cons_of_mem _ hq')) ?_
    rw [h.place]
    exact fun heq => hinner (Option.some.inj heq ▸ hq')
  refine ⟨(hpreserves.orderly h.orderly).moveTo (hpending q (by simp)).isSome, rfl, hdistinct,
    fun q' hq' => h.routine q' (List.mem_cons_of_mem _ hq'), hpending, fun q' hroutine hq' => ?_⟩
  obtain ⟨hq', hne⟩ := (hclose.pending q').mp hq'
  have hinner' := h.routine inner List.mem_cons_self
  obtain ⟨hq', hne'⟩ := (hpart.settled q' (hroutine.trans hinner'.symm) hq').resolve_left hne
  exact (h.settled q' hroutine hq').imp (fun hmem => (List.mem_cons.mp hmem).resolve_left hne') id

theorem Session.Forks.join (h : s.Forks p inner [] t) : s.Moves p .join t inner where
  place := h.place
  routine := h.routine inner List.mem_cons_self
  settled q hq hpending := (h.settled q hq hpending).imp List.mem_singleton.mp id
  same := by simp
  jump := by simp
  join _ := h.pending inner List.mem_cons_self

end Forking

/-- The computation goes from the current block to a block of the same routine, and only adds
code. -/
structure Moving (g : Gen Unit) : Prop where
  appending : Appending g
  moves : ∀ s t p, s.Orderly → s.place = some p → g.run s = (.ok (), t) → ∃ τ p', s.Moves p τ t p'

theorem Moving.bind {g g' : Gen Unit} (h : Moving g) (h' : Moving g') : Moving (do g; g') where
  appending := .bind h.appending fun _ => h'.appending
  moves s t p hs hp hrun := by
    obtain ⟨_, s₁, h₁, h₂⟩ := Gen.bind_ok hrun
    obtain ⟨τ, p', hmoves⟩ := h.moves s s₁ p hs hp h₁
    obtain ⟨τ', p'', hmoves'⟩ := h'.moves s₁ t p' (h.appending.orderly_of_run hs h₁) hmoves.place h₂
    exact ⟨_, p'', hmoves.trans hmoves'⟩

section Parts

variable {e : Edition} {g : Gen Unit} {s t u v w : Session} {p q inner after : Place}
  {waiting : List Place} {c : Expr} {x : Typed}

theorem Session.Forks.arm (h : s.Forks p inner (q :: waiting) t) (hg : Moving g)
    (hrun : g.run t = (.ok (), u))
    (hclose : (Gen.closeWith after).run u = (.ok (), v)) :
      s.Forks p q waiting { v with place := some q } := by
  obtain ⟨τ, p', hmoves⟩ := hg.moves t u inner h.orderly h.place hrun
  have hpreserves := hg.appending.preserves_of_run h.orderly hrun
  have hu := hpreserves.orderly h.orderly
  exact h.next hmoves (hpreserves.trans ((appending.closeWith after).preserves_of_run hu hclose))
    (closeWith_ok hu hmoves.place hclose)

/-- The body of a loop, with the condition behind it. -/
theorem Session.Forks.lap (h : s.Forks p inner (q :: waiting) t) (hg : Moving g)
    (hrun : g.run t = (.ok (), u)) (hvalue : (Gen.value e c).run u = (.ok x, v))
    (hbranch : (Gen.branchOn x.value inner after).run v = (.ok (), w)) :
    s.Forks p q waiting { w with place := some q } := by
  obtain ⟨τ, p', hmoves⟩ := hg.moves t u inner h.orderly h.place hrun
  have hpreserves := hg.appending.preserves_of_run h.orderly hrun
  have hu := hpreserves.orderly h.orderly
  have hsteady := Session.Moves.of_steady ((steady.value e c).of_run hvalue) hmoves.place
  have hv := (appending.value e c).orderly_of_run hu hvalue
  exact h.next (hmoves.trans hsteady)
    ((hpreserves.trans ((appending.value e c).preserves_of_run hu hvalue)).trans
    ((appending.branchOn _ _ _).preserves_of_run hv hbranch)) (branchOn_ok hsteady.place hbranch)

end Parts

section Statements

variable {e : Edition} {importer : String → Gen Unit} {c : Expr} {body alternative : List Stmt}
  {s t : Session} {p : Place}

theorem ifThen_moves (hbody : Moving (Gen.statements e importer body)) (hs : s.Orderly)
    (hp : s.place = some p)
    (h : (Gen.effect e importer (.ifThen c body)).run s = (.ok (), t)) :
      ∃ p', s.Moves p .join t p' := by
  rw [Gen.effect] at h
  obtain ⟨test, s₁, h₁, h⟩ := Gen.bind_ok h
  have hoffers := Session.Offers.nil ((steady.value e c).of_run h₁)
    ((appending.value e c).orderly_of_run hs h₁) hp
  obtain ⟨_, h⟩ := Gen.branchPlace_ok h
  obtain ⟨onTrue, s₂, h₂, h⟩ := Gen.bind_ok h
  replace hoffers := hoffers.add h₂
  obtain ⟨after, s₃, h₃, h⟩ := Gen.bind_ok h
  replace hoffers := hoffers.add h₃
  obtain ⟨_, s₄, h₄, h⟩ := Gen.bind_ok h
  have hforks := hoffers.forkOn h₄
  obtain ⟨_, s₅, h₅, h⟩ := Gen.bind_ok (Gen.moveTo_ok h)
  obtain ⟨_, s₆, h₆, h⟩ := Gen.bind_ok h
  cases h
  exact ⟨after, (hforks.arm hbody h₅ h₆).join⟩

theorem ifElse_moves (hbody : Moving (Gen.statements e importer body))
    (halternative : Moving (Gen.statements e importer alternative)) (hs : s.Orderly)
    (hp : s.place = some p)
    (h : (Gen.effect e importer (.ifElse c body alternative)).run s = (.ok (), t)) :
      ∃ p', s.Moves p .join t p' := by
  rw [Gen.effect] at h
  obtain ⟨test, s₁, h₁, h⟩ := Gen.bind_ok h
  have hoffers := Session.Offers.nil ((steady.value e c).of_run h₁)
    ((appending.value e c).orderly_of_run hs h₁) hp
  obtain ⟨_, h⟩ := Gen.branchPlace_ok h
  obtain ⟨onTrue, s₂, h₂, h⟩ := Gen.bind_ok h
  replace hoffers := hoffers.add h₂
  obtain ⟨onFalse, s₃, h₃, h⟩ := Gen.bind_ok h
  replace hoffers := hoffers.add h₃
  obtain ⟨after, s₄, h₄, h⟩ := Gen.bind_ok h
  replace hoffers := hoffers.add h₄
  obtain ⟨_, s₅, h₅, h⟩ := Gen.bind_ok h
  have hforks := hoffers.forkOn h₅
  obtain ⟨_, s₆, h₆, h⟩ := Gen.bind_ok (Gen.moveTo_ok h)
  obtain ⟨_, s₇, h₇, h⟩ := Gen.bind_ok h
  obtain ⟨_, s₈, h₈, h⟩ := Gen.bind_ok (Gen.moveTo_ok h)
  obtain ⟨_, s₉, h₉, h⟩ := Gen.bind_ok h
  cases h
  exact ⟨after, ((hforks.arm hbody h₆ h₇).arm halternative h₈ h₉).join⟩

theorem whileLoop_moves (hbody : Moving (Gen.statements e importer body)) (hs : s.Orderly)
    (hp : s.place = some p)
    (h : (Gen.statement e importer (.whileLoop c body)).run s = (.ok (), t)) :
      ∃ p', s.Moves p .join t p' := by
  rw [Gen.statement] at h
  obtain ⟨test, s₁, h₁, h⟩ := Gen.bind_ok h
  have hs₁ := (appending.value e c).orderly_of_run hs h₁
  have hoffers := Session.Offers.nil ((steady.value e c).of_run h₁) hs₁ hp
  obtain ⟨n, s₂, h₂, h⟩ := Gen.bind_ok h
  replace hoffers := hoffers.steady (steady.countUp.of_run h₂)
    (appending.countUp.orderly_of_run hs₁ h₂)
  obtain ⟨entry, s₃, h₃, h⟩ := Gen.bind_ok h
  replace hoffers := hoffers.add h₃
  obtain ⟨exit, s₄, h₄, h⟩ := Gen.bind_ok h
  replace hoffers := hoffers.add h₄
  obtain ⟨_, s₅, h₅, h⟩ := Gen.bind_ok h
  have hforks := hoffers.forkOn h₅
  obtain ⟨_, s₆, h₆, h⟩ := Gen.bind_ok h
  obtain rfl := Gen.moveToStart_ok h₆
  obtain ⟨_, s₇, h₇, h⟩ := Gen.bind_ok h
  obtain ⟨test', s₈, h₈, h⟩ := Gen.bind_ok h
  obtain ⟨_, s₉, h₉, h⟩ := Gen.bind_ok h
  obtain rfl := Gen.moveToStart_ok h
  exact ⟨exit, (hforks.lap hbody h₇ h₈ h₉).join⟩

theorem forLoop_moves {init next : Stmt} (hinit : Moving (Gen.statement e importer init))
    (hbody : Moving (Gen.statements e importer body))
    (hnext : Moving (Gen.statement e importer next)) (hs : s.Orderly) (hp : s.place = some p)
    (h : (Gen.statement e importer (.forLoop init c next body)).run s = (.ok (), t)) :
      ∃ p', s.Moves p .join t p' := by
  rw [Gen.statement] at h
  obtain ⟨_, s₁, h₁, h⟩ := Gen.bind_ok h
  have hs₁ := appendingScopes.enterScope.orderly_of_run hs h₁
  have hentered := Session.Moves.of_steady (steady.enterScope.of_run h₁) hp
  obtain ⟨_, s₂, h₂, h⟩ := Gen.bind_ok h
  have hs₂ := hinit.appending.orderly_of_run hs₁ h₂
  obtain ⟨τ, p₂, hfirst⟩ := hinit.moves _ _ _ hs₁ hentered.place h₂
  obtain ⟨n, s₃, h₃, h⟩ := Gen.bind_ok h
  have hoffers := Session.Offers.nil (steady.countUp.of_run h₃)
    (appending.countUp.orderly_of_run hs₂ h₃) hfirst.place
  obtain ⟨entry, s₄, h₄, h⟩ := Gen.bind_ok h
  replace hoffers := hoffers.add h₄
  obtain ⟨exit, s₅, h₅, h⟩ := Gen.bind_ok h
  replace hoffers := hoffers.add h₅
  obtain ⟨_, s₆, h₆, h⟩ := Gen.bind_ok h
  have hs₆ := (Appending.changeLoops fun l => l.enter entry exit).orderly_of_run hoffers.orderly h₆
  have hloops : s₅.Steady s₆ := by
    cases h₆
    exact .of_code rfl fun _ => rfl
  replace hoffers := hoffers.steady hloops hs₆
  obtain ⟨_, s₇, h₇, h⟩ := Gen.bind_ok h
  have hforks := hoffers.fork (branch_ok hoffers.place h₇)
    ((appending.branch _).orderly_of_run hs₆ h₇)
  obtain ⟨_, s₈, h₈, h⟩ := Gen.bind_ok h
  obtain rfl := Gen.moveToStart_ok h₈
  obtain ⟨_, s₉, h₉, h⟩ := Gen.bind_ok h
  obtain ⟨_, s₁₀, h₁₀, h⟩ := Gen.bind_ok h
  have hboth : (do Gen.statements e importer body; Gen.statement e importer next : Gen Unit).run
      _ = (.ok (), s₁₀) :=
    (Gen.run_bind_of_ok h₉).trans h₁₀
  obtain ⟨test, s₁₁, h₁₁, h⟩ := Gen.bind_ok h
  obtain ⟨_, s₁₂, h₁₂, h⟩ := Gen.bind_ok h
  obtain ⟨_, s₁₃, h₁₃, h⟩ := Gen.bind_ok h
  obtain rfl := Gen.moveToStart_ok h₁₃
  have hjoin := (hforks.lap (hbody.bind hnext) hboth h₁₁ h₁₂).join
  have hleft : ({ s₁₂ with place := some exit } : Session).Steady t := by
    cases h
    exact .of_code rfl fun _ => rfl
  exact ⟨exit, ((hentered.trans hfirst).trans hjoin).trans (.of_steady hleft hjoin.place)⟩

end Statements

end LimeLang
