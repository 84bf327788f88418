import LimeLang.Proofs.SessionInvariant
import LimeLang.Proofs.StatementParts

/-! Statements keep a session valid however they end, and those that do not fail give back the
loops, the builder and the routine that they found. So all sessions that can be reached are
valid. -/

namespace LimeLang

open Code

/-- The block is there and belongs to the routine that code is written to. -/
def Session.Has (s : Session) (q : Place) : Prop :=
  (s.assembly.code? q).isSome = true ∧ s.place.map Place.routine = some q.routine

theorem Session.Has.frames {s t : Session} {q : Place} (h : s.Has q) (hst : s.Frames t) : t.Has q :=
  ⟨hst.grows.code_isSome h.1, hst.routine.trans h.2⟩

/-- A computation that keeps the session valid and gives back its frame. -/
def Disciplined {α : Type} (g : Gen α) : Prop := ∀ s : Session, s.Valid →
    Secures g s fun _ t => s.Frames t

theorem Disciplined.quiet {α : Type} {g : Gen α} (hg : Obeys Session.Quiet g) : Disciplined g :=
  fun _ hs => (Secures.quiet hg hs).mono fun _ _ _ h => h.frames

theorem Disciplined.bind {α β : Type} {g : Gen α} {f : α → Gen β} (hg : Disciplined g)
    (hf : ∀ a, Disciplined (f a)) : Disciplined (g >>= f) := by
  intro s hs
  refine (hg s hs).bind fun a t ht hst => ?_
  exact (hf a t ht).mono fun _ u _ htu => hst.trans htu

theorem Disciplined.get {β : Type} {f : Session → Gen β} (hf : ∀ s, Disciplined (f s)) :
    Disciplined (MonadState.get >>= f) := fun s hs => hf s s hs

section Blocks

variable {s : Session} {q : Place}

theorem moveTo_secures (hs : s.Valid) (hq : s.Has q) :
    Secures (Gen.moveTo (some q)) s fun _ t => s.Frames t := by
  refine ⟨⟨hs.sound, ?_, hs.typed, hs.numbered, hs.paired⟩, rfl, rfl, ?_, .refl _⟩
  · intro p hp
    exact Option.some.inj hp ▸ hq.1
  · exact hq.2.symm

theorem moveToStart_secures (hs : s.Valid) (hq : s.Has q) :
    Secures (Gen.moveToStart q) s fun _ t => s.Frames t := by
  rw [Secures, Gen.run_moveToStart]
  split_ifs
  · exact moveTo_secures hs hq
  · exact hs

/-- A block appended to the current routine. It has the name that was asked for if that was free. -/
structure Session.Opens (s : Session) (name : String) (q : Place) (t : Session) : Prop where
  frames : s.Frames t
  place : t.place = s.place
  counter : t.counter = s.counter
  has : t.Has q
  block : ∃ r r', s.assembly.routine? q.routine = some r ∧ t.assembly.routine? q.routine = some r' ∧
    (name ∉ r.names.used → q.block = name) ∧
    r'.blocks.map Block.name = r.blocks.map Block.name ++ [q.block] ∧
      r'.names.used = q.block :: r.names.used

theorem addBlockTo_secures (hs : s.Valid) {n name : String}
    (hname : ∀ k, ForLoop.HasName k name → k ≤ s.counter) :
    Secures (Gen.addBlockTo n name) s fun q t => ∃ r, s.assembly.routine? n = some r ∧
      q = ⟨n, (r.addBlock name).1⟩ ∧ t = { s with assembly := s.assembly.withBlock r name } ∧
      (t.assembly.code? q).isSome = true := by
  cases hr : s.assembly.routine? n with
  | none =>
    rw [Secures, Gen.run_addBlockTo_unknown hr]
    exact hs
  | some r =>
    obtain rfl := Assembly.routine?_name hr
    have hg : s.assembly.Grows (s.assembly.withBlock r name) := Assembly.Grows.steps.withBlock hr
    rw [Secures, Gen.run_addBlockTo hr]
    refine ⟨⟨hs.sound.withBlock hr, ?_, ?_, hs.numbered.withBlock hr hname, ?_⟩, r, rfl, rfl, rfl,
      ?_⟩
    · exact fun p hp => hg.code_isSome (hs.placed p hp)
    · exact hs.typed.mono fun b hb => hb.grows hg (Assembly.KeepsConstants.steps.withBlock hr)
    · exact hs.paired.grows rfl (Nat.le_refl _) hg
    · dsimp only
      rw [Assembly.code?_withBlock hs.sound hr, if_pos rfl]
      rfl

theorem addBlock_secures (hs : s.Valid) {name : String}
    (hname : ∀ k, ForLoop.HasName k name → k ≤ s.counter) :
      Secures (Gen.addBlock name) s (s.Opens name) := by
  refine .get ?_
  cases hp : s.place with
  | none => exact hs
  | some p =>
    refine (addBlockTo_secures hs hname).mono ?_
    rintro q t - ⟨r, hr, rfl, rfl, hcode⟩
    have hn : r.name = p.routine := Assembly.routine?_name hr
    have hr' : s.assembly.routine? r.name = some r := hn ▸ hr
    refine ⟨⟨rfl, rfl, rfl, Assembly.Grows.steps.withBlock hr'⟩, rfl, rfl, ⟨hcode, congrArg _ hp⟩,
      r, (r.addBlock name).2, hr, ?_, Names.register_new, ?_, Names.register_used _ _⟩
    · exact (Assembly.routine?_withBlock hr').trans (if_pos hn.symm)
    · exact List.map_append

end Blocks

section OtherNames

variable {k : Nat}

theorem not_hasName_suffixed (name suffix : String) (h : '.' ∈ suffix.toList) :
    ¬ ForLoop.HasName k (suffixed name suffix) := by
  refine not_hasName_of_dotted (.inr ?_) k
  rw [suffixed]
  split
  · rw [String.toList_append]
    exact List.mem_append_right _ h
  · rw [String.toList_append]
    exact List.mem_append_right _ h

theorem not_hasName_while (name : String) (h : name.toList.head? = some 'w') (n : Nat) :
    ¬ ForLoop.HasName k (name ++ toString n) := by
  intro hk
  have hhead := hk.head
  rw [String.toList_append, List.head?_append, h] at hhead
  simp at hhead

theorem not_hasName_entry (name : String) : ¬ ForLoop.HasName k (name ++ "_entry") := by
  intro hk
  obtain ⟨c, hc, hdigit⟩ := hk.last
  rw [String.toList_append, List.getLast?_append_of_ne_nil _ (by decide)] at hc
  have hy : "_entry".toList.getLast? = some 'y' := by decide
  rw [hy] at hc
  rw [← Option.some.inj hc] at hdigit
  exact absurd hdigit (by decide)

end OtherNames

section Loops

variable {s : Session}

theorem countUp_secures (hs : s.Valid) : Secures Gen.countUp s fun n t =>
    n = s.counter + 1 ∧ t.counter = n ∧ s.Quiet t ∧ t.assembly = s.assembly :=
  ⟨(quiet.countUp s).valid hs, rfl, rfl, quiet.countUp s, rfl⟩

/-- The two blocks of a new loop get just the names that are asked for. -/
theorem loopBlocks_secures {α : Type} {k : Place → Place → Gen α} {Q : α → Session →
    Prop} (hs : s.Valid)
    (hk : ∀ l t, t.Valid → s.Frames t → t.Has l.entry → t.Has l.exit → l.number = s.counter + 1 →
      t.HasLoop l → Secures (k l.entry l.exit) t Q) :
    Secures (do
      let n ← Gen.countUp
      let entry ← Gen.addBlock ("for_loop_entry_" ++ toString n)
      let exit ← Gen.addBlock ("for_loop_otherwise_" ++ toString n)
      k entry exit) s Q := by
  have hnew : ∀ n r, s.assembly.routine? n = some r → ∀ x, ForLoop.HasName (s.counter + 1) x →
      x ∉ r.names.used := by
    intro n r hr x hx hused
    have := hs.numbered n r hr x hused _ hx
    omega
  refine (countUp_secures hs).bind ?_
  rintro _ s₁ hs₁ ⟨rfl, hcounter, hquiet, hsame⟩
  refine (addBlock_secures hs₁ fun k hk => ?_).bind fun entry s₂ hs₂ hentry => ?_
  · rw [hcounter]
    exact Nat.le_of_eq (hk.unique (.inl rfl))
  refine (addBlock_secures hs₂ fun k hk => ?_).bind fun exit s₃ hs₃ hexit => ?_
  · rw [hentry.counter, hcounter]
    exact Nat.le_of_eq (hk.unique (.inr rfl))
  obtain ⟨r, r₂, hr, hr₂, hentryName, hblocks, hused⟩ := hentry.block
  obtain ⟨r₂', r₃, hr₂', hr₃, hexitName, hblocks', -⟩ := hexit.block
  have hroutine : exit.routine = entry.routine :=
    Option.some.inj (hexit.has.2.symm.trans (hentry.has.frames hexit.frames).2)
  rw [hroutine, hr₂] at hr₂'
  obtain rfl := Option.some.inj hr₂'
  have hentryName := hentryName (hnew _ r (hsame ▸ hr) _ (.inl rfl))
  have hexitName := hexitName (by
    rw [hused, List.mem_cons, not_or, hentryName]
    exact ⟨(ForLoop.entryName_ne_exitName _ _).symm, hnew _ r (hsame ▸ hr) _ (.inr rfl)⟩)
  obtain ⟨ρ, entryBlock⟩ := entry
  obtain ⟨ρ', exitBlock⟩ := exit
  subst hentryName hexitName hroutine
  have hframes := (hquiet.frames.trans hentry.frames).trans hexit.frames
  refine hk ⟨ρ', s.counter + 1⟩ s₃ hs₃ hframes (hentry.has.frames hexit.frames) hexit.has rfl
    ⟨?_, r₃, hr₃, ?_⟩
  · exact Nat.le_of_eq (by rw [hexit.counter, hentry.counter, hcounter])
  · refine ⟨r.blocks.map Block.name, [], ?_⟩
    rw [hblocks', hblocks, List.append_nil, List.append_assoc]
    rfl

end Loops

section Definitions

variable {s : Session}

theorem define_secures (hs : s.Valid) {name : Literal} {b : Binding} (hb : b.IsTyped s.assembly) :
    Secures (Gen.define name b) s fun _ t => s.Frames t ∧ t.assembly = s.assembly :=
  ⟨⟨hs.sound, hs.placed, hs.typed.define hb, hs.numbered, hs.paired⟩, ⟨rfl, rfl, rfl, .refl _⟩, rfl⟩

theorem enterScope_secures (hs : s.Valid) :
    Secures Gen.enterScope s fun _ t => s.Frames t ∧ t.assembly = s.assembly :=
  ⟨⟨hs.sound, hs.placed, hs.typed.enter, hs.numbered, hs.paired⟩, ⟨rfl, rfl, rfl, .refl _⟩, rfl⟩

theorem leaveScopes_secures (hs : s.Valid) (depth : Nat) :
    Secures (Gen.leaveScopes depth) s fun _ t => s.Frames t ∧ t.assembly = s.assembly :=
  ⟨⟨hs.sound, hs.placed, hs.typed.leaveTo depth, hs.numbered, hs.paired⟩, ⟨rfl, rfl, rfl, .refl _⟩,
    rfl⟩

theorem alloca_secures (hs : s.Valid) (ty : Option Ty) : Secures (Gen.alloca ty) s fun x t =>
    s.Quiet t ∧ ∃ u, ty = some u ∧ (⟨x, u⟩ : Binding).IsSlot t.assembly := by
  rw [Gen.alloca.eq_def]
  split
  · exact hs
  · exact hs
  rename_i u _
  have hquiet := quiet_emit (.alloca u) s
  rw [Secures]
  cases hp : s.place with
  | none =>
    rw [Gen.run_emit_nowhere hp]
    exact hs
  | some p =>
    obtain ⟨is, his⟩ := Option.isSome_iff_exists.mp (hs.placed p hp)
    obtain ⟨r, hr, -⟩ := Option.bind_eq_some_iff.mp his
    rw [Gen.run_emit hp hr (by simp [Op.isTerminator])] at hquiet ⊢
    refine ⟨hquiet.valid hs, hquiet, u, rfl, p, is ++ [⟨r.takeName.1, .alloca u⟩], r.takeName.1, ?_,
      by simp, rfl⟩
    dsimp only
    rw [Assembly.code?_withInstr hr, if_pos rfl, his]
    rfl

theorem letVar_secures (e : Edition) (he : e.has .functions = true) (hs : s.Valid) (name : String)
    (x : Typed) : Secures (Gen.letVar e name x) s fun _ t => s.Frames t := by
  refine (Secures.quiet (quiet.lookup _) hs).bind fun b t ht hst => ?_
  cases b with
  | some b =>
    exact (Secures.quiet (quiet.store _ _) ht).mono fun _ u _ htu => (hst.trans htu).frames
  | none =>
    refine (alloca_secures ht x.ty).bind ?_
    rintro slot t₁ ht₁ ⟨hq₁, u, hu, hslot⟩
    refine (Secures.quiet (quiet.store _ _) ht₁).bind fun _ t₂ ht₂ hq₂ => ?_
    have htyped : (⟨slot, u⟩ : Binding).IsTyped t₂.assembly := .inl (hslot.grows hq₂.grows)
    rw [hu, Option.getD_some]
    simp only [he, if_true]
    refine (define_secures ht₂ htyped).mono fun _ t₃ _ hdefined => ?_
    exact (hst.trans (hq₁.trans hq₂)).frames.trans hdefined.1

theorem slots_secures (hs : s.Valid) (ps : List (String × Ty)) :
    Secures (Gen.slots ps) s fun ptrs t =>
    s.Quiet t ∧ ∀ x ∈ ptrs.zip (ps.map Prod.snd), (⟨x.1, x.2⟩ : Binding).IsTyped t.assembly := by
  induction ps generalizing s with
  | nil => exact ⟨hs, .refl s, by simp⟩
  | cons p ps ih =>
    obtain ⟨name, ty⟩ := p
    refine (alloca_secures hs (some ty)).bind ?_
    rintro slot t₁ ht₁ ⟨hq₁, u, hu, hslot⟩
    obtain rfl := Option.some.inj hu
    refine (Secures.quiet (quiet.store _ _) ht₁).bind fun _ t₂ ht₂ hq₂ => ?_
    refine (ih ht₂).bind ?_
    rintro ptrs t₃ ht₃ ⟨hq₃, hptrs⟩
    refine .pure ht₃ ⟨hq₁.trans (hq₂.trans hq₃), ?_⟩
    rw [List.map_cons, List.zip_cons_cons]
    exact List.forall_mem_cons.mpr ⟨.inl (hslot.grows (hq₂.grows.trans hq₃.grows)), hptrs⟩

theorem defineParams_secures (hs : s.Valid) (ps : List (Literal × Operand × Ty))
    (hps : ∀ p ∈ ps, (⟨p.2.1, p.2.2⟩ : Binding).IsTyped s.assembly) :
    Secures (Gen.defineParams ps) s fun _ t => s.Frames t ∧ t.assembly = s.assembly := by
  induction ps generalizing s with
  | nil => exact ⟨hs, .refl s, rfl⟩
  | cons p ps ih =>
    obtain ⟨hp, hps⟩ := List.forall_mem_cons.mp hps
    refine (define_secures hs hp).bind ?_
    rintro _ t ht ⟨hst, ha⟩
    refine (ih ht (ha ▸ hps)).mono ?_
    rintro _ u - ⟨htu, hu⟩
    exact ⟨hst.trans htu, hu.trans ha⟩

end Definitions

section Routines

variable {s : Session}

theorem addRoutine_secures (hs : s.Valid) {r : Routine} (hblocks : r.blocks = [])
    (hnames : ∀ x ∈ r.names.used, x = "" ∨ '.' ∈ x.toList) :
    Secures (Gen.addItem (.routine r)) s fun _ t => t.loops = s.loops ∧
      s.assembly.Grows t.assembly ∧ t.assembly.routine? r.name = some r := by
  cases hi : s.assembly.item? (Item.routine r).name with
  | some j =>
    rw [Secures, Gen.run_addItem_taken hi]
    exact hs
  | none =>
    have hblocks' : ∀ r', Item.routine r = .routine r' → r'.blocks = [] :=
      fun r' hr' => Item.routine.inj hr' ▸ hblocks
    have hg := Assembly.Grows.steps.add hi hblocks'
    have hc := Assembly.KeepsConstants.steps.add hi hblocks'
    rw [Secures, Gen.run_addItem hi]
    refine ⟨⟨hs.sound.add hi hblocks', fun p hp => hg.code_isSome (hs.placed p hp),
      hs.typed.mono fun b hb => hb.grows hg hc, hs.numbered.addRoutine hi hnames,
      hs.paired.grows rfl (Nat.le_refl _) hg⟩, rfl, hg, ?_⟩
    exact Assembly.routine?_add_self hi

theorem startBuilder_secures (hs : s.Valid) {q : Place} (hq : (s.assembly.code? q).isSome = true) :
    Secures (Gen.startBuilder q) s fun _ t => t.loops = s.loops ∧ t.assembly = s.assembly := by
  refine ⟨⟨hs.sound, ?_, hs.typed, hs.numbered, hs.paired⟩, rfl, rfl⟩
  intro p hp
  exact Option.some.inj hp ▸ hq

theorem resumeBuilder_secures (hs : s.Valid) {builder : Nat} {place : Option Place}
    (hplace : ∀ p, place = some p → (s.assembly.code? p).isSome = true) :
    Secures (Gen.resumeBuilder builder place) s fun _ t => t.loops = s.loops ∧
      t.builder = builder ∧ t.place = place ∧ t.assembly = s.assembly :=
  ⟨⟨hs.sound, hplace, hs.typed, hs.numbered, hs.paired⟩, rfl, rfl, rfl, rfl⟩

theorem openRoutine_secures (e : Edition) (hs : s.Valid) (name : String) (params : List Param)
    (type : Literal) : Secures (Gen.openRoutine e name params type) s fun b t =>
      t.loops = s.loops ∧ s.assembly.Grows t.assembly ∧ b.IsRoutine t.assembly := by
  refine (Secures.quiet (quiet.typesNamed e _) hs).bind fun types s₁ hs₁ h₁ => ?_
  refine (Secures.quiet (quiet.typeNamed e _) hs₁).bind fun result s₂ hs₂ h₂ => ?_
  refine (addRoutine_secures hs₂ rfl (Routine.declare_dotted _ _ _ _)).bind ?_
  rintro - s₃ hs₃ ⟨hl₃, hg₃, hr₃⟩
  refine (addBlockTo_secures hs₃ fun k hk => absurd hk (not_hasName_entry _)).bind ?_
  rintro entry s₄ hs₄ ⟨r, hr, -, rfl, hentry⟩
  obtain rfl := Assembly.routine?_name hr
  refine (startBuilder_secures hs₄ hentry).bind ?_
  rintro - s₅ hs₅ ⟨hl₅, ha₅⟩
  refine (slots_secures hs₅ _).bind ?_
  rintro ptrs s₆ hs₆ ⟨hq₆, hptrs⟩
  refine (enterScope_secures hs₆).bind ?_
  rintro - s₇ hs₇ ⟨h₇, ha₇⟩
  refine (defineParams_secures hs₇ _ fun p hp => ?_).bind ?_
  · have hmem := (List.of_mem_zip hp).2
    have htypes : (Routine.declare r.name result types false).params.map Prod.snd = types :=
      Routine.takeNames_types _ _
    rw [ha₇]
    exact hptrs p.2 (by rwa [htypes])
  rintro - s₈ hs₈ ⟨h₈, -⟩
  have hg₄ : s₃.assembly.Grows (s₃.assembly.withBlock r (r.name ++ "_entry")) :=
    Assembly.Grows.steps.withBlock hr
  have hg : s₃.assembly.Grows s₈.assembly := by
    have hg₅ : s₃.assembly.Grows s₅.assembly := ha₅ ▸ hg₄
    exact ((hg₅.trans hq₆.grows).trans h₇.grows).trans h₈.grows
  have hl : s₈.loops = s.loops := by
    rw [h₈.loops, h₇.loops, hq₆.loops, hl₅, hl₃, h₂.loops, h₁.loops]
  have hb : (⟨(Routine.declare r.name result types false).operand, result⟩ : Binding).IsRoutine
      s₈.assembly :=
    Binding.IsRoutine.grows ⟨_, hr₃, rfl, rfl⟩ hg
  refine (define_secures hs₈ (.inr (.inl hb))).bind ?_
  rintro - s₉ hs₉ ⟨h₉, ha₉⟩
  refine .pure hs₉ ⟨h₉.loops.trans hl, ?_, ha₉ ▸ hb⟩
  exact (((h₁.grows.trans h₂.grows).trans hg₃).trans hg).trans h₉.grows

end Routines

section Openings

variable {e : Edition} {s : Session}

theorem branchPlace_secures (hs : s.Valid) : Secures Gen.branchPlace s fun _ t => t = s := by
  refine .get ?_
  cases s.place with
  | none => exact hs
  | some p => exact ⟨hs, rfl⟩

theorem openWhile_secures (hs : s.Valid) (c : Expr) :
    Secures (Gen.openWhile e c) s fun l t => s.Frames t ∧ t.Has l.exit := by
  refine (Secures.quiet (quiet.value e c) hs).bind fun test s₁ hs₁ h₁ => ?_
  refine (Secures.quiet quiet.countUp hs₁).bind fun n s₂ hs₂ h₂ => ?_
  refine (addBlock_secures hs₂ fun k hk => absurd hk (not_hasName_while _ rfl n)).bind
    fun entry s₃ hs₃ h₃ => ?_
  refine (addBlock_secures hs₃ fun k hk => absurd hk (not_hasName_while _ rfl n)).bind
    fun exit s₄ hs₄ h₄ => ?_
  refine (Secures.quiet (quiet.branchOn _ _ _) hs₄).bind fun _ s₅ hs₅ h₅ => ?_
  refine (moveToStart_secures hs₅ ((h₃.has.frames h₄.frames).frames h₅.frames)).bind
    fun _ s₆ hs₆ h₆ => ?_
  have hlate := h₅.frames.trans h₆
  exact .pure hs₆ ⟨((h₁.trans h₂).frames.trans (h₃.frames.trans h₄.frames)).trans hlate,
    h₄.has.frames hlate⟩

theorem closeWhile_secures (hs : s.Valid) (c : Expr) {l : LoopBlocks} (hexit : s.Has l.exit) :
    Secures (Gen.closeWhile e c l) s fun _ t => s.Frames t := by
  refine (Secures.quiet (quiet.value e c) hs).bind fun test s₁ hs₁ h₁ => ?_
  refine (Secures.quiet (quiet.branchOn _ _ _) hs₁).bind fun _ s₂ hs₂ h₂ => ?_
  have h := h₁.frames.trans h₂.frames
  exact (moveToStart_secures hs₂ (hexit.frames h)).mono fun _ s₃ _ h₃ => h.trans h₃

theorem openThen_secures (hs : s.Valid) (c : Expr) :
    Secures (Gen.openThen e c) s fun after t => s.Frames t ∧ t.Has after := by
  refine (Secures.quiet (quiet.value e c) hs).bind fun test s₁ hs₁ h₁ => ?_
  refine (branchPlace_secures hs₁).bind ?_
  rintro p _ - rfl
  refine (addBlock_secures hs₁ fun k hk => absurd hk (not_hasName_suffixed _ _ (by decide))).bind
    fun onTrue s₂ hs₂ h₂ => ?_
  refine (addBlock_secures hs₂ fun k hk => absurd hk (not_hasName_suffixed _ _ (by decide))).bind
    fun after s₃ hs₃ h₃ => ?_
  refine (Secures.quiet (quiet.branchOn _ _ _) hs₃).bind fun _ s₄ hs₄ h₄ => ?_
  refine (moveTo_secures hs₄ ((h₂.has.frames h₃.frames).frames h₄.frames)).bind fun _ s₅ hs₅ h₅ =>
    ?_
  have hlate := h₄.frames.trans h₅
  exact .pure hs₅ ⟨(h₁.frames.trans h₂.frames).trans (h₃.frames.trans hlate), h₃.has.frames hlate⟩

theorem openElse_secures (hs : s.Valid) (c : Expr) :
    Secures (Gen.openElse e c) s fun l t => s.Frames t ∧ t.Has l.1 ∧ t.Has l.2 := by
  refine (Secures.quiet (quiet.value e c) hs).bind fun test s₁ hs₁ h₁ => ?_
  refine (branchPlace_secures hs₁).bind ?_
  rintro p _ - rfl
  refine (addBlock_secures hs₁ fun k hk => absurd hk (not_hasName_suffixed _ _ (by decide))).bind
    fun onTrue s₂ hs₂ h₂ => ?_
  refine (addBlock_secures hs₂ fun k hk => absurd hk (not_hasName_suffixed _ _ (by decide))).bind
    fun onFalse s₃ hs₃ h₃ => ?_
  refine (addBlock_secures hs₃ fun k hk => absurd hk (not_hasName_suffixed _ _ (by decide))).bind
    fun after s₄ hs₄ h₄ => ?_
  refine (Secures.quiet (quiet.branchOn _ _ _) hs₄).bind fun _ s₅ hs₅ h₅ => ?_
  have h₄₅ := h₄.frames.trans h₅.frames
  refine (moveTo_secures hs₅ ((h₂.has.frames h₃.frames).frames h₄₅)).bind fun _ s₆ hs₆ h₆ => ?_
  refine .pure hs₆ ⟨((h₁.frames.trans h₂.frames).trans h₃.frames).trans (h₄₅.trans h₆), ?_, ?_⟩
  · exact h₃.has.frames (h₄₅.trans h₆)
  · exact h₄.has.frames (h₅.frames.trans h₆)

theorem closeArm_secures (hs : s.Valid) (after : Place) {next : Place} (hnext : s.Has next) :
    Secures (Gen.closeArm after next) s fun _ t => s.Frames t := by
  refine (Secures.quiet (quiet.closeWith after) hs).bind fun _ s₁ hs₁ h₁ => ?_
  exact (moveTo_secures hs₁ (hnext.frames h₁.frames)).mono fun _ s₂ _ h₂ => h₁.frames.trans h₂

theorem enterLoop_secures {s t : Session} (hs : s.Valid) (ht : t.Valid) (hst : s.Frames t)
    {l : ForLoop} (hnumber : l.number = s.counter + 1) (hl : t.HasLoop l) :
    Secures (modify fun s => { s with loops := s.loops.enter l.entry l.exit }) t fun _ u =>
      u.loops = s.loops.enter l.entry l.exit ∧ u.builder = t.builder ∧ u.place = t.place ∧
        u.assembly = t.assembly := by
  refine ⟨⟨ht.sound, ht.placed, ht.typed, ht.numbered, ?_⟩, by rw [← hst.loops], rfl, rfl, rfl⟩
  obtain ⟨loops, hcontinues, hbreakpoints, hsorted, hloops⟩ := hs.paired
  have hcounter : s.counter ≤ t.counter := by
    have := hl.1
    omega
  refine ⟨l :: loops, ?_, ?_, List.pairwise_cons.mpr ⟨fun l' hl' => ?_, hsorted⟩, fun l' hl' => ?_⟩
  · simp only [Loops.enter, hst.loops, hcontinues, List.map_cons]
  · simp only [Loops.enter, hst.loops, hbreakpoints, List.map_cons]
  · have := (hloops l' hl').1
    omega
  · rcases List.mem_cons.mp hl' with rfl | hl'
    · exact hl
    · exact (hloops l' hl').grows hcounter hst.grows

theorem leaveLoop_secures {s : Session} (hs : s.Valid) :
    Secures (modify fun s => { s with loops := s.loops.leave }) s fun _ t =>
      t = { s with loops := s.loops.leave } := by
  obtain ⟨loops, hcontinues, hbreakpoints, hsorted, hloops⟩ := hs.paired
  refine ⟨⟨hs.sound, hs.placed, hs.typed, hs.numbered, loops.tail, ?_, ?_, hsorted.tail, ?_⟩, rfl⟩
  · simp only [Loops.leave, hcontinues, List.map_tail]
  · simp only [Loops.leave, hbreakpoints, List.map_tail]
  · exact fun l hl => hloops l (List.mem_of_mem_tail hl)

/-- A `for` loop puts its two blocks, which are in the routine that it stands in, on the stacks. -/
structure Session.EntersFor (s : Session) (l : LoopBlocks) (t : Session) : Prop where
  loops : t.loops = s.loops.enter l.entry l.exit
  builder : t.builder = s.builder
  routine : t.place.map Place.routine = s.place.map Place.routine
  grows : s.assembly.Grows t.assembly
  entry : t.Has l.entry
  exit : t.Has l.exit

theorem startFor_secures (hs : s.Valid) : Secures Gen.startFor s s.EntersFor := by
  refine loopBlocks_secures hs fun l s₁ hs₁ h₁ hentry hexit hnumber hl => ?_
  refine (enterLoop_secures hs hs₁ h₁ hnumber hl).bind ?_
  rintro - s₂ hs₂ ⟨hloops, hbuilder, hplace, hsame⟩
  have hentry₂ : s₂.Has l.entry := ⟨hsame ▸ hentry.1, hplace ▸ hentry.2⟩
  have hexit₂ : s₂.Has l.exit := ⟨hsame ▸ hexit.1, hplace ▸ hexit.2⟩
  refine (Secures.quiet (quiet.branch _) hs₂).bind fun _ s₃ hs₃ h₃ => ?_
  refine (moveToStart_secures hs₃ (hentry₂.frames h₃.frames)).bind fun _ s₄ hs₄ h₄ => ?_
  have hlate := h₃.frames.trans h₄
  refine .pure hs₄ ⟨hlate.loops.trans hloops, hlate.builder.trans (hbuilder.trans h₁.builder), ?_,
    ?_, hentry₂.frames hlate, hexit₂.frames hlate⟩
  · exact hlate.routine.trans ((congrArg _ hplace).trans h₁.routine)
  · exact h₁.grows.trans (hsame ▸ hlate.grows)

theorem openFor_secures {importer : String → Gen Unit} {init : Stmt}
    (hinit : Disciplined (Gen.statement e importer init)) (hs : s.Valid) :
    Secures (Gen.openFor e importer init) s s.EntersFor := by
  refine (enterScope_secures hs).bind ?_
  rintro - s₁ hs₁ ⟨h₁, -⟩
  refine (hinit s₁ hs₁).bind fun _ s₂ hs₂ h₂ => ?_
  refine (startFor_secures hs₂).mono fun l s₃ _ h₃ => ?_
  have h := h₁.trans h₂
  exact ⟨h₃.loops.trans (by rw [h.loops]), h₃.builder.trans h.builder, h₃.routine.trans h.routine,
    h.grows.trans h₃.grows, h₃.entry, h₃.exit⟩

end Openings

section Statements

variable {e : Edition} {importer : String → Gen Unit} {c : Expr} {body alternative : List Stmt}

theorem ifThen_disciplined (hbody : Disciplined (Gen.statements e importer body)) :
    Disciplined (Gen.effect e importer (.ifThen c body)) := by
  intro s hs
  rw [Gen.effect_ifThen]
  refine (openThen_secures hs c).bind ?_
  rintro after s₁ hs₁ ⟨h₁, hafter⟩
  refine (hbody s₁ hs₁).bind fun _ s₂ hs₂ h₂ => ?_
  refine (closeArm_secures hs₂ after (hafter.frames h₂)).mono fun _ s₃ _ h₃ => ?_
  exact (h₁.trans h₂).trans h₃

theorem ifElse_disciplined (hbody : Disciplined (Gen.statements e importer body))
    (halternative : Disciplined (Gen.statements e importer alternative)) :
    Disciplined (Gen.effect e importer (.ifElse c body alternative)) := by
  intro s hs
  rw [Gen.effect_ifElse]
  refine (openElse_secures hs c).bind ?_
  rintro l s₁ hs₁ ⟨h₁, hfalse, hafter⟩
  refine (hbody s₁ hs₁).bind fun _ s₂ hs₂ h₂ => ?_
  refine (closeArm_secures hs₂ l.2 (hfalse.frames h₂)).bind fun _ s₃ hs₃ h₃ => ?_
  refine (halternative s₃ hs₃).bind fun _ s₄ hs₄ h₄ => ?_
  have h₂₄ := (h₂.trans h₃).trans h₄
  exact (closeArm_secures hs₄ l.2 (hafter.frames h₂₄)).mono fun _ s₅ _ h₅ => (h₁.trans h₂₄).trans h₅

theorem whileLoop_disciplined (hbody : Disciplined (Gen.statements e importer body)) :
    Disciplined (Gen.statement e importer (.whileLoop c body)) := by
  intro s hs
  rw [Gen.statement_whileLoop]
  refine (openWhile_secures hs c).bind ?_
  rintro l s₁ hs₁ ⟨h₁, hexit⟩
  refine (hbody s₁ hs₁).bind fun _ s₂ hs₂ h₂ => ?_
  exact (closeWhile_secures hs₂ c (hexit.frames h₂)).mono fun _ s₃ _ h₃ => (h₁.trans h₂).trans h₃

theorem forLoop_disciplined {init next : Stmt} (hinit : Disciplined (Gen.statement e importer init))
    (hbody : Disciplined (Gen.statements e importer body))
    (hnext : Disciplined (Gen.statement e importer next)) :
    Disciplined (Gen.statement e importer (.forLoop init c next body)) := by
  intro s hs
  rw [Gen.statement_forLoop]
  refine (openFor_secures hinit hs).bind fun l s₁ hs₁ h₁ => ?_
  refine (hbody s₁ hs₁).bind fun _ s₂ hs₂ h₂ => ?_
  refine (hnext s₂ hs₂).bind fun _ s₃ hs₃ h₃ => ?_
  refine (closeWhile_secures hs₃ c (h₁.exit.frames (h₂.trans h₃))).bind fun _ s₄ hs₄ h₄ => ?_
  refine (leaveLoop_secures hs₄).mono ?_
  rintro - _ - rfl
  have hframes := (h₂.trans h₃).trans h₄
  refine ⟨?_, hframes.builder.trans h₁.builder, hframes.routine.trans h₁.routine,
    h₁.grows.trans hframes.grows⟩
  dsimp only
  rw [hframes.loops, h₁.loops]
  rfl

theorem fn_disciplined {name : String} {params : List Param} {type : Literal}
    (hbody : Disciplined (Gen.statements e importer body)) :
    Disciplined (Gen.statement e importer (.fn name (some params) type body)) := by
  intro s hs
  rw [Gen.statement]
  refine .get (.get (.get ?_))
  refine (openRoutine_secures e hs name params type).bind ?_
  rintro b s₁ hs₁ ⟨hl₁, hg₁, hb⟩
  refine (hbody s₁ hs₁).bind fun _ s₂ hs₂ h₂ => ?_
  refine (leaveScopes_secures hs₂ _).bind ?_
  rintro - s₃ hs₃ ⟨h₃, -⟩
  refine (define_secures hs₃ (.inr (.inl (hb.grows (h₂.trans h₃).grows)))).bind ?_
  rintro - s₄ hs₄ ⟨h₄, -⟩
  have hframes := (h₂.trans h₃).trans h₄
  have hg := hg₁.trans hframes.grows
  refine (resumeBuilder_secures hs₄ fun p hp => hg.code_isSome (hs.placed p hp)).mono ?_
  rintro - s₅ - ⟨hl₅, hbuilder, hplace, hsame⟩
  exact ⟨hl₅.trans (hframes.loops.trans hl₁), hbuilder, congrArg _ hplace, hsame ▸ hg⟩

mutual

theorem effect_disciplined (he : e.has .functions = true)
    (himport : ∀ path, Disciplined (importer path)) :
    ∀ x : Expr, Disciplined (Gen.effect e importer x)
  | .missing => by
    rw [Gen.effect]
    exact .quiet (quiet.throw (by simp))
  | .int _ | .float _ | .ident _ | .bool _ | .str _ | .prefixed .. => by
    rw [Gen.effect]
    exact .quiet (quiet.pure _)
  | .infixed .. | .call .. | .openCall _ => by
    rw [Gen.effect]
    exact .quiet (quiet.bind (quiet.value _ _) fun _ => quiet.pure _)
  | .stepped .. => by
    rw [Gen.effect]
    exact .quiet (quiet.step _ _)
  | .ifThen c body => ifThen_disciplined (statements_disciplined he himport body)
  | .ifElse c body alternative =>
    ifElse_disciplined (statements_disciplined he himport body)
      (statements_disciplined he himport alternative)

theorem statement_disciplined (he : e.has .functions = true)
    (himport : ∀ path, Disciplined (importer path)) : ∀ st :
    Stmt, Disciplined (Gen.statement e importer st)
  | .missing => by
    rw [Gen.statement]
    exact .quiet (quiet.throw (by simp))
  | .expr x | .bare x => by
    rw [Gen.statement]
    exact effect_disciplined he himport x
  | .letVar .. => by
    rw [Gen.statement]
    exact .bind (.quiet (quiet.value _ _)) fun x s hs => letVar_secures e he hs _ x
  | .ret x => by
    rw [Gen.statement]
    exact .quiet (quiet.bind (quiet.value _ _) fun _ => quiet.ret _)
  | .fn name none type body => by
    rw [Gen.statement]
    exact .quiet (quiet.throw (by simp))
  | .fn name (some params) type body => fn_disciplined (statements_disciplined he himport body)
  | .assign target op x => .quiet (quiet.assignment e importer target op x)
  | .whileLoop c body => whileLoop_disciplined (statements_disciplined he himport body)
  | .breakLoop => by
    rw [Gen.statement]
    refine .quiet (quiet.get fun s => ?_)
    cases s.loops.breakpoints with
    | nil => exact quiet.throw (by simp)
    | cons q qs => exact quiet.branch q
  | .continueLoop => by
    rw [Gen.statement]
    refine .quiet (quiet.get fun s => ?_)
    cases s.loops.continues with
    | nil => exact quiet.throw (by simp)
    | cons q qs => exact quiet.branch q
  | .forLoop init c next body =>
    forLoop_disciplined (statement_disciplined he himport init)
      (statements_disciplined he himport body) (statement_disciplined he himport next)
  | .importPallet path => by
    rw [Gen.statement]
    exact himport path

theorem statements_disciplined (he : e.has .functions = true)
    (himport : ∀ path, Disciplined (importer path)) :
    ∀ ss : List Stmt, Disciplined (Gen.statements e importer ss)
  | [] => by
    rw [Gen.statements]
    exact .quiet (quiet.pure _)
  | st :: ss => by
    rw [Gen.statements]
    exact .bind (statement_disciplined he himport st) fun _ => statements_disciplined he himport ss

end

end Statements

section Nodes

variable {e : Edition} (he : e.has .functions = true)

include he

theorem importer_disciplined (files : Files) (depth : Nat) (path : String) :
    Disciplined (Gen.importer e files depth path) := by
  induction depth generalizing path with
  | zero => exact .quiet (.throw .refl _)
  | succ depth ih =>
    rw [Gen.importer]
    refine .get fun s => Closed.choice (.quiet (quiet_print _)) ?_
    split
    · exact .quiet (quiet.throw (by simp))
    refine .bind (.quiet (quiet_openFile path)) fun _ =>
      .bind (.quiet (quiet.forM (fun _ => quiet_print _) _)) fun _ => ?_
    split
    · exact .quiet (quiet.throw (by simp))
    refine Closed.choice ?_ ?_
    · rw [Gen.program, if_pos he]
      refine .bind (statements_disciplined he ih _) fun _ t ht => ?_
      exact ⟨⟨ht.sound, ht.placed, ht.typed, ht.numbered, ht.paired⟩, rfl, rfl, rfl, .refl _⟩
    · exact .quiet (quiet.bind (quiet_print _) fun _ =>
        quiet.bind (quiet.forM (fun _ => quiet_print _) _) fun _ => quiet.throw (by simp))

theorem node_disciplined (files : Files) (depth : Nat) (node : Node) :
    Disciplined (Gen.node e (Gen.importer e files depth) node) := by
  have himport := importer_disciplined he files depth
  cases node with
  | program p =>
    rw [Gen.node, Gen.program, if_pos he]
    exact statements_disciplined he himport p
  | block body => exact statements_disciplined he himport body
  | stmt st => exact statement_disciplined he himport st
  | expr x => exact effect_disciplined he himport x

omit he

theorem Session.item?_start (e : Edition) :
    ∀ b ∈ Session.builtins e, (Session.start e).assembly.item? b.1.name = some b.1 := by
  simp only [Session.start, Session.builtins]
  split_ifs <;> decide

theorem Session.valid_start (e : Edition) : (Session.start e).Valid where
  sound := (Session.wellFormed_start e).sound
  placed := by simp [Session.start]
  typed := by
    intro table htable entry hentry
    obtain rfl := List.mem_singleton.mp htable
    obtain ⟨b, hb, rfl⟩ := List.mem_map.mp hentry
    have hitem := Session.item?_start e b hb
    rcases List.mem_append.mp hb with hb | hb
    · split_ifs at hb
      · obtain rfl := List.mem_singleton.mp hb
        exact .inr (.inl ⟨Session.printfRoutine, Assembly.routine?_eq_some.mpr hitem, rfl, rfl⟩)
      · simp at hb
    · split_ifs at hb
      · refine .inr (.inr ⟨b.1, ?_, hitem, rfl, ?_⟩)
        · rcases List.mem_pair.mp hb with rfl | rfl
          · simp
          · simp
        · rcases List.mem_pair.mp hb with rfl | rfl
          · rfl
          · rfl
      · simp at hb
  numbered := by
    intro n r hr x hx k hk
    rw [Session.routine_mem_start (Assembly.mem_of_routine? hr)] at hx
    exact absurd hk (not_hasName_of_dotted (Routine.declare_dotted _ _ _ _ x hx) k)
  paired := ⟨[], rfl, rfl, .nil, by simp⟩

include he

theorem Reachable.valid {s : Session} (h : Reachable e s) : s.Valid := by
  induction h with
  | start => exact Session.valid_start e
  | compile files depth node _ ih =>
    have hnode := node_disciplined he files depth node _ ih
    rw [Secures] at hnode
    split at hnode
    · rename_i hrun
      rw [hrun]
      exact hnode.1
    · rename_i hrun
      rw [hrun]
      exact hnode

omit he

theorem run_value_ident {s : Session} {name : String} {b : Binding} {p : Place} {r : Routine}
    (hb : s.scopes.find? (.text name) = some b) (hpointer : b.value.ty.isPointer = true)
    (hp : s.place = some p) (hr : s.assembly.routine? p.routine = some r) :
    (Gen.value e (.ident name)).run s = (.ok (.of (.result r.takeName.1 (Op.load b.value).ty) b.ty),
      { s with assembly := s.assembly.withInstr p r (.load b.value) }) := by
  have hbinding : (Gen.binding (.text name)).run s = (.ok b, s) := by
    rw [Gen.binding, Gen.run_bind, Gen.lookup, Gen.run_bind, Gen.run_get]
    dsimp only
    rw [Gen.run_pure, hb]
    rfl
  rw [Gen.value, Gen.run_bind, hbinding]
  dsimp only
  rw [Gen.run_bind, Gen.load, if_pos hpointer, Gen.run_emit hp hr (by simp [Op.isTerminator])]
  rfl

include he

/-- In every session that can be reached, failures included, each name in each scope stands for a
slot of the recorded type, a routine that gives it, or a truth value with its own type. So a
variable that is loaded gives a value of just the type that is recorded with it. -/
theorem symbols_typed {s : Session} (hs : Reachable e s) :
    (∀ table ∈ s.scopes, ∀ entry ∈ table, entry.2.IsTyped s.assembly) ∧
    ∀ (name : String) (b : Binding) (p : Place), s.scopes.find? (.text name) = some b →
      b.IsSlot s.assembly → s.place = some p →
      ∃ x t, (Gen.value e (.ident name)).run s = (.ok (.of x b.ty), t) ∧ x.ty = b.ty := by
  have hvalid := hs.valid he
  refine ⟨hvalid.typed, fun name b p hb hslot hp => ?_⟩
  obtain ⟨is, his⟩ := Option.isSome_iff_exists.mp (hvalid.placed p hp)
  obtain ⟨r, hr, -⟩ := Option.bind_eq_some_iff.mp his
  obtain ⟨-, -, n, -, -, hvalue⟩ := hslot
  refine ⟨_, _, run_value_ident hb (by rw [hvalue]; rfl) hp hr, ?_⟩
  rw [hvalue]
  rfl

omit he

/-- The failing `let` has made its slot when the types turn out to differ, but it defines nothing;
the parameter before it stays what it was. -/
theorem symbols_typed_after_failure :
    let start : Session := .start .latest
    let broken : Node := .stmt (.fn "main" (some [⟨.text "x", .text "float"⟩]) (.text "int")
      [.letVar "y" (.prefixed .not (.ident "x")) "float"])
    let s := ((Gen.node .latest (Gen.importer .latest ⟨[], []⟩ 1) broken).run start).2
    (∀ table ∈ s.scopes, ∀ entry ∈ table, entry.2.IsTyped s.assembly) ∧
    s.scopes.find? (.text "y") = none ∧
    ∃ x t, (Gen.value .latest (.ident "x")).run s = (.ok (.of x .float), t) ∧ x.ty = .float := by
  intro start broken s
  have hs : Reachable .latest s := .compile _ _ _ .start
  obtain ⟨htyped, hload⟩ := symbols_typed (by decide) hs
  have hslot : (⟨.result ".3" (.pointer .float), .float⟩ : Binding).IsSlot s.assembly :=
    ⟨⟨"main", "main_entry"⟩, _, ".3", rfl, by decide +kernel, rfl⟩
  exact ⟨htyped, by decide +kernel,
    hload "x" _ ⟨"main", "main_entry"⟩ (by decide +kernel) hslot (by decide +kernel)⟩

include he

/-- In every session that can be reached, failures included, the two stacks of loop blocks have the
same length and hold, entry by entry, the blocks of one loop. A node that compiles leaves both
stacks as they were, and writing goes on with the same builder in the same routine. -/
theorem stack_discipline {s : Session} (hs : Reachable e s) :
    s.loops.breakpoints.length = s.loops.continues.length ∧ s.Paired ∧
    ∀ (files : Files) (depth : Nat) (node : Node),
      ((Gen.node e (Gen.importer e files depth) node).run s).1 = .ok () →
      let t := ((Gen.node e (Gen.importer e files depth) node).run s).2
      t.loops = s.loops ∧ t.builder = s.builder ∧
        t.place.map Place.routine = s.place.map Place.routine := by
  have hvalid := hs.valid he
  refine ⟨?_, hvalid.paired, fun files depth node hok => ?_⟩
  · obtain ⟨loops, hcontinues, hbreakpoints, -⟩ := hvalid.paired
    rw [hcontinues, hbreakpoints, List.length_map, List.length_map]
  · have hnode := node_disciplined he files depth node s hvalid
    rw [Secures] at hnode
    generalize (Gen.node e (Gen.importer e files depth) node).run s = result at hnode hok ⊢
    obtain ⟨r, t⟩ := result
    dsimp only at hok
    subst hok
    exact ⟨hnode.2.loops, hnode.2.builder, hnode.2.routine⟩

end Nodes

/-- A loop whose body fails stays on the stacks; what compiles after it leaves it there. -/
theorem stack_discipline_after_failure :
    let start : Session := .start .latest
    let broken : Node := .stmt (.fn "main" (some []) (.text "int")
      [.forLoop (.letVar "i" (.int 0) "int") (.infixed (.ident "i") .lt (.int 9))
        (.bare (.stepped (.ident "i") .increment)) [.missing]])
    let s := ((Gen.node .latest (Gen.importer .latest ⟨[], []⟩ 1) broken).run start).2
    let later : Node := .expr (.ifThen (.infixed (.ident "i") .eq (.int 4)) [.breakLoop])
    let t := ((Gen.node .latest (Gen.importer .latest ⟨[], []⟩ 1) later).run s).2
    s.loops.continues = [⟨"main", "for_loop_entry_1"⟩] ∧ s.Paired ∧ t.loops = s.loops ∧
      t.builder = s.builder ∧ t.place.map Place.routine = s.place.map Place.routine := by
  intro start broken s later t
  have hs : Reachable .latest s := .compile _ _ _ .start
  obtain ⟨-, hpaired, hnode⟩ := stack_discipline (by decide) hs
  exact ⟨by decide +kernel, hpaired, hnode _ _ later (by decide +kernel)⟩

end LimeLang
