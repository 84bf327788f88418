import LimeLang.Proofs.OperandFlow

/-! What is known of names while code is written: the flow of a session is carried along, and blocks
start with what was done where they were made. -/

namespace LimeLang

open Code

theorem Gen.bind_ok {α β : Type} {x : Gen α} {k : α → Gen β} {s u : Session} {b : β}
    (h : (x >>= k).run s = (.ok b, u)) : ∃ a t, x.run s = (.ok a, t) ∧
      (k a).run t = (.ok b, u) := by
  rw [Gen.run_bind] at h
  split at h
  · rename_i a t hx
    exact ⟨a, t, hx, h⟩
  · cases h

theorem Gen.branchPlace_ok {β : Type} {k : Place → Gen β} {s u : Session} {b : β}
    (h : (Gen.branchPlace >>= k).run s = (.ok b, u)) : ∃ p, (k p).run s = (.ok b, u) := by
  obtain ⟨p, t, hp, h⟩ := Gen.bind_ok h
  cases hplace : s.place with
  | none =>
    rw [Gen.branchPlace, Gen.run_bind, Gen.run_get] at hp
    simp only [hplace] at hp
    cases hp
  | some p' =>
    rw [Gen.run_branchPlace hplace] at hp
    obtain ⟨-, rfl⟩ := Prod.mk.inj hp
    exact ⟨p, h⟩

theorem Gen.modify_ok {β : Type} {g : Gen β} {m : Session → Session} {s : Session}
    {r : Except Failure β × Session} (h : (do modify m; g : Gen β).run s = r) : g.run (m s) = r :=
  h

theorem Gen.moveTo_ok {β : Type} {g : Gen β} {p : Option Place} {s : Session}
    {r : Except Failure β × Session}
    (h : (do Gen.moveTo p; g : Gen β).run s = r) : g.run { s with place := p } = r :=
  h

theorem Gen.moveToStart_ok {q : Place} {s t : Session} {a : Unit}
    (h : (Gen.moveToStart q).run s = (.ok a, t)) : { s with place := some q } = t := by
  rw [Gen.run_moveToStart] at h
  split_ifs at h
  · exact congrArg Prod.snd h
  · cases h

theorem Secures.of_run {α : Type} {g : Gen α} {s t : Session} {Q : α → Session → Prop} {a : α}
    (h : Secures g s Q) (hrun : g.run s = (.ok a, t)) : t.Valid ∧ Q a t := by
  rwa [Secures, hrun] at h

section Lookup

variable {β : Type}

theorem Table.find?_congr (t : Table β) {m n : Literal} (h : m.same n = true) :
    t.find? m = t.find? n := by
  induction t with
  | nil => rfl
  | cons entry t ih =>
    obtain ⟨k, b⟩ := entry
    have hk : k.same m = k.same n := by
      simp only [Literal.same, decide_eq_true_eq] at h ⊢
      rw [h]
    rw [Table.find?, Table.find?, hk, ih]

theorem Chain.find?_congr (c : Chain β) {m n : Literal} (h : m.same n = true) :
    c.find? m = c.find? n := by
  induction c with
  | nil => rfl
  | cons t ts ih => rw [Chain.find?, Chain.find?, Table.find?_congr t h, ih]

theorem Chain.find?_define (c : Chain β) (m n : Literal) (b : β) :
    (c.define m b).find? n = if m.same n then some b else c.find? n := by
  split
  · rename_i h
    exact Chain.find?_define_same c h b
  · rename_i h
    exact Chain.find?_define_other c (by simpa using h) b

theorem Chain.tail_define (c : Chain β) (n : Literal) (b : β) : (c.define n b).tail = c.tail := by
  cases c with
  | nil => rfl
  | cons t ts => rfl

end Lookup

namespace Known

def owns (k : Known) (name : Literal) : Bool := k.own.any (·.same name)

def knows (k : Known) (name : Literal) : Bool := k.all.any (·.same name)

end Known

namespace Dataflow

/-- An instruction has been executed whenever control is where the session stands. -/
def DoneAt (f : Dataflow) (s : Session) (A : String) (i : Instr) : Prop :=
  ∃ p is, s.place = some p ∧ s.assembly.code? p = some is ∧ f.Done p is A i

/-- A block of the current routine that asks for nothing that has not been done. -/
def MayJump (f : Dataflow) (s : Session) (q : Place) : Prop := s.Has q ∧ ∀ A i, f q A i →
    f.DoneAt s A i

/-- The blocks of the innermost loop may be jumped to. -/
def InLoop (f : Dataflow) (s : Session) : Prop :=
  ∃ entry exit, ∃ outer : Loops, s.loops = outer.enter entry exit ∧ f.MayJump s entry ∧
    f.MayJump s exit

/-- What is known of names is right: those that stand for slots are known, and the slots of those
that are sure to have been made are at hand. -/
structure Knows (f : Dataflow) (k : Known) (s : Session) : Prop where
  suits : f.Suits s
  known : ∀ name b n t, s.scopes.find? name = some b → b.value = .result n t → k.knows name = true
  owned : ∀ name, k.owns name = true → ∃ b, s.scopes.find? name = some b ∧ f.AtHand s b.value
  loop : k.inLoop = true → f.InLoop s

/-- A block that starts with what was done in an earlier session. -/
def Prepares (f : Dataflow) (s : Session) (f' : Dataflow) (t : Session) (q : Place) : Prop :=
  t.Has q ∧ ∀ A i, f' q A i ↔ f.DoneAt s A i

/-- The way from one session to a later one in the same routine. -/
structure Onward (f : Dataflow) (s : Session) (f' : Dataflow) (t : Session) : Prop where
  frames : s.Frames t
  constants : s.assembly.KeepsConstants t.assembly
  agree : ∀ q, (s.assembly.code? q).isSome = true → ∀ A i, f' q A i ↔ f q A i
  done : ∀ A i, f.DoneAt s A i → f'.DoneAt t A i
  names : ∀ name b, s.scopes.find? name = some b → ∃ b', t.scopes.find? name = some b' ∧
    (b' = b ∨ b'.IsRoutine t.assembly)
  outer : s.scopes.tail <:+ t.scopes.tail

section Relations

variable {f f' f'' : Dataflow} {s t u : Session} {k : Known} {x : Operand} {q q' : Place}

theorem Onward.of_quiet (hst : s.Quiet t) : f.Onward s f t where
  frames := hst.frames
  constants := hst.constants
  agree _ _ _ _ := .rfl
  done := by
    rintro A i ⟨p, is, hp, his, hi⟩
    obtain ⟨js, hjs⟩ := hst.grows.code his
    exact ⟨p, is ++ js, hst.place.trans hp, hjs, hi.mono (List.subset_append_left _ _)⟩
  names name b hb := ⟨b, by rw [hst.scopes, hb], .inl rfl⟩
  outer := hst.scopes ▸ List.suffix_rfl

theorem Onward.refl (f : Dataflow) (s : Session) : f.Onward s f s := .of_quiet (.refl s)

theorem Onward.trans (h : f.Onward s f' t) (h' : f'.Onward t f'' u) : f.Onward s f'' u where
  frames := h.frames.trans h'.frames
  constants n c hc := h'.constants n c (h.constants n c hc)
  agree q hq A i := (h'.agree q (h.frames.grows.code_isSome hq) A i).trans (h.agree q hq A i)
  done A i hi := h'.done A i (h.done A i hi)
  names := by
    intro name b hb
    obtain ⟨b', hb', heq⟩ := h.names name b hb
    obtain ⟨b'', hb'', heq'⟩ := h'.names name b' hb'
    refine ⟨b'', hb'', ?_⟩
    rcases heq' with rfl | heq'
    · rcases heq with rfl | heq
      · exact .inl rfl
      · exact .inr (heq.grows h'.frames.grows)
    · exact .inr heq'
  outer := h.outer.trans h'.outer

theorem AtHand.onward (h : f.AtHand s x) (hs : f.Suits s) (hst : f.Onward s f' t) :
    f'.AtHand t x := by
  intro p' is' hp' his'
  have hroutine := hst.frames.routine
  rw [hp', Option.map_some] at hroutine
  obtain ⟨p, hp, hpp'⟩ := Option.map_eq_some_iff.mp hroutine.symm
  obtain ⟨is, his⟩ := Option.isSome_iff_exists.mp (hs.valid.placed p hp)
  refine (h p is hp his).mono hst.frames.grows hst.constants hpp'.symm fun A i hi => ?_
  obtain ⟨p'', is'', hp'', his'', hdone⟩ := hst.done A i ⟨p, is, hp, his, hi⟩
  obtain rfl := Option.some.inj (hp'.symm.trans hp'')
  obtain rfl := Option.some.inj (his'.symm.trans his'')
  exact hdone

theorem atHand_of_routine {b : Binding} (h : b.IsRoutine s.assembly) : f.AtHand s b.value := by
  obtain ⟨r, hr, hv, -⟩ := h
  rw [hv]
  intro p is _ _
  exact ⟨_, Assembly.routine?_eq_some.mp hr, rfl⟩

theorem Knows.admits (h : f.Knows k s) : f.Admits k s := by
  intro name b hk hb
  rcases Bool.or_eq_true_iff.mp hk with howns | hunknown
  · obtain ⟨b', hb', hat⟩ := h.owned name howns
    obtain rfl := Option.some.inj (hb.symm.trans hb')
    exact hat
  · rcases h.suits.valid.typed.find? hb with
      ⟨q, is, n, -, -, hv⟩ | hroutine | ⟨item, hmem, hitem, hv, -⟩
    · have hknown := h.known name b n _ hb hv
      simp [Known.knows] at hknown hunknown
      obtain ⟨l, hl, hsame⟩ := hknown
      simp [hunknown l hl] at hsame
    · exact atHand_of_routine hroutine
    · rw [hv]
      intro p is _ _
      rcases List.mem_pair.mp hmem with rfl | rfl
      · exact ⟨_, hitem, rfl⟩
      · exact ⟨_, hitem, rfl⟩

theorem MayJump.onward (h : f.MayJump s q) (hst : f.Onward s f' t) : f'.MayJump t q :=
  ⟨h.1.frames hst.frames, fun A i hi => hst.done A i (h.2 A i ((hst.agree q h.1.1 A i).mp hi))⟩

theorem InLoop.onward (h : f.InLoop s) (hst : f.Onward s f' t) : f'.InLoop t := by
  obtain ⟨entry, exit, outer, hloops, hentry, hexit⟩ := h
  exact ⟨entry, exit, outer, hst.frames.loops.trans hloops, hentry.onward hst, hexit.onward hst⟩

/-- Later on, and with more names known, what was known is still right. -/
theorem Knows.onward {all : List Literal} (h : f.Knows k s) (hst : f.Onward s f' t)
    (ht : f'.Suits t) (hall : ∀ name b n ty, t.scopes.find? name = some b → b.value = .result n ty →
      all.any (·.same name) = true) : f'.Knows { k with all := all } t where
  suits := ht
  known := hall
  owned := by
    intro name hname
    obtain ⟨b, hb, hat⟩ := h.owned name hname
    obtain ⟨b', hb', heq⟩ := hst.names name b hb
    refine ⟨b', hb', ?_⟩
    rcases heq with rfl | hroutine
    · exact hat.onward h.suits hst
    · exact atHand_of_routine hroutine
  loop hk := (h.loop hk).onward hst

theorem Knows.weaken {k' : Known} (h : f.Knows k s) (hown : ∀ name, k'.owns name = true →
    k.owns name = true) (hall : ∀ name, k.knows name = true → k'.knows name = true)
    (hloop : k'.inLoop = true → k.inLoop = true) : f.Knows k' s :=
  ⟨h.suits, fun name b n ty hb hv => hall name (h.known name b n ty hb hv),
    fun name hname => h.owned name (hown name hname), fun hk => h.loop (hloop hk)⟩

theorem Knows.more (h : f.Knows k s) (all : List Literal) :
    f.Knows { k with all := k.all ++ all } s := by
  refine h.weaken (fun _ h => h) (fun name hname => ?_) id
  rw [Known.knows, List.any_append, Bool.or_eq_true]
  exact .inl hname

theorem Knows.finishImport (h : f.Knows k s) (paths : List String) :
    f.Knows k { s with pallets := paths } :=
  ⟨⟨⟨h.suits.valid.sound, h.suits.valid.placed, h.suits.valid.typed, h.suits.valid.numbered,
    h.suits.valid.paired⟩, h.suits.distinct, h.suits.certified⟩, h.known, h.owned, h.loop⟩

theorem Onward.finishImport (f : Dataflow) (s : Session) (paths : List String) :
    f.Onward s f { s with pallets := paths } :=
  ⟨⟨rfl, rfl, rfl, .refl _⟩, fun _ _ h => h, fun _ _ _ _ => .rfl, fun _ _ h => h,
    fun _ b hb => ⟨b, hb, .inl rfl⟩, List.suffix_rfl⟩

theorem Knows.define {name : Literal} {b : Binding} (h : f.Knows k s)
    (htyped : b.IsTyped s.assembly) (hb : f.AtHand s b.value) :
    f.Knows (k.declare name) { s with scopes := s.scopes.define name b } where
  suits := ⟨(define_secures h.suits.valid htyped).1, h.suits.distinct, h.suits.certified⟩
  known := by
    intro name' b' n ty hfind hv
    rw [Chain.find?_define] at hfind
    simp only [Known.knows, Known.declare, List.any_cons, Bool.or_eq_true]
    split_ifs at hfind with hsame
    · exact .inl hsame
    · exact .inr (h.known name' b' n ty hfind hv)
  owned := by
    intro name' hname
    rw [Chain.find?_define]
    split_ifs with hsame
    · exact ⟨b, rfl, hb⟩
    · refine h.owned name' ?_
      simpa [Known.owns, Known.declare, hsame] using hname
  loop := h.loop

theorem Knows.defineRoutine {name : Literal} {b : Binding} (h : f.Knows k s)
    (hb : b.IsRoutine s.assembly) : f.Knows k { s with scopes := s.scopes.define name b } where
  suits := ⟨(define_secures h.suits.valid (.inr (.inl hb))).1, h.suits.distinct, h.suits.certified⟩
  known := by
    intro name' b' n ty hfind hv
    rw [Chain.find?_define] at hfind
    split_ifs at hfind with hsame
    · obtain ⟨r, -, hr, -⟩ := hb
      rw [← Option.some.inj hfind, hr] at hv
      cases hv
    · exact h.known name' b' n ty hfind hv
  owned := by
    intro name' hname
    rw [Chain.find?_define]
    split_ifs with hsame
    · exact ⟨b, rfl, atHand_of_routine (s := s) hb⟩
    · exact h.owned name' hname
  loop := h.loop

theorem Onward.define {name : Literal} {b : Binding}
    (hb : ∀ b', s.scopes.find? name = some b' → b.IsRoutine s.assembly) :
    f.Onward s f { s with scopes := s.scopes.define name b } where
  frames := ⟨rfl, rfl, rfl, .refl _⟩
  constants _ _ h := h
  agree _ _ _ _ := .rfl
  done _ _ h := h
  names := by
    intro name' b' hb'
    rw [Chain.find?_define]
    split_ifs with hsame
    · exact ⟨b, rfl, .inr (hb b' ((Chain.find?_congr _ hsame).trans hb'))⟩
    · exact ⟨b', hb', .inl rfl⟩
  outer := (Chain.tail_define ..).symm ▸ List.suffix_rfl

theorem Knows.enterScope (h : f.Knows k s) : f.Knows k { s with scopes := s.scopes.enter } :=
  ⟨⟨(enterScope_secures h.suits.valid).1, h.suits.distinct, h.suits.certified⟩, h.known, h.owned,
    h.loop⟩

theorem Onward.enterScope (f : Dataflow) (s : Session) :
    f.Onward s f { s with scopes := s.scopes.enter } :=
  ⟨⟨rfl, rfl, rfl, .refl _⟩, fun _ _ h => h, fun _ _ _ _ => .rfl, fun _ _ h => h,
    fun _ b hb => ⟨b, hb, .inl rfl⟩,
    List.tail_suffix _⟩

theorem Knows.all_known (h : f.Knows k s) (ht : t.scopes = s.scopes) :
    ∀ name b n ty, t.scopes.find? name = some b → b.value = .result n ty →
      k.all.any (·.same name) = true := by
  intro name b n ty hb
  rw [ht] at hb
  exact h.known name b n ty hb

theorem Knows.quiet (h : f.Knows k s) (hst : s.Quiet t) (ht : f.Suits t) : f.Knows k t :=
  h.onward (.of_quiet hst) ht (h.all_known hst.scopes)

theorem Prepares.onward (h : f.Prepares s f' t q) (htu : f'.Onward t f'' u) :
    f.Prepares s f'' u q :=
  ⟨h.1.frames htu.frames, fun A i => (htu.agree q h.1.1 A i).trans (h.2 A i)⟩

theorem Prepares.move (h : f.Prepares s f' t q) (hq' : t.Has q') :
    f.Prepares s f' { t with place := some q' } q := by
  refine ⟨⟨h.1.1, ?_⟩, h.2⟩
  exact hq'.2.symm.trans h.1.2

theorem Prepares.mayJump (h : f.Prepares s f' t q) (hst : f.Onward s f' t) : f'.MayJump t q :=
  ⟨h.1, fun A i hi => hst.done A i ((h.2 A i).mp hi)⟩

theorem Onward.move (h : f.Onward s f' t) (hq : f.Prepares s f' t q) :
    f.Onward s f' { t with place := some q } where
  frames := ⟨h.frames.loops, h.frames.builder, hq.1.2.symm.trans h.frames.routine, h.frames.grows⟩
  constants := h.constants
  agree := h.agree
  done := by
    intro A i hi
    obtain ⟨is, his⟩ := Option.isSome_iff_exists.mp hq.1.1
    exact ⟨q, is, rfl, his, .inr ((hq.2 A i).mpr hi)⟩
  names := h.names
  outer := h.outer

theorem Suits.move (h : f.Suits t) (hq : t.Has q) : f.Suits { t with place := some q } :=
  ⟨(moveTo_secures h.valid hq).1, h.distinct, h.certified⟩

theorem Onward.leaveLoop {entry exit : Place}
    (h : f.Onward { s with loops := s.loops.enter entry exit } f' t) :
    f.Onward s f' { t with loops := t.loops.leave } := by
  refine ⟨⟨?_, h.frames.builder, h.frames.routine, h.frames.grows⟩, h.constants, h.agree, h.done,
    h.names, h.outer⟩
  change t.loops.leave = s.loops
  rw [h.frames.loops]
  rfl

end Relations

section Blocks

variable {f f₀ : Dataflow} {s t u : Session} {q q' : Place}

theorem DoneAt.block (hs : f.Suits s) {A : String} {i : Instr} (h : f.DoneAt s A i) :
    ∃ p is, s.place = some p ∧ s.assembly.code? ⟨p.routine, A⟩ = some is ∧ i ∈ is := by
  obtain ⟨p, is, hp, his, ⟨rfl, hi⟩ | hi⟩ := h
  · exact ⟨p, is, hp, his, hi⟩
  · obtain ⟨-, js, hjs, hmem⟩ := hs.certified.blocks p A i hi
    exact ⟨p, js, hp, hjs, hmem⟩

/-- A new block can start with all that was done in an earlier session. -/
theorem addBlock_prepares {name : String} (hs : f₀.Suits s) (hst : f₀.Onward s f t) (ht : f.Suits t)
    (hname : ∀ k, ForLoop.HasName k name → k ≤ t.counter)
    (hrun : (Gen.addBlock name).run t = (.ok q, u)) :
    ∃ f', f'.Suits u ∧ f.Onward t f' u ∧ f₀.Prepares s f' u q ∧ u.scopes = t.scopes ∧
      u.counter = t.counter ∧ ∀ A i, f'.DoneAt u A i ↔ f.DoneAt t A i := by
  obtain ⟨hvalid, hopens⟩ := (addBlock_secures ht.valid hname).of_run hrun
  have hroutine := hopens.has.2
  rw [hopens.place] at hroutine
  obtain ⟨p, hp, -⟩ := Option.map_eq_some_iff.mp hroutine
  obtain ⟨is, his⟩ := Option.isSome_iff_exists.mp (ht.valid.placed p hp)
  obtain ⟨r, hr, hblock⟩ := Option.bind_eq_some_iff.mp his
  rw [Gen.run_addBlock hp hr] at hrun
  obtain ⟨hq, rfl⟩ := Prod.mk.inj hrun
  obtain rfl := Except.ok.inj hq
  have hn : r.name = p.routine := Assembly.routine?_name hr
  have hr' : t.assembly.routine? r.name = some r := hn ▸ hr
  have hnew : t.assembly.code? ⟨p.routine, (r.addBlock name).1⟩ = none :=
    hn ▸ Assembly.code?_new ht.valid.sound hr'
  have hold : ∀ A i, ¬ f ⟨p.routine, (r.addBlock name).1⟩ A i := by
    intro A i hi
    have hsome := (ht.certified.blocks _ A i hi).1
    simp [hnew] at hsome
  have hne : p ≠ ⟨p.routine, (r.addBlock name).1⟩ := by
    intro heq
    rw [← heq, his] at hnew
    simp at hnew
  have hcode : (t.assembly.withBlock r name).code? p = some is := by
    rw [Assembly.code?_withBlock ht.valid.sound hr', hn, if_neg hne, his]
  have hdone : ∀ A i, (f.extend ⟨p.routine, (r.addBlock name).1⟩ (f₀.DoneAt s)).DoneAt
      { t with assembly := t.assembly.withBlock r name } A i ↔ f.DoneAt t A i := by
    refine fun A i => ⟨?_, ?_⟩
    · rintro ⟨p', is', hp', his', hi⟩
      obtain rfl := Option.some.inj (hp.symm.trans hp')
      obtain rfl := Option.some.inj (hcode.symm.trans his')
      exact ⟨p, is, hp, his, hi.imp id fun hi => hi.resolve_right fun h => hne h.1⟩
    · rintro ⟨p', is', hp', his', hi⟩
      obtain rfl := Option.some.inj (hp.symm.trans hp')
      obtain rfl := Option.some.inj (his.symm.trans his')
      exact ⟨p, is, hp, hcode, hi.imp id .inl⟩
  refine ⟨f.extend ⟨p.routine, (r.addBlock name).1⟩ (f₀.DoneAt s), ⟨hvalid, ?_, ?_⟩, ?_,
    ⟨hopens.has, ?_⟩, rfl, rfl, hdone⟩
  · exact (Assembly.Distinct.steps.withBlock hr' ⟨ht.valid.sound, ht.distinct⟩).2
  · rw [← hn]
    refine ht.certified.withBlock ht.valid.sound hr' (fun A i hi => ?_) fun hnil => ?_
    · obtain ⟨p₀, is₀, hp₀, his₀, hmem⟩ := hi.block hs
      have hsame := hst.frames.routine
      rw [hp, hp₀] at hsame
      obtain ⟨js, hjs⟩ := hst.frames.grows.code his₀
      refine ⟨is₀ ++ js, ?_, List.mem_append_left _ hmem⟩
      rw [hn, show p.routine = p₀.routine from Option.some.inj hsame]
      exact hjs
    · simp [Routine.block?, hnil] at hblock
  · refine ⟨hopens.frames, Assembly.KeepsConstants.steps.withBlock hr', fun q' hq' A i => ?_,
      fun A i => (hdone A i).mpr, fun _ b hb => ⟨b, hb, .inl rfl⟩, List.suffix_rfl⟩
    refine ⟨fun hi => hi.resolve_right fun h => ?_, .inl⟩
    rw [h.1, hnew] at hq'
    simp at hq'
  · intro A i
    exact ⟨fun hi => (hi.resolve_left (hold A i)).2, fun hi => .inr ⟨rfl, hi⟩⟩

theorem jump_targets (hq : f.MayJump t q) {p : Place} {is : List Instr} (hp : t.place = some p)
    (his : t.assembly.code? p = some is) : (t.assembly.code? ⟨p.routine, q.block⟩).isSome = true ∧
      ∀ A i, f ⟨p.routine, q.block⟩ A i → f.Done p is A i := by
  obtain ⟨⟨hcode, hroutine⟩, hjump⟩ := hq
  rw [hp, Option.map_some] at hroutine
  have hsame : (⟨p.routine, q.block⟩ : Place) = q := by rw [Option.some.inj hroutine]
  rw [hsame]
  refine ⟨hcode, fun A i hi => ?_⟩
  obtain ⟨p', is', hp', his', hdone⟩ := hjump A i hi
  obtain rfl := Option.some.inj (hp.symm.trans hp')
  obtain rfl := Option.some.inj (his.symm.trans his')
  exact hdone

theorem branch_follows (ht : f.Suits t) (hq : f.MayJump t q) :
    f.Follows (Gen.branch q) t fun _ _ => True := by
  refine (emit_follows ht (by simp [Op.operands]) fun p is hp his l hl => ?_).bind
    fun _ u _ hu _ => .pure hu trivial
  obtain rfl := List.mem_singleton.mp hl
  exact jump_targets hq hp his

theorem branchOn_follows {c : Option Operand} (ht : f.Suits t) (hc : ∀ x ∈ c, f.AtHand t x)
    (hq : f.MayJump t q) (hq' : f.MayJump t q') :
    f.Follows (Gen.branchOn c q q') t fun _ _ => True := by
  refine (emit_follows ht (by simpa [Op.operands] using hc) fun p is hp his l hl => ?_).bind
    fun _ u _ hu _ => .pure hu trivial
  rcases List.mem_pair.mp hl with rfl | rfl
  · exact jump_targets hq hp his
  · exact jump_targets hq' hp his

theorem ret_follows {x : Option Operand} (ht : f.Suits t) (hx : ∀ y ∈ x, f.AtHand t y) :
    f.Follows (Gen.ret x) t fun _ _ => True :=
  (emit_follows ht (by simpa [Op.operands] using hx) (by simp [Op.targets])).bind
    fun _ u _ hu _ => .pure hu trivial

theorem closeWith_follows (ht : f.Suits t) (hq : f.MayJump t q) :
    f.Follows (Gen.closeWith q) t fun _ _ => True := by
  refine .get ?_
  cases hp : t.place with
  | none => exact .pure ht trivial
  | some p =>
    have hterminated : f.Follows (Gen.isTerminated p) t fun _ u => u = t := by
      intro b u hrun
      rw [Gen.run_isTerminated] at hrun
      obtain ⟨-, rfl⟩ := Prod.mk.inj hrun
      exact ⟨.refl _, ht, rfl⟩
    refine hterminated.bind ?_
    rintro b _ - - rfl
    exact .choice (branch_follows ht hq) (.pure ht trivial)

end Blocks

end Dataflow

/-- Where the code of a statement does not fail, it leads from what is known before it to what is
known behind it. -/
def Tracks (g : Gen Unit) (k k' : Known) : Prop :=
  ∀ f s t, Dataflow.Knows f k s → g.run s = (.ok (), t) → ∃ f', Dataflow.Knows f' k' t ∧
    f.Onward s f' t

namespace Tracks

variable {g g' : Gen Unit} {k k' k'' : Known}

theorem of_follows (h : ∀ f s, Dataflow.Knows f k s → f.Follows g s fun _ _ => True) :
    Tracks g k k := by
  intro f s t hs hrun
  obtain ⟨hst, ht, -⟩ := h f s hs () t hrun
  exact ⟨f, hs.quiet hst ht, .of_quiet hst⟩

theorem fails {e : Failure} : Tracks (throw e) k k' := by
  intro f s t _ hrun
  cases hrun

theorem seq (h : Tracks g k k') (h' : Tracks g' k' k'') : Tracks (do g; g') k k'' := by
  intro f s u hs hrun
  obtain ⟨_, t, hg, hrun⟩ := Gen.bind_ok hrun
  obtain ⟨f', ht, hst⟩ := h f s t hs hg
  obtain ⟨f'', hu, htu⟩ := h' f' t u ht hrun
  exact ⟨f'', hu, hst.trans htu⟩

theorem get {h : Session → Gen Unit} (hh : ∀ s, Tracks (h s) k k') :
    Tracks (MonadState.get >>= h) k k' :=
  fun f s t hs hrun => hh s f s t hs hrun

theorem choice {c : Prop} [Decidable c] (h : Tracks g k k') (h' : Tracks g' k k') :
    Tracks (if c then g else g') k k' := by
  split
  · exact h
  · exact h'

theorem forM {α : Type} {h : α → Gen Unit} (hh : ∀ a, Tracks (h a) k k) (xs : List α) :
    Tracks (xs.forM h) k k := by
  induction xs with
  | nil => exact .of_follows fun f s hs => .pure hs.suits trivial
  | cons x xs ih => exact (hh x).seq ih

theorem more (h : Tracks g k k) (all : List Literal) :
    Tracks g k { k with all := all ++ k.all } := by
  intro f s t hs hrun
  obtain ⟨f', ht, hst⟩ := h f s t hs hrun
  refine ⟨f', ht.weaken (fun _ h => h) (fun name hname => ?_) id, hst⟩
  rw [Known.knows, List.any_append, Bool.or_eq_true]
  exact .inr hname

end Tracks

section Branches

variable {f f₁ : Dataflow} {s t u : Session} {k k' : Known} {q : Place} {all : List Literal}

theorem Tracks.enter {g : Gen Unit} (hg : Tracks g { k with all := all } k') (hs : f.Knows k s)
    (hst : f.Onward s f₁ t) (ht : f₁.Suits t) (hq : f.Prepares s f₁ t q)
    (hall : ∀ name b n ty, t.scopes.find? name = some b → b.value = .result n ty →
      all.any (·.same name) = true)
    (hrun : g.run { t with place := some q } = (.ok (), u)) :
    ∃ f₂, f₂.Knows k' u ∧ f.Onward s f₂ u ∧ ∀ q', f.Prepares s f₁ t q' → f.Prepares s f₂ u q' := by
  have hmoved := hst.move hq
  obtain ⟨f₂, hu, htu⟩ := hg f₁ _ u (hs.onward hmoved (ht.move hq.1) hall) hrun
  exact ⟨f₂, hu, hmoved.trans htu, fun q' hq' => (hq'.move hq.1).onward htu⟩

/-- The body of a branch, which ends by leading to a block that waits behind it. -/
theorem Tracks.arm {g : Gen Unit} {after : Place} (hg : Tracks g { k with all := all } k')
    (hs : f.Knows k s) (hst : f.Onward s f₁ t) (ht : f₁.Suits t) (hq : f.Prepares s f₁ t q)
    (hafter : f.Prepares s f₁ t after)
    (hall : ∀ name b n ty, t.scopes.find? name = some b → b.value = .result n ty →
      all.any (·.same name) = true)
    {rest : Gen Unit} {v : Session}
    (hrun : (do Gen.moveTo (some q); g; Gen.closeWith after; rest : Gen Unit).run t = (.ok (), v)) :
    ∃ f₂ u, f₂.Knows k' u ∧ f.Onward s f₂ u ∧ (∀ q', f.Prepares s f₁ t q' → f.Prepares s f₂ u q') ∧
      rest.run u = (.ok (), v) := by
  obtain ⟨_, u, hbody, hrun⟩ := Gen.bind_ok (Gen.moveTo_ok hrun)
  obtain ⟨f₂, hu, hsu, hprepared⟩ := hg.enter hs hst ht hq hall hbody
  obtain ⟨_, u', hclose, hrun⟩ := Gen.bind_ok hrun
  obtain ⟨hquiet, hu', -⟩ :=
    Dataflow.closeWith_follows hu.suits ((hprepared after hafter).mayJump hsu) () u' hclose
  exact ⟨f₂, u', hu.quiet hquiet hu', hsu.trans (.of_quiet hquiet),
    fun q' hq' => (hprepared q' hq').onward (.of_quiet hquiet), hrun⟩

end Branches

end LimeLang
