import LimeLang.Proofs.ControlFlow

/-! What holds of a session between any two nodes, also where one of them failed: the current block
is there, names stand for what their types say, and the two stacks of loop blocks belong
together. -/

namespace LimeLang

open Code

/-- A `for` statement, by the routine that it stands in and the number in the names of its
blocks. -/
structure ForLoop where
  routine : String
  number : Nat

namespace ForLoop

def entryName (n : Nat) : String := "for_loop_entry_" ++ toString n

def exitName (n : Nat) : String := "for_loop_otherwise_" ++ toString n

def entry (l : ForLoop) : Place := ⟨l.routine, entryName l.number⟩

def exit (l : ForLoop) : Place := ⟨l.routine, exitName l.number⟩

def HasName (n : Nat) (x : String) : Prop := x = entryName n ∨ x = exitName n

variable {m n : Nat} {x : String}

theorem isDigit_of_mem {c : Char} (h : c ∈ (toString n).toList) : c.isDigit = true := by
  rw [show toString n = n.repr from rfl, Nat.repr_eq_ofList_toDigits, String.toList_ofList] at h
  exact Nat.isDigit_of_mem_toDigits (by decide) (by decide) h

theorem HasName.toList (h : HasName n x) :
    x.toList = "for_loop_entry_".toList ++ (toString n).toList ∨
    x.toList = "for_loop_otherwise_".toList ++ (toString n).toList := by
  rw [← String.toList_append, ← String.toList_append]
  exact h.imp (congrArg String.toList) (congrArg String.toList)

theorem HasName.not_dotted (h : HasName n x) : '.' ∉ x.toList := by
  have hdigits : '.' ∉ (toString n).toList := fun hmem => absurd (isDigit_of_mem hmem) (by decide)
  rcases h.toList with hx | hx
  · rw [hx, List.mem_append]
    exact fun hmem => hmem.elim (by decide) hdigits
  · rw [hx, List.mem_append]
    exact fun hmem => hmem.elim (by decide) hdigits

theorem HasName.head (h : HasName n x) : x.toList.head? = some 'f' := by
  rcases h.toList with hx | hx
  · rw [hx]
    rfl
  · rw [hx]
    rfl

theorem HasName.last (h : HasName n x) : ∃ c, x.toList.getLast? = some c ∧ c.isDigit = true := by
  have hne : (toString n).toList ≠ [] := by
    rw [show toString n = n.repr from rfl, Nat.repr_eq_ofList_toDigits, String.toList_ofList]
    exact Nat.toDigits_ne_nil
  refine ⟨_, ?_, isDigit_of_mem (List.getLast_mem hne)⟩
  rcases h.toList with hx | hx
  · rw [hx, List.getLast?_append_of_ne_nil _ hne, List.getLast?_eq_some_getLast hne]
  · rw [hx, List.getLast?_append_of_ne_nil _ hne, List.getLast?_eq_some_getLast hne]

theorem entryName_ne_exitName (m n : Nat) : entryName m ≠ exitName n := by
  intro h
  have hlist : ("for_loop_entry_".toList ++ (toString m).toList)[9]? =
      ("for_loop_otherwise_".toList ++ (toString n).toList)[9]? := by
    rw [← String.toList_append, ← String.toList_append]
    exact congrArg (fun x => x.toList[9]?) h
  rw [List.getElem?_append_left (by decide), List.getElem?_append_left (by decide)] at hlist
  exact absurd hlist (by decide)

theorem HasName.unique (h : HasName m x) (h' : HasName n x) : m = n := by
  rcases h with h | h
  · rcases h' with h' | h'
    · exact Names.repr_injective ((String.append_right_inj _).mp (h.symm.trans h'))
    · exact absurd (h.symm.trans h') (entryName_ne_exitName m n)
  · rcases h' with h' | h'
    · exact absurd (h'.symm.trans h) (entryName_ne_exitName n m)
    · exact Names.repr_injective ((String.append_right_inj _).mp (h.symm.trans h'))

end ForLoop

def Chain.All {β : Type} (P : β → Prop) (c : Chain β) : Prop := ∀ t ∈ c, ∀ entry ∈ t, P entry.2

namespace Chain.All

variable {β : Type} {P : β → Prop} {c : Chain β} {n : Literal} {b : β}

theorem mono {P' : β → Prop} (h : c.All P) (hP : ∀ b, P b → P' b) : c.All P' :=
  fun t ht entry hentry => hP _ (h t ht entry hentry)

theorem enter (h : c.All P) : c.enter.All P := by
  intro t ht
  rcases List.mem_cons.mp ht with rfl | ht
  · simp
  · exact h t ht

theorem leaveTo (h : c.All P) (depth : Nat) : (c.leaveTo depth).All P :=
  fun t ht => h t (List.mem_of_mem_drop ht)

theorem table {t : Table β} (h : ∀ entry ∈ t, P entry.2) (hb : P b) :
    ∀ entry ∈ t.define n b, P entry.2 := by
  induction t with
  | nil => simpa [Table.define] using hb
  | cons entry t ih =>
    obtain ⟨m, c⟩ := entry
    rw [Table.define]
    obtain ⟨hc, ht⟩ := List.forall_mem_cons.mp h
    split
    · exact List.forall_mem_cons.mpr ⟨hb, ht⟩
    · exact List.forall_mem_cons.mpr ⟨hc, ih ht⟩

theorem define (h : c.All P) (hb : P b) : (c.define n b).All P := by
  cases c with
  | nil => simpa [Chain.define, Chain.All] using hb
  | cons t ts =>
    obtain ⟨ht, hts⟩ := List.forall_mem_cons.mp h
    exact List.forall_mem_cons.mpr ⟨table ht hb, hts⟩

theorem find? (h : c.All P) (hn : c.find? n = some b) : P b := by
  have htable : ∀ t : Table β, (∀ entry ∈ t, P entry.2) → t.find? n = some b → P b := by
    intro t ht hfind
    induction t with
    | nil => simp [Table.find?] at hfind
    | cons entry t ih =>
      obtain ⟨hc, ht⟩ := List.forall_mem_cons.mp ht
      rw [Table.find?] at hfind
      split at hfind
      · exact Option.some.inj hfind ▸ hc
      · exact ih ht hfind
  induction c with
  | nil => simp [Chain.find?] at hn
  | cons t ts ih =>
    obtain ⟨ht, hts⟩ := List.forall_mem_cons.mp h
    rw [Chain.find?] at hn
    rcases Option.or_eq_some_iff.mp hn with hfound | ⟨-, hfound⟩
    · exact htable t ht hfound
    · exact ih hts hfound

end Chain.All

namespace Binding

def IsSlot (a : Assembly) (b : Binding) : Prop :=
  ∃ q is n, a.code? q = some is ∧ ⟨n, .alloca b.ty⟩ ∈ is ∧ b.value = .result n (.pointer b.ty)

def IsRoutine (a : Assembly) (b : Binding) : Prop :=
  ∃ r, a.routine? r.name = some r ∧ b.value = r.operand ∧ b.ty = r.result

/-- One of the global truth values, with its own type. -/
def IsBoolean (a : Assembly) (b : Binding) : Prop :=
  ∃ i ∈ [Session.booleanItem "true" 1, Session.booleanItem "false" 0],
    a.item? i.name = some i ∧ b.value = i.operand ∧ b.ty = i.operand.ty

def IsTyped (a : Assembly) (b : Binding) : Prop := b.IsSlot a ∨ b.IsRoutine a ∨ b.IsBoolean a

end Binding

def Code.Assembly.KeepsConstants (a b : Assembly) : Prop :=
  ∀ n c, a.item? n = some (.constant c) → b.item? n = some (.constant c)

theorem Code.Assembly.KeepsConstants.modifyRoutine {a : Assembly} {n : String} {f : Routine →
    Routine} (hf : ∀ r, r.name = n → (f r).name = n) : a.KeepsConstants (a.modifyRoutine n f) := by
  intro m c hc
  rw [Assembly.item?_modifyRoutine hf, hc]
  rfl

theorem Code.Assembly.KeepsConstants.steps : AssemblySteps Assembly.KeepsConstants where
  refl _ _ _ hc := hc
  trans h h' n c hc := h' n c (h n c hc)
  takeName {_ n r} hr := .modifyRoutine fun _ _ => show r.name = n from Assembly.routine?_name hr
  withInstr {a p r op} hr := by
    have hname : r.takeName.2.name = p.routine :=
      show r.name = p.routine from Assembly.routine?_name hr
    intro n c hc
    have hadd : ∀ r' : Routine, r'.name = p.routine →
      (r'.addInstr p.block ⟨r.takeName.1, op⟩).name = p.routine := fun _ h => h
    exact KeepsConstants.modifyRoutine hadd n c
      (KeepsConstants.modifyRoutine (fun _ _ => hname) n c hc)
  withBlock _ := .modifyRoutine fun _ _ => rfl
  add {a i} hi _ := by
    intro n c hc
    rw [Assembly.item?_add hi, if_neg]
    · exact hc
    · intro hn
      rw [hn, hi] at hc
      simp at hc

theorem Code.Assembly.Sound.steps : AssemblySteps fun a b => a.Sound → b.Sound where
  refl _ h := h
  trans h h' ha := h' (h ha)
  takeName hr ha := ha.takeName hr
  withInstr hr ha := ha.withInstr hr
  withBlock hr ha := ha.withBlock hr
  add hi hblocks ha := ha.add hi hblocks

namespace Session

/-- The blocks of a loop are named with numbers that have been counted. -/
def Numbered (s : Session) : Prop :=
  ∀ n r, s.assembly.routine? n = some r → ∀ x ∈ r.names.used, ∀ k, ForLoop.HasName k x →
    k ≤ s.counter

/-- The two blocks of a loop stand next to each other in its routine. -/
def HasLoop (s : Session) (l : ForLoop) : Prop :=
  l.number ≤ s.counter ∧ ∃ r, s.assembly.routine? l.routine = some r ∧
    [ForLoop.entryName l.number, ForLoop.exitName l.number] <:+: r.blocks.map Block.name

/-- Entry by entry, the stacks hold the two blocks of one loop; inner loops are younger. -/
def Paired (s : Session) : Prop :=
  ∃ loops : List ForLoop, s.loops.continues = loops.map ForLoop.entry ∧
    s.loops.breakpoints = loops.map ForLoop.exit ∧
    loops.Pairwise (fun inner outer => outer.number < inner.number) ∧ ∀ l ∈ loops, s.HasLoop l

structure Valid (s : Session) : Prop where
  sound : s.assembly.Sound
  placed : ∀ p, s.place = some p → (s.assembly.code? p).isSome = true
  typed : s.scopes.All (·.IsTyped s.assembly)
  numbered : s.Numbered
  paired : s.Paired

/-- What the code of an expression leaves alone. -/
structure Quiet (s t : Session) : Prop where
  builder : t.builder = s.builder
  place : t.place = s.place
  scopes : t.scopes = s.scopes
  loops : t.loops = s.loops
  counter : s.counter ≤ t.counter
  grows : s.assembly.Grows t.assembly
  constants : s.assembly.KeepsConstants t.assembly
  sound : s.assembly.Sound → t.assembly.Sound
  numbered : s.Numbered → t.Numbered

/-- What the code of a statement leaves alone, if it does not fail. -/
structure Frames (s t : Session) : Prop where
  loops : t.loops = s.loops
  builder : t.builder = s.builder
  routine : t.place.map Place.routine = s.place.map Place.routine
  grows : s.assembly.Grows t.assembly

end Session

section Persistence

variable {a b : Assembly} {s t u : Session} {v : Binding} {q : Place}

theorem Code.Assembly.Grows.code_isSome (hg : a.Grows b) (hq : (a.code? q).isSome = true) :
    (b.code? q).isSome = true := by
  obtain ⟨is, his⟩ := Option.isSome_iff_exists.mp hq
  obtain ⟨js, hjs⟩ := hg.code his
  exact Option.isSome_iff_exists.mpr ⟨_, hjs⟩

theorem Binding.IsSlot.grows (h : v.IsSlot a) (hg : a.Grows b) : v.IsSlot b := by
  obtain ⟨q, is, n, hq, hmem, hv⟩ := h
  obtain ⟨js, hjs⟩ := hg.code hq
  exact ⟨q, is ++ js, n, hjs, List.mem_append_left _ hmem, hv⟩

theorem Binding.IsRoutine.grows (h : v.IsRoutine a) (hg : a.Grows b) : v.IsRoutine b := by
  obtain ⟨r, hr, hv, hty⟩ := h
  obtain ⟨r', hr', hgrow⟩ := hg _ r hr
  have hname : r'.name = r.name := Assembly.routine?_name hr'
  refine ⟨r', hname ▸ hr', ?_, hty.trans hgrow.result.symm⟩
  rw [hv, Routine.operand, Routine.operand, Routine.ty, Routine.ty, hname, hgrow.result,
    hgrow.params, hgrow.variadic]

theorem Binding.IsTyped.grows (h : v.IsTyped a) (hg : a.Grows b) (hc : a.KeepsConstants b) :
    v.IsTyped b := by
  rcases h with h | h | ⟨i, hi, hitem, hv⟩
  · exact .inl (h.grows hg)
  · exact .inr (.inl (h.grows hg))
  · refine .inr (.inr ⟨i, hi, ?_, hv⟩)
    rcases List.mem_pair.mp hi with rfl | rfl
    · exact hc _ _ hitem
    · exact hc _ _ hitem

theorem Session.HasLoop.grows {l : ForLoop} (h : s.HasLoop l) (hcounter : s.counter ≤ t.counter)
    (hg : s.assembly.Grows t.assembly) : t.HasLoop l := by
  obtain ⟨hl, r, hr, hblocks⟩ := h
  obtain ⟨r', hr', hgrow⟩ := hg _ r hr
  exact ⟨Nat.le_trans hl hcounter, r', hr', hblocks.trans hgrow.blocks.isInfix⟩

theorem Session.Paired.grows (h : s.Paired) (hloops : t.loops = s.loops)
    (hcounter : s.counter ≤ t.counter) (hg : s.assembly.Grows t.assembly) : t.Paired := by
  obtain ⟨loops, hcontinues, hbreakpoints, hsorted, hloop⟩ := h
  rw [Paired, hloops]
  exact ⟨loops, hcontinues, hbreakpoints, hsorted, fun l hl => (hloop l hl).grows hcounter hg⟩

namespace Session.Quiet

theorem refl (s : Session) : s.Quiet s :=
  ⟨rfl, rfl, rfl, rfl, Nat.le_refl _, .refl _, fun _ _ h => h, id, id⟩

theorem trans (h : s.Quiet t) (h' : t.Quiet u) : s.Quiet u where
  builder := h'.builder.trans h.builder
  place := h'.place.trans h.place
  scopes := h'.scopes.trans h.scopes
  loops := h'.loops.trans h.loops
  counter := Nat.le_trans h.counter h'.counter
  grows := h.grows.trans h'.grows
  constants n c hc := h'.constants n c (h.constants n c hc)
  sound ha := h'.sound (h.sound ha)
  numbered hs := h'.numbered (h.numbered hs)

theorem frames (h : s.Quiet t) : s.Frames t :=
  ⟨h.loops, h.builder, congrArg _ h.place, h.grows⟩

theorem valid (h : s.Quiet t) (hs : s.Valid) : t.Valid where
  sound := h.sound hs.sound
  placed p hp := h.grows.code_isSome (hs.placed p (h.place ▸ hp))
  typed := by
    rw [h.scopes]
    exact hs.typed.mono fun _ hb => hb.grows h.grows h.constants
  numbered := h.numbered hs.numbered
  paired := hs.paired.grows h.loops h.counter h.grows

end Session.Quiet

namespace Session.Frames

theorem refl (s : Session) : s.Frames s := ⟨rfl, rfl, rfl, .refl _⟩

theorem trans (h : s.Frames t) (h' : t.Frames u) : s.Frames u :=
  ⟨h'.loops.trans h.loops, h'.builder.trans h.builder, h'.routine.trans h.routine,
    h.grows.trans h'.grows⟩

end Session.Frames

end Persistence

section Numbering

variable {s t : Session} {n : String} {r : Routine}

/-- Names that are new to a routine but do not belong to a loop change nothing. -/
theorem Session.Numbered.modified (h : s.Numbered) {f : Routine → Routine}
    (hf : ∀ r, r.name = n → (f r).name = n)
    (hnames : ∀ r, s.assembly.routine? n = some r → ∀ x ∈ (f r).names.used, x ∈ r.names.used ∨
      ∀ k, ForLoop.HasName k x → k ≤ t.counter)
    (ht : t.assembly = s.assembly.modifyRoutine n f) (hcounter : s.counter ≤ t.counter) :
      t.Numbered := by
  intro m r' hr' x hx k hk
  rw [ht, Assembly.routine?_modifyRoutine hf] at hr'
  split_ifs at hr' with hm
  · obtain ⟨r, hr, rfl⟩ := Option.map_eq_some_iff.mp hr'
    rcases hnames r hr x hx with hx | hx
    · exact Nat.le_trans (h n r hr x hx k hk) hcounter
    · exact hx k hk
  · exact Nat.le_trans (h m r' hr' x hx k hk) hcounter

theorem not_hasName_of_dotted {x : String} (hx : x = "" ∨ '.' ∈ x.toList) (k : Nat) :
    ¬ ForLoop.HasName k x := by
  intro h
  rcases hx with rfl | hx
  · exact absurd h.head (by decide)
  · exact h.not_dotted hx

theorem register_numbered (names : Names) {base : String} {n : Nat}
    (hbase : ∀ k, ForLoop.HasName k base → k ≤ n) :
    ∀ x ∈ (names.register base).2.used, x ∈ names.used ∨ ∀ k, ForLoop.HasName k x → k ≤ n := by
  intro x hx
  rw [names.register_used] at hx
  rcases List.mem_cons.mp hx with rfl | hx
  · refine .inr fun k hk => ?_
    rcases names.register_cases base with hname | hdot
    · exact hbase k (hname ▸ hk)
    · exact absurd hk (not_hasName_of_dotted (.inr hdot) k)
  · exact .inl hx

theorem Session.Numbered.takeName (h : s.Numbered) (hr : s.assembly.routine? n = some r) :
    { s with assembly := s.assembly.modifyRoutine n fun _ => r.takeName.2 }.Numbered := by
  have hname : r.takeName.2.name = n := show r.name = n from Assembly.routine?_name hr
  refine h.modified (fun _ _ => hname) (fun r' hr' => ?_) rfl (Nat.le_refl _)
  obtain rfl := Option.some.inj (hr.symm.trans hr')
  exact register_numbered r.names fun k hk => absurd hk (not_hasName_of_dotted (.inl rfl) k)

theorem Session.Numbered.withInstr {p : Place} {op : Op} (h : s.Numbered)
    (hr : s.assembly.routine? p.routine = some r) :
    { s with assembly := s.assembly.withInstr p r op }.Numbered := by
  refine (h.takeName hr).modified (f := (·.addInstr p.block ⟨r.takeName.1, op⟩)) (fun _ h => h) ?_
    rfl (Nat.le_refl _)
  exact fun _ _ _ hx => .inl hx

theorem Session.Numbered.withBlock (h : s.Numbered) (hr : s.assembly.routine? r.name = some r)
    {name : String} (hname : ∀ k, ForLoop.HasName k name → k ≤ s.counter) :
    { s with assembly := s.assembly.withBlock r name }.Numbered := by
  refine h.modified (f := fun _ => (r.addBlock name).2) (fun _ _ => rfl) (fun r' hr' => ?_) rfl
    (Nat.le_refl _)
  obtain rfl := Option.some.inj (hr.symm.trans hr')
  exact register_numbered r.names hname

theorem Session.Numbered.addConstant {c : Constant} (h : s.Numbered)
    (hc : s.assembly.item? c.name = none) :
    { s with assembly := s.assembly.add (.constant c) }.Numbered := by
  intro m r hr
  rw [Assembly.routine?_add_constant hc] at hr
  exact h m r hr

theorem Session.Numbered.addRoutine (h : s.Numbered) (hr : s.assembly.item? r.name = none)
    (hnames : ∀ x ∈ r.names.used, x = "" ∨ '.' ∈ x.toList) :
    { s with assembly := s.assembly.add (.routine r) }.Numbered := by
  intro m r' hr' x hx k hk
  rw [Assembly.routine?_add_routine hr] at hr'
  split_ifs at hr'
  · obtain rfl := Option.some.inj hr'
    exact absurd hk (not_hasName_of_dotted (hnames x hx) k)
  · exact h m r' hr' x hx k hk

end Numbering

theorem quiet_emit (op : Op) : Obeys Session.Quiet (Gen.emit op) := by
  refine .emit .refl (fun s p r _ hr => ?_) fun s p r _ hr => ?_
  · exact ⟨rfl, rfl, rfl, rfl, Nat.le_refl _, Assembly.Grows.steps.takeName hr,
      Assembly.KeepsConstants.steps.takeName hr, Assembly.Sound.steps.takeName hr, fun h =>
        h.takeName hr⟩
  · exact ⟨rfl, rfl, rfl, rfl, Nat.le_refl _, Assembly.Grows.steps.withInstr hr,
      Assembly.KeepsConstants.steps.withInstr hr, Assembly.Sound.steps.withInstr hr, fun h =>
        h.withInstr hr⟩

theorem quiet_print (line : String) : Obeys Session.Quiet (Gen.print line) :=
  fun _ => ⟨rfl, rfl, rfl, rfl, Nat.le_refl _, .refl _, fun _ _ h => h, id, id⟩

theorem quiet : ClosedEmits (Obeys Session.Quiet) where
  pure := .pure .refl
  throw _ := .throw .refl _
  bind := .bind fun _ _ _ => .trans
  get hf _ := .get hf
  print _ := quiet_print _
  record _ _ := ⟨rfl, rfl, rfl, rfl, Nat.le_refl _, .refl _, fun _ _ h => h, id, id⟩
  countUp s := ⟨rfl, rfl, rfl, rfl, Nat.le_succ _, .refl _, fun _ _ h => h, id,
    fun h n r hr x hx k hk => Nat.le_succ_of_le (h n r hr x hx k hk)⟩
  emit _ := quiet_emit _
  terminate _ := quiet_emit _
  addConstant c := by
    refine .addItem .refl fun s hi => ?_
    exact ⟨rfl, rfl, rfl, rfl, Nat.le_refl _, Assembly.Grows.steps.add hi (by simp),
      Assembly.KeepsConstants.steps.add hi (by simp), Assembly.Sound.steps.add hi (by simp),
      fun h => h.addConstant hi⟩

theorem quiet_openFile (path : String) :
    Obeys Session.Quiet (modify fun s => { s with opened := s.opened ++ [path] } : Gen Unit) :=
  fun _ => ⟨rfl, rfl, rfl, rfl, Nat.le_refl _, .refl _, fun _ _ h => h, id, id⟩

/-- The session stays valid, and if the computation does not fail then `Q` holds. -/
def Secures {α : Type} (g : Gen α) (s : Session) (Q : α → Session → Prop) : Prop :=
  match g.run s with
  | (.ok a, t) => t.Valid ∧ Q a t
  | (.error _, t) => t.Valid

namespace Secures

variable {α β : Type} {s : Session} {g : Gen α} {Q : α → Session → Prop}

theorem pure {a : α} (hs : s.Valid) (h : Q a s) : Secures (Pure.pure a) s Q := ⟨hs, h⟩

theorem bind {f : α → Gen β} {R : β → Session → Prop} (h : Secures g s Q)
    (hf : ∀ a t, t.Valid → Q a t → Secures (f a) t R) : Secures (g >>= f) s R := by
  rw [Secures, Gen.run_bind]
  rw [Secures] at h
  generalize g.run s = result at h ⊢
  obtain ⟨r, t⟩ := result
  cases r with
  | error e => exact h
  | ok a => exact hf a t h.1 h.2

theorem get {f : Session → Gen β} {R : β → Session → Prop} (h : Secures (f s) s R) :
    Secures (MonadState.get >>= f) s R := h

theorem mono {Q' : α → Session → Prop} (h : Secures g s Q) (hQ : ∀ a t, t.Valid → Q a t → Q' a t) :
    Secures g s Q' := by
  rw [Secures] at h ⊢
  generalize g.run s = result at h ⊢
  obtain ⟨r, t⟩ := result
  cases r with
  | error e => exact h
  | ok a => exact ⟨h.1, hQ a t h.1 h.2⟩

theorem quiet (hg : Obeys Session.Quiet g) (hs : s.Valid) : Secures g s fun _ t => s.Quiet t := by
  have h := hg s
  rw [Secures]
  generalize g.run s = result at h ⊢
  obtain ⟨r, t⟩ := result
  cases r with
  | error e => exact h.valid hs
  | ok a => exact ⟨h.valid hs, h⟩

end Secures

end LimeLang
