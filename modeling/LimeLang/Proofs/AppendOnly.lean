import LimeLang.Proofs.ReachableSessions

/-! Code that is there stays as it is. Whatever is compiled next and however that ends, new globals,
blocks and instructions come behind the old ones, and the only old block that gets instructions is
the one where writing goes on. -/

namespace LimeLang

open Code

/-- Each member of the first list stands at its position in the second one too, as `R` allows. -/
def Continues {α : Type} (R : α → α → Prop) (xs ys : List α) : Prop :=
  ∀ (k : Nat) (x : α), xs[k]? = some x → ∃ y, ys[k]? = some y ∧ R x y

namespace Continues

variable {α β : Type} {R : α → α → Prop} {xs ys : List α}

theorem refl (hR : ∀ x, R x x) (xs : List α) : Continues R xs xs := fun _ x hx => ⟨x, hx, hR x⟩

theorem append (h : Continues R xs ys) (zs : List α) : Continues R xs (ys ++ zs) := by
  intro k x hx
  obtain ⟨y, hy, hxy⟩ := h k x hx
  have hk : k < ys.length := (List.getElem?_eq_some_iff.mp hy).1
  exact ⟨y, (List.getElem?_append_left hk).trans hy, hxy⟩

theorem map (h : Continues R xs ys) {f : α → α} (hf : ∀ x ∈ xs, ∀ y ∈ ys, R x y → R x (f y)) :
    Continues R xs (ys.map f) := by
  intro k x hx
  obtain ⟨y, hy, hxy⟩ := h k x hx
  have hR := hf x (List.mem_of_getElem? hx) y (List.mem_of_getElem? hy) hxy
  exact ⟨f y, by rw [List.getElem?_map, hy, Option.map_some], hR⟩

theorem mem (h : Continues R xs ys) {x : α} (hx : x ∈ xs) : ∃ y ∈ ys, R x y := by
  obtain ⟨k, hk⟩ := List.getElem?_of_mem hx
  obtain ⟨y, hy, hxy⟩ := h k x hk
  exact ⟨y, List.mem_of_getElem? hy, hxy⟩

theorem map_prefix (h : Continues R xs ys) {f : α → β} (hf : ∀ x y, R x y → f y = f x) :
    xs.map f <+: ys.map f := by
  rw [List.prefix_iff_getElem?]
  intro k hk
  have hlt : k < xs.length := by simpa using hk
  obtain ⟨y, hy, hxy⟩ := h k xs[k] (List.getElem?_eq_getElem hlt)
  rw [List.getElem?_map, hy, Option.map_some, hf _ _ hxy, List.getElem_map]

end Continues

namespace Code

/-- The same block. Only the one named `β` may have got more instructions. -/
structure Block.Extends (β : String) (b b' : Block) : Prop where
  name : b'.name = b.name
  code : b.instrs <+: b'.instrs
  other : b.name ≠ β → b' = b

/-- The same routine, with more blocks, and more instructions in the block named `β`. -/
structure Routine.Extends (β : String) (r r' : Routine) : Prop where
  name : r'.name = r.name
  signature : r'.ty = r.ty
  blocks : Continues (Block.Extends β) r.blocks r'.blocks

/-- The same global. Only the routine at `p` may have grown. -/
inductive Item.Extends (p : Option Place) : Item → Item → Prop
  | same (i : Item) : Extends p i i
  | grown {q : Place} {r r' : Routine} (hp : p = some q) (hq : q.routine = r.name)
      (h : r.Extends q.block r') : Extends p (.routine r) (.routine r')

def Assembly.Extends (p : Option Place) (a b : Assembly) :
    Prop := Continues (Item.Extends p) a.items b.items

section Growth

variable {p : Option Place} {β γ : String} {b : Block} {r r' : Routine} {i i' : Item}

theorem Block.Extends.refl (β : String) (b : Block) :
    b.Extends β b := ⟨rfl, List.prefix_rfl, fun _ => rfl⟩

theorem Routine.Extends.refl (β : String) (r : Routine) :
    r.Extends β r := ⟨rfl, rfl, .refl (.refl β) _⟩

theorem Routine.Extends.takeName (h : r.Extends β r') : r.Extends β r'.takeName.2 :=
  ⟨h.name, h.signature, h.blocks⟩

theorem Routine.Extends.addBlock (h : r.Extends β r') (name : String) :
    r.Extends β (r'.addBlock name).2 :=
  ⟨h.name, h.signature, h.blocks.append _⟩

theorem Routine.Extends.addInstr (h : r.Extends β r') (hγ : ∀ b ∈ r.blocks, b.name = γ → b.name = β)
    (i : Instr) : r.Extends β (r'.addInstr γ i) := by
  refine ⟨h.name, h.signature, h.blocks.map fun b hb b' _ hbb' => ?_⟩
  by_cases hname : b'.name = γ
  · have hβ : b.name = β := hγ b hb (hbb'.name ▸ hname)
    rw [if_pos hname]
    exact ⟨hbb'.name, hbb'.code.trans (List.prefix_append _ _), fun hne => absurd hβ hne⟩
  · rw [if_neg hname]
    exact hbb'

theorem Item.Extends.name_eq (h : Item.Extends p i i') : i'.name = i.name := by
  cases h with
  | same i => rfl
  | grown _ _ h => exact h.name

theorem Item.Extends.routine (h : Item.Extends p i (.routine r')) {q : Place} (hp : p = some q) :
    ∃ r, i = .routine r ∧ r.Extends q.block r' := by
  cases h with
  | same i => exact ⟨r', rfl, .refl _ _⟩
  | grown hp' _ h =>
    obtain rfl := Option.some.inj (hp.symm.trans hp')
    exact ⟨_, rfl, h⟩

theorem Item.Extends.grows {q : Place} (h : Item.Extends (some q) (.routine r) i') :
    ∃ r', i' = .routine r' ∧ r.Extends q.block r' := by
  cases h with
  | same => exact ⟨r, rfl, .refl _ _⟩
  | grown hp _ h => exact ⟨_, rfl, Option.some.inj hp ▸ h⟩

theorem Item.Extends.of_routine (h : Item.Extends p (.routine r) i') :
    ∃ r', i' = .routine r' ∧ r'.name = r.name ∧
      ∀ b ∈ r.blocks, ∃ b' ∈ r'.blocks, b'.name = b.name := by
  cases h with
  | same i => exact ⟨r, rfl, rfl, fun b hb => ⟨b, hb, rfl⟩⟩
  | grown _ _ h =>
    refine ⟨_, rfl, h.name, fun b hb => ?_⟩
    obtain ⟨b', hb', hbb'⟩ := h.blocks.mem hb
    exact ⟨b', hb', hbb'.name⟩

theorem Assembly.Extends.refl (p : Option Place) (a : Assembly) :
    a.Extends p a := Continues.refl .same _

end Growth

/-- Code at `q` touches nothing of `a` but the block at `p`. -/
def Assembly.Frees (a : Assembly) (p : Option Place) (q : Place) : Prop :=
  ∀ r, .routine r ∈ a.items → r.name = q.routine →
    ∃ p₀, p = some p₀ ∧ p₀.routine = q.routine ∧ ∀ b ∈ r.blocks, b.name = q.block →
      b.name = p₀.block

/-- The routine named `n` is new, or it is the one at `p`. -/
def Assembly.FreesRoutine (a : Assembly) (p : Option Place) (n : String) : Prop :=
  ∀ r, .routine r ∈ a.items → r.name = n → ∃ p₀, p = some p₀ ∧ p₀.routine = n

section Writing

variable {a b : Assembly} {p : Option Place} {q : Place} {n : String} {r : Routine}

theorem Assembly.Frees.here (a : Assembly) (q : Place) : a.Frees (some q) q :=
  fun _ _ _ => ⟨q, rfl, rfl, fun _ _ h => h⟩

theorem Assembly.Frees.inRoutine (h : a.Frees p q) : a.FreesRoutine p q.routine := by
  intro r hr hn
  obtain ⟨p₀, hp, hp₀, -⟩ := h r hr hn
  exact ⟨p₀, hp, hp₀⟩

theorem Assembly.Frees.of_new (h : a.item? q.routine = none) : a.Frees p q := by
  intro r hr hn
  exact absurd (List.find?_eq_none.mp h _ hr) (by simp [Item.name, hn])

theorem Assembly.Frees.trans {p' : Option Place} (hab : a.Extends p b) (h : b.Frees p' q)
    (hp' : ∀ q', p' = some q' → a.Frees p q') : a.Frees p q := by
  intro r hr hn
  obtain ⟨i, hi, hri⟩ := Continues.mem hab hr
  obtain ⟨r', rfl, hname, hblocks⟩ := hri.of_routine
  obtain ⟨p₁, hp₁, hroutine, hb₁⟩ := h r' hi (hname.trans hn)
  obtain ⟨p₀, hp₀, hroutine', hb₀⟩ := hp' p₁ hp₁ r hr (hn.trans hroutine.symm)
  refine ⟨p₀, hp₀, hroutine'.trans hroutine, fun b hb hname => hb₀ b hb ?_⟩
  obtain ⟨b', hb', hsame⟩ := hblocks b hb
  rw [← hsame]
  exact hb₁ b' hb' (hsame.trans hname)

theorem Assembly.Extends.setRoutine (hab : a.Extends p b) (hb : b.Sound)
    (hr : b.routine? n = some r) (hn : a.FreesRoutine p n) {r' : Routine}
    (hr' : ∀ r₀ q, .routine r₀ ∈ a.items → p = some q → q.routine = n → r₀.Extends q.block r →
      r₀.Extends q.block r') :
    a.Extends p (b.modifyRoutine n fun _ => r') := by
  have hname : r.name = n := Assembly.routine?_name hr
  refine Continues.map hab fun i hi i' hi' hii' => ?_
  cases i' with
  | constant c => exact hii'
  | routine r₁ =>
    by_cases h : r₁.name = n
    · obtain rfl := hb.eq_of_mem hr hi' h
      have hin : i.name = n := hii'.name_eq.symm.trans hname
      dsimp only
      rw [if_pos h]
      cases hi₀ : i with
      | constant c =>
        rw [hi₀] at hii'
        cases hii'
      | routine r₀ =>
        rw [hi₀] at hi hin
        obtain ⟨q, hp, hq⟩ := hn r₀ hi hin
        obtain ⟨r₂, hr₂, hext⟩ := hii'.routine hp
        obtain rfl := Item.routine.inj (hi₀.symm.trans hr₂)
        exact .grown hp (hq.trans hin.symm) (hr' r₀ q hi hp hq hext)
    · dsimp only
      rwa [if_neg h]

theorem Assembly.Extends.takeName (hab : a.Extends p b) (hb : b.Sound) (hr : b.routine? n = some r)
    (hn : a.FreesRoutine p n) : a.Extends p (b.modifyRoutine n fun _ => r.takeName.2) :=
  hab.setRoutine hb hr hn fun _ _ _ _ _ h => h.takeName

theorem Assembly.Extends.withBlock (hab : a.Extends p b) (hb : b.Sound)
    (hr : b.routine? r.name = some r)
    (hn : a.FreesRoutine p r.name) (name : String) : a.Extends p (b.withBlock r name) :=
  hab.setRoutine hb hr hn fun _ _ _ _ _ h => h.addBlock name

theorem Assembly.withInstr_eq (hr : a.routine? q.routine = some r) (op : Op) : a.withInstr q r op =
    a.modifyRoutine q.routine fun _ => r.takeName.2.addInstr q.block ⟨r.takeName.1, op⟩ := by
  have hname : r.takeName.2.name = q.routine :=
    show r.name = q.routine from Assembly.routine?_name hr
  rw [withInstr, modifyRoutine, modifyRoutine, modifyRoutine, List.map_map]
  congr 1
  apply List.map_congr_left
  intro i _
  cases i with
  | constant c => rfl
  | routine r₁ =>
    by_cases h : r₁.name = q.routine
    · simp [h, hname]
    · simp [h]

theorem Assembly.Extends.withInstr (hab : a.Extends p b) (hb : b.Sound)
    (hr : b.routine? q.routine = some r)
    (hq : a.Frees p q) (op : Op) : a.Extends p (b.withInstr q r op) := by
  rw [Assembly.withInstr_eq hr]
  refine hab.setRoutine hb hr hq.inRoutine fun r₀ q₀ hr₀ hp hq₀ h => ?_
  obtain ⟨q₁, hp₁, -, hblocks⟩ := hq r₀ hr₀ (h.name.symm.trans (Assembly.routine?_name hr))
  obtain rfl := Option.some.inj (hp.symm.trans hp₁)
  exact h.takeName.addInstr hblocks _

theorem Assembly.Extends.add (hab : a.Extends p b) (i : Item) : a.Extends p (b.add i) :=
  Continues.append hab [i]

theorem Assembly.Extends.code (hab : a.Extends p b) (hb : b.Sound) {is : List Instr}
    (hq : a.code? q = some is) (hp : p ≠ some q) : b.code? q = some is := by
  obtain ⟨r, hr, hblock⟩ := Option.bind_eq_some_iff.mp hq
  obtain ⟨c, hc, rfl⟩ := Option.map_eq_some_iff.mp hblock
  have hname : r.name = q.routine := Assembly.routine?_name hr
  have hcname : c.name = q.block := Routine.block?_name hc
  have hcmem : c ∈ r.blocks := List.mem_of_find?_eq_some hc
  obtain ⟨i, hi, hri⟩ := Continues.mem hab (Assembly.mem_of_routine? hr)
  have hplace : q = ⟨r.name, c.name⟩ := by rw [hname, hcname]
  cases hri with
  | same =>
    rw [hplace]
    exact hb.code?_of_mem hi hcmem
  | grown hp' hq' h =>
    rename_i q' r'
    obtain ⟨c', hc', hcc'⟩ := h.blocks.mem hcmem
    have hne : c.name ≠ q'.block := by
      intro heq
      apply hp
      rw [hp', hplace, ← hq', heq]
    rw [hcc'.other hne] at hc'
    rw [hplace, ← h.name]
    exact hb.code?_of_mem hi hc'

theorem Assembly.Extends.code_isSome (hab : a.Extends p b) (hb : b.Sound)
    (hq : (a.code? q).isSome = true) : (b.code? q).isSome = true := by
  obtain ⟨is, his⟩ := Option.isSome_iff_exists.mp hq
  obtain ⟨r, hr, hblock⟩ := Option.bind_eq_some_iff.mp his
  obtain ⟨c, hc, -⟩ := Option.map_eq_some_iff.mp hblock
  obtain ⟨i, hi, hri⟩ := Continues.mem hab (Assembly.mem_of_routine? hr)
  obtain ⟨r', rfl, hname, hblocks⟩ := hri.of_routine
  obtain ⟨c', hc', hsame⟩ := hblocks c (List.mem_of_find?_eq_some hc)
  have hplace : q = ⟨r'.name, c'.name⟩ := by
    rw [hname, hsame, Assembly.routine?_name hr, Routine.block?_name hc]
  rw [hplace, hb.code?_of_mem hi hc']
  rfl

end Writing

end Code

/-- Names are used once, and the current block is there. -/
structure Session.Orderly (s : Session) : Prop where
  sound : s.assembly.Sound
  placed : ∀ p, s.place = some p → (s.assembly.code? p).isSome = true

/-- All of `a` is still there, only the block at `p` has got more instructions, and the next ones
will not change that. -/
structure Session.Spares (a : Assembly) (p : Option Place) (s : Session) :
    Prop extends s.Orderly where
  kept : a.Extends p s.assembly
  free : ∀ q, s.place = some q → a.Frees p q

/-- What the one session spares, the other one spares. -/
def Session.Preserves (s t : Session) : Prop := ∀ a p, s.Spares a p → t.Spares a p

namespace Session

variable {s t u : Session} {q : Place}

theorem Orderly.spares (hs : s.Orderly) : s.Spares s.assembly s.place :=
  ⟨hs, .refl _ _, fun q hq => hq ▸ .here _ q⟩

theorem Valid.orderly (hs : s.Valid) : s.Orderly := ⟨hs.sound, hs.placed⟩

theorem Preserves.refl (s : Session) : s.Preserves s := fun _ _ h => h

theorem Preserves.trans (h : s.Preserves t) (h' : t.Preserves u) : s.Preserves u :=
  fun a p hs => h' a p (h a p hs)

theorem Preserves.spares (h : s.Preserves t) (hs : s.Orderly) : t.Spares s.assembly s.place :=
  h _ _ hs.spares

theorem Preserves.orderly (h : s.Preserves t) (hs : s.Orderly) :
    t.Orderly := (h.spares hs).toOrderly

/-- Blocks other than the current one are not written to. -/
theorem Preserves.code (h : s.Preserves t) (hs : s.Orderly) {is : List Instr}
    (hq : s.assembly.code? q = some is) (hplace : s.place ≠ some q) :
      t.assembly.code? q = some is :=
  (h.spares hs).kept.code (h.orderly hs).sound hq hplace

theorem Preserves.of_eq (hassembly : t.assembly = s.assembly) (hplace : t.place = s.place) :
    s.Preserves t := by
  intro a p hs
  refine ⟨⟨hassembly ▸ hs.sound, ?_⟩, hassembly ▸ hs.kept, hplace ▸ hs.free⟩
  rw [hassembly, hplace]
  exact hs.placed

/-- Writing may go on at a place that nothing from before is hurt by. -/
theorem Preserves.move (h : s.Preserves t) (hq : s.assembly.Frees s.place q)
    (hcode : (t.assembly.code? q).isSome = true) : s.Preserves { t with place := some q } := by
  intro a p hsp
  have htp := h a p hsp
  refine ⟨⟨htp.sound, fun p' hp' => Option.some.inj hp' ▸ hcode⟩, htp.kept, fun p' hp' => ?_⟩
  rw [← Option.some.inj hp']
  exact hq.trans hsp.kept hsp.free

theorem Preserves.back (h : s.Preserves t) (hs : s.Orderly) :
    s.Preserves { t with place := s.place } := by
  intro a p hsp
  have htp := h a p hsp
  refine ⟨⟨htp.sound, fun q hq => ?_⟩, htp.kept, hsp.free⟩
  exact (h.spares hs).kept.code_isSome htp.sound (hs.placed q hq)

theorem Preserves.frees (h : s.Preserves t) (hs : s.Orderly) (hq : t.assembly.Frees t.place q) :
    s.assembly.Frees s.place q := hq.trans (h.spares hs).kept (h.spares hs).free

theorem Spares.modified {a : Assembly} {p : Option Place} (hs : s.Spares a p)
    (hplace : t.place = s.place) (hsound : t.assembly.Sound) (hgrows : s.assembly.Grows t.assembly)
    (hkept : a.Extends p t.assembly) : t.Spares a p := by
  refine ⟨⟨hsound, fun q hq => hgrows.code_isSome (hs.placed q (hplace ▸ hq))⟩, hkept, ?_⟩
  rw [hplace]
  exact hs.free

end Session

/-- The computation only adds to what is there, however it ends, and starts no block that is in
use. -/
def Appending {α : Type} (g : Gen α) : Prop :=
  ∀ s : Session, s.Orderly → s.Preserves (g.run s).2 ∧ (g.run s).1 ≠ .error .blockInUse

namespace Appending

variable {α β : Type}

theorem pure (a : α) : Appending (Pure.pure a : Gen α) :=
  fun s _ => ⟨.refl s, by simp [Gen.run_pure]⟩

theorem throw {f : Failure} (hf : f ≠ .blockInUse) : Appending (MonadExcept.throw f : Gen α) :=
  fun s _ => ⟨.refl s, fun h => hf (Except.error.inj h)⟩

theorem bind {x : Gen α} {f : α → Gen β} (hx : Appending x) (hf : ∀ a, Appending (f a)) :
    Appending (x >>= f) := by
  intro s hs
  obtain ⟨hst, hne⟩ := hx s hs
  rw [Gen.run_bind]
  generalize x.run s = result at hst hne
  obtain ⟨r, t⟩ := result
  cases r with
  | error e => exact ⟨hst, fun h => hne (congrArg _ (Except.error.inj h))⟩
  | ok a =>
    obtain ⟨htu, hne'⟩ := hf a t (hst.orderly hs)
    exact ⟨hst.trans htu, hne'⟩

theorem get {f : Session → Gen β} (hf : ∀ s, Appending (f s)) : Appending (MonadState.get >>= f) :=
  fun s => hf s s

theorem modified {f : Session → Session} (hf : ∀ s, (f s).assembly = s.assembly ∧
    (f s).place = s.place) : Appending (modify f : Gen Unit) :=
  fun s _ => ⟨.of_eq (hf s).1 (hf s).2, by simp [Gen.run_modify]⟩

theorem changeLoops (f : Loops → Loops) :
    Appending (modify fun s => { s with loops := f s.loops } : Gen Unit) :=
    .modified fun _ => ⟨rfl, rfl⟩

theorem emit (op : Op) : Appending (Gen.emit op) := by
  intro s hs
  cases hp : s.place with
  | none =>
    rw [Gen.run_emit_nowhere hp]
    exact ⟨.refl s, by simp⟩
  | some q =>
    obtain ⟨is, his⟩ := Option.isSome_iff_exists.mp (hs.placed q hp)
    obtain ⟨r, hr, -⟩ := Option.bind_eq_some_iff.mp his
    rw [Gen.run_emit_at hp hr]
    split_ifs
    · refine ⟨fun a p hsp => ?_, by simp⟩
      exact hsp.modified rfl (hsp.sound.takeName hr) (Assembly.Grows.steps.takeName hr)
        (hsp.kept.takeName hsp.sound hr (hsp.free q hp).inRoutine)
    · refine ⟨fun a p hsp => ?_, by simp⟩
      exact hsp.modified rfl (hsp.sound.withInstr hr) (Assembly.Grows.steps.withInstr hr)
        (hsp.kept.withInstr hsp.sound hr (hsp.free q hp) op)

theorem addItem {i : Item} (hblocks : ∀ r, i = .routine r → r.blocks = []) :
    Appending (Gen.addItem i) := by
  intro s hs
  cases hi : s.assembly.item? i.name with
  | some j =>
    rw [Gen.run_addItem_taken hi]
    exact ⟨.refl s, by simp⟩
  | none =>
    rw [Gen.run_addItem hi]
    refine ⟨fun a p hsp => ?_, by simp⟩
    exact hsp.modified rfl (hsp.sound.add hi hblocks) (Assembly.Grows.steps.add hi hblocks)
      (hsp.kept.add i)

theorem print (line : String) : Appending (Gen.print line) := .modified fun _ => ⟨rfl, rfl⟩

end Appending

theorem appending : ClosedEmits Appending where
  pure := .pure
  throw hf := .throw hf.2.1
  bind := .bind
  get hf _ := .get hf
  print _ := .print _
  record _ := .modified fun _ => ⟨rfl, rfl⟩
  countUp := .bind (.modified fun _ => ⟨rfl, rfl⟩) fun _ => .get fun _ => .pure _
  emit _ := .emit _
  terminate _ := .emit _
  addConstant _ := .addItem (by simp)

theorem appendingScopes : ClosedScopes Appending where
  toClosed := appending.toClosed
  define _ _ := .modified fun _ => ⟨rfl, rfl⟩
  enterScope := .modified fun _ => ⟨rfl, rfl⟩
  leaveScopes _ := .modified fun _ => ⟨rfl, rfl⟩

/-- The computation only adds to what `s₀` had, however it ends, and if it does not fail then `Q`
holds. -/
def Adds (s₀ : Session) {α : Type} (g : Gen α) (s : Session) (Q : α → Session → Prop) : Prop :=
  Leads g s (fun a t => s₀.Preserves t ∧ Q a t) fun f t => f ≠ .blockInUse ∧ s₀.Preserves t

namespace Adds

variable {α β : Type} {s₀ s : Session} {g : Gen α} {Q : α → Session → Prop}

theorem bind {f : α → Gen β} {R : β → Session → Prop} (h : Adds s₀ g s Q)
    (hf : ∀ a t, s₀.Preserves t → Q a t → Adds s₀ (f a) t R) : Adds s₀ (g >>= f) s R :=
  Leads.bind h fun a t hQ => hf a t hQ.1 hQ.2

theorem get {f : Session → Gen β} {R : β → Session → Prop} (h : Adds s₀ (f s) s R) :
    Adds s₀ (MonadState.get >>= f) s R := h

theorem mono {R : α → Session → Prop} (h : Adds s₀ g s Q) (hQR : ∀ a t, Q a t → R a t) :
    Adds s₀ g s R :=
  Leads.mono h fun a t hQ => ⟨hQ.1, hQR a t hQ.2⟩

theorem of_appending (hg : Appending g) (h₀ : s₀.Orderly) (h : s₀.Preserves s) :
    Adds s₀ g s fun _ t => s.Preserves t := by
  obtain ⟨hst, hne⟩ := hg s (h.orderly h₀)
  refine .of_run (fun a t hrun => ?_) fun f t hrun => ?_
  · rw [hrun] at hst
    exact ⟨h.trans hst, hst⟩
  · rw [hrun] at hst hne
    exact ⟨fun hf => hne (congrArg _ hf), h.trans hst⟩

theorem toAppending (h : ∀ s : Session, s.Orderly → Adds s g s Q) : Appending g := by
  intro s hs
  cases hrun : g.run s with
  | mk r t =>
    cases r with
    | error f =>
      have hf := (h s hs).error hrun
      exact ⟨hf.2, fun heq => hf.1 (Except.error.inj heq)⟩
    | ok a => exact ⟨((h s hs).ok hrun).1, by simp⟩

end Adds

section Blocks

variable {s₀ s t : Session} {q : Place}

theorem Session.Preserves.withBlock (h : s₀.Preserves s) {r : Routine}
    (hr : s.assembly.routine? r.name = some r) (name : String)
    (hfree : ∀ a p, s₀.Spares a p → a.FreesRoutine p r.name) :
    s₀.Preserves { s with assembly := s.assembly.withBlock r name } := by
  intro a p h₀
  have hs := h a p h₀
  exact hs.modified rfl (hs.sound.withBlock hr) (Assembly.Grows.steps.withBlock hr)
    (hs.kept.withBlock hs.sound hr (hfree a p h₀) name)

/-- A new block, in which nothing has been written and nothing is being written. -/
structure Session.Appends (s₀ s : Session) (q : Place) (t : Session) : Prop where
  preserves : s.Preserves t
  free : s₀.assembly.Frees s₀.place q
  new : s.assembly.code? q = none
  empty : t.assembly.code? q = some []
  other : t.place ≠ some q

theorem Session.Appends.ne {q' : Place} {u : Session} (h : s₀.Appends s q t)
    (h' : s₀.Appends t q' u) : q' ≠ q := by
  rintro rfl
  exact absurd (h.empty.symm.trans h'.new) (by simp)

/-- A new block stays empty until writing goes on there. -/
theorem Session.Appends.waits {u : Session} (h : s₀.Appends s q t) (ht : t.Orderly)
    (htu : t.Preserves u) : u.assembly.code? q = some [] := htu.code ht h.empty h.other

theorem addBlock_adds (h₀ : s₀.Orderly) (h : s₀.Preserves s) (name : String) :
    Adds s₀ (Gen.addBlock name) s (s₀.Appends s) := by
  have hs := h.orderly h₀
  refine .get ?_
  cases hp : s.place with
  | none => exact ⟨by simp, h⟩
  | some p =>
    obtain ⟨is, his⟩ := Option.isSome_iff_exists.mp (hs.placed p hp)
    obtain ⟨r, hr, -⟩ := Option.bind_eq_some_iff.mp his
    have hn : r.name = p.routine := Assembly.routine?_name hr
    have hr' : s.assembly.routine? r.name = some r := hn ▸ hr
    have hfree : ∀ a p', s.Spares a p' → a.FreesRoutine p' r.name :=
      fun a p' hsp => hn ▸ (hsp.free p hp).inRoutine
    have hpreserves := Session.Preserves.withBlock (.refl s) hr' name hfree
    have hnew := Assembly.code?_new (n := name) hs.sound hr'
    dsimp only
    rw [Adds, Leads, Gen.run_addBlockTo hr, ← hn]
    refine ⟨h.trans hpreserves, hpreserves, h.frees h₀ ?_, hnew, ?_, ?_⟩
    · intro r' hmem hname
      obtain rfl := hs.sound.eq_of_mem hr' hmem hname
      refine ⟨p, hp, hn.symm, fun b hb hblock => ?_⟩
      have hcode := hs.sound.code?_of_mem hmem hb
      rw [hblock, hnew] at hcode
      cases hcode
    · rw [Assembly.code?_withBlock hs.sound hr', if_pos rfl]
    · rw [hp]
      intro heq
      rw [Option.some.inj heq] at his
      rw [his] at hnew
      cases hnew

theorem addRoutine_adds (h₀ : s₀.Orderly) (h : s₀.Preserves s) {r : Routine} (hr : r.blocks = []) :
    Adds s₀ (Gen.addItem (.routine r)) s fun _ t =>
      (∀ q : Place, q.routine = r.name → s₀.assembly.Frees s₀.place q) ∧
        t.assembly.routine? r.name = some r := by
  have hblocks : ∀ r', Item.routine r = .routine r' →
    r'.blocks = [] := fun r' hr' => Item.routine.inj hr' ▸ hr
  have hadd := Adds.of_appending (.addItem hblocks) h₀ h
  cases hi : s.assembly.item? (Item.routine r).name with
  | some j =>
    rw [Adds, Leads, Gen.run_addItem_taken hi]
    exact ⟨by simp, h⟩
  | none =>
    rw [Adds, Leads, Gen.run_addItem hi] at hadd ⊢
    refine ⟨hadd.1, fun q hq => h.frees h₀ (.of_new ?_), ?_⟩
    · rw [hq]
      exact hi
    · exact Assembly.routine?_add_self hi

theorem addEntry_adds (h₀ : s₀.Orderly) (h : s₀.Preserves s) {r : Routine} {n : String}
    (hr : s.assembly.routine? n = some r) (hfree : ∀ q : Place, q.routine = n →
    s₀.assembly.Frees s₀.place q) (name : String) : Adds s₀ (Gen.addBlockTo n name) s fun q t =>
      s₀.assembly.Frees s₀.place q ∧ (t.assembly.code? q).isSome = true := by
  obtain rfl := Assembly.routine?_name hr
  rw [Adds, Leads, Gen.run_addBlockTo hr]
  refine ⟨h.withBlock hr name fun a p hsp => ?_, hfree _ rfl, ?_⟩
  · exact ((hfree ⟨r.name, name⟩ rfl).trans hsp.kept hsp.free).inRoutine
  · dsimp only
    rw [Assembly.code?_withBlock (h.orderly h₀).sound hr, if_pos rfl]
    rfl

theorem moveTo_adds (h : s₀.Preserves s) (hq : s₀.assembly.Frees s₀.place q)
    (hcode : s.assembly.code? q = some []) :
    Adds s₀ (Gen.moveTo (some q)) s fun _ t => t = { s with place := some q } :=
  ⟨h.move hq (by rw [hcode]; rfl), rfl⟩

theorem moveToStart_adds (h : s₀.Preserves s) (hq : s₀.assembly.Frees s₀.place q)
    (hcode : s.assembly.code? q = some []) :
    Adds s₀ (Gen.moveToStart q) s fun _ t => t = { s with place := some q } := by
  rw [Adds, Leads, Gen.run_moveToStart, if_pos hcode]
  exact moveTo_adds h hq hcode

theorem branchPlace_adds (h : s₀.Preserves s) : Adds s₀ Gen.branchPlace s fun _ t => t = s := by
  refine .get ?_
  cases s.place with
  | none => exact ⟨by simp, h⟩
  | some p => exact ⟨h, rfl⟩

end Blocks

section Statements

variable {e : Edition} {importer : String → Gen Unit} {c : Expr} {body alternative : List Stmt}

/-- The body of a branch. The blocks that wait behind it stay empty. -/
theorem arm_adds {s₀ s : Session} {k : Gen Unit} {Q : Unit → Session → Prop} {q after : Place}
    (hbody : Appending (Gen.statements e importer body)) (h₀ : s₀.Orderly) (h : s₀.Preserves s)
    (hq : s₀.assembly.Frees s₀.place q) (hcode : s.assembly.code? q = some [])
    (hk : ∀ t, s₀.Preserves t →
      (∀ q', s.assembly.code? q' = some [] → q' ≠ q → t.assembly.code? q' = some []) →
      Adds s₀ k t Q) :
    Adds s₀ (do
      Gen.moveTo (some q)
      Gen.statements e importer body
      Gen.closeWith after
      k) s Q := by
  refine (moveTo_adds h hq hcode).bind ?_
  rintro _ s₁ h₁ rfl
  refine (Adds.of_appending hbody h₀ h₁).bind fun _ s₂ h₂ h₁₂ => ?_
  refine (Adds.of_appending (appending.closeWith after) h₀ h₂).bind fun _ s₃ h₃ h₂₃ => ?_
  refine hk s₃ h₃ fun q' hq' hne => ?_
  exact (h₁₂.trans h₂₃).code (h₁.orderly h₀) hq' fun heq => hne (Option.some.inj heq).symm

theorem ifThen_appending (hbody : Appending (Gen.statements e importer body)) :
    Appending (Gen.effect e importer (.ifThen c body)) := by
  refine Adds.toAppending (Q := fun _ _ => True) fun s hs => ?_
  rw [Gen.effect]
  refine (Adds.of_appending (appending.value e c) hs (.refl s)).bind fun test s₁ h₁ _ => ?_
  refine (branchPlace_adds h₁).bind ?_
  rintro p _ - rfl
  refine (addBlock_adds hs h₁ _).bind fun onTrue s₂ h₂ htrue => ?_
  refine (addBlock_adds hs h₂ _).bind fun after s₃ h₃ hafter => ?_
  refine (Adds.of_appending (appending.branchOn _ _ _) hs h₃).bind fun _ s₄ h₄ h₃₄ => ?_
  have htrue₄ := htrue.waits (h₂.orderly hs) (hafter.preserves.trans h₃₄)
  have hafter₄ := hafter.waits (h₃.orderly hs) h₃₄
  refine arm_adds hbody hs h₄ htrue.free htrue₄ fun s₅ h₅ hwaits => ?_
  exact ⟨h₅.move hafter.free (by rw [hwaits after hafter₄ (htrue.ne hafter)]; rfl), trivial⟩

theorem ifElse_appending (hbody : Appending (Gen.statements e importer body))
    (halternative : Appending (Gen.statements e importer alternative)) :
    Appending (Gen.effect e importer (.ifElse c body alternative)) := by
  refine Adds.toAppending (Q := fun _ _ => True) fun s hs => ?_
  rw [Gen.effect]
  refine (Adds.of_appending (appending.value e c) hs (.refl s)).bind fun test s₁ h₁ _ => ?_
  refine (branchPlace_adds h₁).bind ?_
  rintro p _ - rfl
  refine (addBlock_adds hs h₁ _).bind fun onTrue s₂ h₂ htrue => ?_
  refine (addBlock_adds hs h₂ _).bind fun onFalse s₃ h₃ hfalse => ?_
  refine (addBlock_adds hs h₃ _).bind fun after s₄ h₄ hafter => ?_
  refine (Adds.of_appending (appending.branchOn _ _ _) hs h₄).bind fun _ s₅ h₅ h₄₅ => ?_
  have h₃₅ := hafter.preserves.trans h₄₅
  have htrue₅ := htrue.waits (h₂.orderly hs) (hfalse.preserves.trans h₃₅)
  have hfalse₅ := hfalse.waits (h₃.orderly hs) h₃₅
  have hafter₅ := hafter.waits (h₄.orderly hs) h₄₅
  have hafter_ne : after ≠ onTrue := by
    rintro rfl
    have htrue₃ := htrue.waits (h₂.orderly hs) hfalse.preserves
    exact absurd (htrue₃.symm.trans hafter.new) (by simp)
  refine arm_adds hbody hs h₅ htrue.free htrue₅ fun s₆ h₆ hwaits => ?_
  refine arm_adds halternative hs h₆ hfalse.free (hwaits onFalse hfalse₅ (htrue.ne hfalse))
    fun s₇ h₇ hwaits' => ?_
  have hafter₇ := hwaits' after (hwaits after hafter₅ hafter_ne) (hfalse.ne hafter)
  exact ⟨h₇.move hafter.free (by rw [hafter₇]; rfl), trivial⟩

theorem whileLoop_appending (hbody : Appending (Gen.statements e importer body)) :
    Appending (Gen.statement e importer (.whileLoop c body)) := by
  refine Adds.toAppending (Q := fun _ _ => True) fun s hs => ?_
  rw [Gen.statement]
  refine (Adds.of_appending (appending.value e c) hs (.refl s)).bind fun test s₁ h₁ _ => ?_
  refine (Adds.of_appending appending.countUp hs h₁).bind fun n s₂ h₂ _ => ?_
  refine (addBlock_adds hs h₂ _).bind fun entry s₃ h₃ hentry => ?_
  refine (addBlock_adds hs h₃ _).bind fun exit s₄ h₄ hexit => ?_
  refine (Adds.of_appending (appending.branchOn _ _ _) hs h₄).bind fun _ s₅ h₅ h₄₅ => ?_
  have hentry₅ := hentry.waits (h₃.orderly hs) (hexit.preserves.trans h₄₅)
  have hexit₅ := hexit.waits (h₄.orderly hs) h₄₅
  refine (moveToStart_adds h₅ hentry.free hentry₅).bind ?_
  rintro _ s₆ h₆ rfl
  refine (Adds.of_appending hbody hs h₆).bind fun _ s₇ h₇ h₆₇ => ?_
  refine (Adds.of_appending (appending.value e c) hs h₇).bind fun test s₈ h₈ h₇₈ => ?_
  refine (Adds.of_appending (appending.branchOn _ _ _) hs h₈).bind fun _ s₉ h₉ h₈₉ => ?_
  have hexit₉ := (h₆₇.trans (h₇₈.trans h₈₉)).code (h₆.orderly hs) hexit₅
    fun heq => hentry.ne hexit (Option.some.inj heq).symm
  exact (moveToStart_adds h₉ hexit.free hexit₉).mono fun _ _ _ => trivial

theorem forLoop_appending {init next : Stmt} (hinit : Appending (Gen.statement e importer init))
    (hbody : Appending (Gen.statements e importer body))
    (hnext : Appending (Gen.statement e importer next)) :
    Appending (Gen.statement e importer (.forLoop init c next body)) := by
  refine Adds.toAppending (Q := fun _ _ => True) fun s hs => ?_
  rw [Gen.statement]
  refine (Adds.of_appending appendingScopes.enterScope hs (.refl s)).bind fun _ s₁ h₁ _ => ?_
  refine (Adds.of_appending hinit hs h₁).bind fun _ s₂ h₂ _ => ?_
  refine (Adds.of_appending appending.countUp hs h₂).bind fun n s₃ h₃ _ => ?_
  refine (addBlock_adds hs h₃ _).bind fun entry s₄ h₄ hentry => ?_
  refine (addBlock_adds hs h₄ _).bind fun exit s₅ h₅ hexit => ?_
  refine (Adds.of_appending (.changeLoops fun l => l.enter entry exit) hs h₅).bind
    fun _ s₆ h₆ h₅₆ => ?_
  refine (Adds.of_appending (appending.branch _) hs h₆).bind fun _ s₇ h₇ h₆₇ => ?_
  have h₅₇ := h₅₆.trans h₆₇
  have hentry₇ := hentry.waits (h₄.orderly hs) (hexit.preserves.trans h₅₇)
  have hexit₇ := hexit.waits (h₅.orderly hs) h₅₇
  refine (moveToStart_adds h₇ hentry.free hentry₇).bind ?_
  rintro _ s₈ h₈ rfl
  refine (Adds.of_appending hbody hs h₈).bind fun _ s₉ h₉ h₈₉ => ?_
  refine (Adds.of_appending hnext hs h₉).bind fun _ s₁₀ h₁₀ h₉₁₀ => ?_
  refine (Adds.of_appending (appending.value e c) hs h₁₀).bind fun test s₁₁ h₁₁ h₁₀₁₁ => ?_
  refine (Adds.of_appending (appending.branchOn _ _ _) hs h₁₁).bind fun _ s₁₂ h₁₂ h₁₁₁₂ => ?_
  have h₈₁₂ := (h₈₉.trans h₉₁₀).trans (h₁₀₁₁.trans h₁₁₁₂)
  have hexit₁₂ := h₈₁₂.code (h₈.orderly hs) hexit₇
    fun heq => hentry.ne hexit (Option.some.inj heq).symm
  refine (moveToStart_adds h₁₂ hexit.free hexit₁₂).bind fun _ s₁₃ h₁₃ _ => ?_
  exact (Adds.of_appending (.changeLoops Loops.leave) hs h₁₃).mono fun _ _ _ => trivial

theorem openRoutine_adds {s : Session} (hs : s.Orderly) (name : String) (params : List Param)
    (type : Literal) : Adds s (Gen.openRoutine e name params type) s fun _ _ => True := by
  refine (Adds.of_appending (appending.typesNamed e _) hs (.refl s)).bind fun types s₁ h₁ _ => ?_
  refine (Adds.of_appending (appending.typeNamed e _) hs h₁).bind fun result s₂ h₂ _ => ?_
  refine (addRoutine_adds hs h₂ rfl).bind ?_
  rintro _ s₃ h₃ ⟨hfree, hr⟩
  refine (addEntry_adds hs h₃ hr hfree _).bind ?_
  rintro entry s₄ h₄ ⟨hentry, hcode⟩
  have hstart : Adds s (Gen.startBuilder entry) s₄ fun _ _ => True :=
    ⟨(h₄.move hentry hcode).trans (.of_eq rfl rfl), trivial⟩
  refine hstart.bind fun _ s₅ h₅ _ => ?_
  refine (Adds.of_appending (appending.slots _) hs h₅).bind fun ptrs s₆ h₆ _ => ?_
  refine (Adds.of_appending appendingScopes.enterScope hs h₆).bind fun _ s₇ h₇ _ => ?_
  refine (Adds.of_appending (appendingScopes.defineParams _) hs h₇).bind fun _ s₈ h₈ _ => ?_
  refine (Adds.of_appending (appendingScopes.define _ _) hs h₈).bind fun _ s₉ h₉ _ => ?_
  exact ⟨h₉, trivial⟩

theorem fn_appending {name : String} {params : List Param} {type : Literal}
    (hbody : Appending (Gen.statements e importer body)) :
    Appending (Gen.statement e importer (.fn name (some params) type body)) := by
  refine Adds.toAppending (Q := fun _ _ => True) fun s hs => ?_
  rw [Gen.statement]
  refine .get (.get (.get ?_))
  refine (openRoutine_adds hs name params type).bind fun b s₁ h₁ _ => ?_
  refine (Adds.of_appending hbody hs h₁).bind fun _ s₂ h₂ _ => ?_
  refine (Adds.of_appending (appendingScopes.leaveScopes _) hs h₂).bind fun _ s₃ h₃ _ => ?_
  refine (Adds.of_appending (appendingScopes.define _ _) hs h₃).bind fun _ s₄ h₄ _ => ?_
  exact ⟨(h₄.back hs).trans (.of_eq rfl rfl), trivial⟩

mutual

theorem effect_appending (himport : ∀ path, Appending (importer path)) :
    ∀ x : Expr, Appending (Gen.effect e importer x)
  | .missing => by
    rw [Gen.effect]
    exact .throw (by simp)
  | .int _ | .float _ | .ident _ | .bool _ | .str _ | .prefixed .. => by
    rw [Gen.effect]
    exact .pure _
  | .infixed .. | .call .. | .openCall _ => by
    rw [Gen.effect]
    exact .bind (appending.value _ _) fun _ => .pure _
  | .stepped .. => by
    rw [Gen.effect]
    exact appending.step _ _
  | .ifThen c body => ifThen_appending (statements_appending himport body)
  | .ifElse c body alternative =>
    ifElse_appending (statements_appending himport body) (statements_appending himport alternative)

theorem statement_appending (himport : ∀ path, Appending (importer path)) :
    ∀ st : Stmt, Appending (Gen.statement e importer st)
  | .missing => by
    rw [Gen.statement]
    exact .throw (by simp)
  | .expr x | .bare x => by
    rw [Gen.statement]
    exact effect_appending himport x
  | .letVar .. => by
    rw [Gen.statement]
    exact .bind (appending.value _ _) fun _ => appendingScopes.letVar _ _ _
  | .ret x => by
    rw [Gen.statement]
    exact .bind (appending.value _ _) fun _ => appending.ret _
  | .fn name none type body => by
    rw [Gen.statement]
    exact .throw (by simp)
  | .fn name (some params) type body => fn_appending (statements_appending himport body)
  | .assign target op x => appending.assignment e importer target op x
  | .whileLoop c body => whileLoop_appending (statements_appending himport body)
  | .breakLoop => by
    rw [Gen.statement]
    refine .get fun s => ?_
    cases s.loops.breakpoints with
    | nil => exact .throw (by simp)
    | cons q qs => exact appending.branch q
  | .continueLoop => by
    rw [Gen.statement]
    refine .get fun s => ?_
    cases s.loops.continues with
    | nil => exact .throw (by simp)
    | cons q qs => exact appending.branch q
  | .forLoop init c next body =>
    forLoop_appending (statement_appending himport init) (statements_appending himport body)
      (statement_appending himport next)
  | .importPallet path => by
    rw [Gen.statement]
    exact himport path

theorem statements_appending (himport : ∀ path, Appending (importer path)) :
    ∀ ss : List Stmt, Appending (Gen.statements e importer ss)
  | [] => by
    rw [Gen.statements]
    exact .pure _
  | st :: ss => by
    rw [Gen.statements]
    exact .bind (statement_appending himport st) fun _ => statements_appending himport ss

end

end Statements

section Nodes

variable {e : Edition} (he : e.has .functions = true)

include he

theorem importer_appending (files : Files) (depth : Nat) (path : String) :
    Appending (Gen.importer e files depth path) := by
  induction depth generalizing path with
  | zero => exact .throw (by simp)
  | succ depth ih =>
    rw [Gen.importer]
    refine .get fun s => Closed.choice (.print _) ?_
    split
    · exact .throw (by simp)
    refine .bind (.modified fun _ => ⟨rfl, rfl⟩) fun _ =>
      .bind (appending.forM (fun _ => .print _) _) fun _ => ?_
    split
    · exact .throw (by simp)
    refine Closed.choice ?_ ?_
    · rw [Gen.program, if_pos he]
      exact .bind (statements_appending ih _) fun _ => .modified fun _ => ⟨rfl, rfl⟩
    · exact .bind (.print _) fun _ => .bind (appending.forM (fun _ => .print _) _) fun _ =>
        .throw (by simp)

theorem node_appending (files : Files) (depth : Nat) (node : Node) :
    Appending (Gen.node e (Gen.importer e files depth) node) := by
  have himport := importer_appending he files depth
  cases node with
  | program p =>
    rw [Gen.node, Gen.program, if_pos he]
    exact statements_appending himport p
  | block body => exact statements_appending himport body
  | stmt st => exact statement_appending himport st
  | expr x => exact effect_appending himport x

/-- From every session that can be reached, compiling a further node only adds code, whether it ends
or fails. The globals stay where they are, under their names. All of them stay as they are but the
routine in which code was being written. That one keeps its type and its blocks, and of those only
the current one may get more instructions, behind the ones that it has. Nothing ever has to go in
front of instructions. -/
theorem compile_appends {s : Session} (hs : Reachable e s) (files : Files) (depth : Nat)
    (node : Node) : let result := (Gen.node e (Gen.importer e files depth) node).run s
    let old := s.assembly.items
    let new := result.2.assembly.items
    old.map Item.name <+: new.map Item.name ∧
    (∀ (k : Nat) (i : Item), old[k]? = some i → s.place.map Place.routine ≠ some i.name →
      new[k]? = some i) ∧
    (∀ (p : Place) (k : Nat) (r : Routine), s.place = some p → old[k]? = some (.routine r) →
      r.name = p.routine →
      ∃ r', new[k]? = some (.routine r') ∧ r'.ty = r.ty ∧
        r.blocks.map Block.name <+: r'.blocks.map Block.name ∧
        ∀ (j : Nat) (b : Block), r.blocks[j]? = some b →
          (b.name ≠ p.block → r'.blocks[j]? = some b) ∧
          (b.name = p.block → ∃ is, r'.blocks[j]? = some { b with instrs := b.instrs ++ is })) ∧
    result.1 ≠ .error .blockInUse := by
  have hstart := (hs.valid he).orderly
  obtain ⟨hpreserves, hunused⟩ := node_appending he files depth node s hstart
  have hkept := (hpreserves.spares hstart).kept
  refine ⟨hkept.map_prefix fun _ _ h => h.name_eq, fun k i hi hother => ?_, fun p k r hp hr hname =>
    ?_, hunused⟩
  · obtain ⟨i', hi', hii'⟩ := hkept k i hi
    cases hii' with
    | same => exact hi'
    | grown hp hq h =>
      rw [hp, Option.map_some, hq] at hother
      exact absurd rfl hother
  · obtain ⟨i', hi', hii'⟩ := hkept k _ hr
    rw [hp] at hii'
    obtain ⟨r', rfl, h⟩ := hii'.grows
    refine ⟨r', hi', h.signature, h.blocks.map_prefix fun _ _ hb => hb.name, fun j b hb => ?_⟩
    obtain ⟨b', hb', hbb'⟩ := h.blocks j b hb
    refine ⟨fun hne => by rw [hb', hbb'.other hne], fun _ => ?_⟩
    obtain ⟨is, his⟩ := hbb'.code
    exact ⟨is, by rw [hb', his, ← hbb'.name]⟩

omit he

/-- The inner routine fails while a loop of the outer one is open. What is compiled next goes behind
what the inner one has, and the outer one is left as it is. -/
theorem compile_appends_after_failure :
    let start : Session := .start .latest
    let broken : Node := .stmt (.fn "main" (some []) (.text "int")
      [.forLoop (.letVar "i" (.int 0) "int") (.infixed (.ident "i") .lt (.int 9))
        (.bare (.stepped (.ident "i") .increment))
        [.fn "inner" (some []) (.text "int") [.letVar "x" (.int 1) "int", .missing]]])
    let s := ((Gen.node .latest (Gen.importer .latest ⟨[], []⟩ 1) broken).run start).2
    let later : Node := .stmt (.whileLoop (.infixed (.ident "x") .lt (.int 5))
      [.continueLoop, .missing])
    let t := ((Gen.node .latest (Gen.importer .latest ⟨[], []⟩ 1) later).run s).2
    s.place = some ⟨"inner", "inner_entry"⟩ ∧
    ((Gen.node .latest (Gen.importer .latest ⟨[], []⟩ 1) later).run s).1 = .error .missingNode ∧
    (∀ (k : Nat) (i : Item), s.assembly.items[k]? = some i → i.name ≠ "inner" →
      t.assembly.items[k]? = some i) ∧
    ∃ (k : Nat) (r r' : Routine), s.assembly.items[k]? = some (.routine r) ∧
      t.assembly.items[k]? = some (.routine r') ∧ r.blocks.map Block.name = ["inner_entry"] ∧
      ["inner_entry"] <+: r'.blocks.map Block.name := by
  intro start broken s later t
  have hs : Reachable .latest s := .compile _ _ _ .start
  obtain ⟨-, hothers, hcurrent, -⟩ := compile_appends (by decide) hs ⟨[], []⟩ 1 later
  have ht : ((Gen.node .latest (Gen.importer .latest ⟨[], []⟩ 1) later).run s).2 = t := rfl
  rw [ht] at hothers hcurrent
  have hplace : s.place = some ⟨"inner", "inner_entry"⟩ := by decide +kernel
  have hinner : (s.assembly.routine? "inner").map
      (·.blocks.map Block.name) = some ["inner_entry"] := by
    decide +kernel
  obtain ⟨r, hr, hblocks⟩ := Option.map_eq_some_iff.mp hinner
  obtain ⟨k, hk⟩ := List.getElem?_of_mem (Assembly.mem_of_routine? hr)
  obtain ⟨r', hr', -, hprefix, -⟩ := hcurrent _ k r hplace hk (Assembly.routine?_name hr)
  have hroutine : s.place.map Place.routine = some "inner" := congrArg _ hplace
  rw [hblocks] at hprefix
  have hkept : ∀ (k : Nat) (i : Item), s.assembly.items[k]? = some i → i.name ≠ "inner" →
      t.assembly.items[k]? = some i := by
    intro k i hi hne
    exact hothers k i hi fun heq => hne (Option.some.inj (hroutine.symm.trans heq)).symm
  have hfailed : ((Gen.node .latest (Gen.importer .latest ⟨[], []⟩ 1) later).run s).1 = .error
      .missingNode := by
    decide +kernel
  exact ⟨hplace, hfailed, hkept, k, r, r', hk, hr', hblocks, hprefix⟩

end Nodes

end LimeLang
