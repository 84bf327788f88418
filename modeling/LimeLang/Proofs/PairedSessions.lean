import LimeLang.Proofs.CodePairing
import LimeLang.Proofs.NameTracking

/-! Two sessions in which the same code is generated side by side, under other names. What an
expression computes is written on both sides, or both sides fail. -/

namespace LimeLang

open Code

variable {x x' : Option Operand} {s' t' : Session}

/-- What is counted and noted down while code is generated. -/
structure Notes where
  counter : Nat
  errors : List CompileError
  pallets : List String
  opened : List String
  output : List String

namespace Session

def notes (s : Session) : Notes := ⟨s.counter, s.errors, s.pallets, s.opened, s.output⟩

/-- Writing goes on in the same place, with the same names and loops. -/
structure Stays (s t : Session) : Prop where
  place : t.place = s.place
  scopes : t.scopes = s.scopes
  loops : t.loops = s.loops
  grows : s.assembly.Grows t.assembly

theorem Stays.refl (s : Session) : s.Stays s := ⟨rfl, rfl, rfl, .refl _⟩

theorem Stays.trans {s t u : Session} (h : s.Stays t) (h' : t.Stays u) : s.Stays u :=
  ⟨h'.place.trans h.place, h'.scopes.trans h.scopes, h'.loops.trans h.loops, h.grows.trans h'.grows⟩

end Session

/-- Both computations end, with `Q`, or both fail. -/
def Lockstep {α β : Type} (g : Gen α) (g' : Gen β) (s t : Session) (Q : α → β → Session → Session →
    Prop) : Prop :=
  (∃ a b s' t', g.run s = (.ok a, s') ∧ g'.run t = (.ok b, t') ∧ Q a b s' t') ∨
    ∃ f f' s' t', g.run s = (.error f, s') ∧ g'.run t = (.error f', t')

namespace Lockstep

variable {α β γ δ : Type} {g : Gen α} {g' : Gen β} {s t : Session}
  {Q : α → β → Session → Session → Prop}

theorem ok {a : α} {b : β} (hg : g.run s = (.ok a, s')) (hg' : g'.run t = (.ok b, t'))
    (h : Q a b s' t') : Lockstep g g' s t Q := .inl ⟨a, b, s', t', hg, hg', h⟩

theorem fail {f f' : Failure} (hg : g.run s = (.error f, s')) (hg' : g'.run t = (.error f', t')) :
    Lockstep g g' s t Q := .inr ⟨f, f', s', t', hg, hg'⟩

theorem mono {R : α → β → Session → Session → Prop} (h : Lockstep g g' s t Q)
    (hQR : ∀ a b s' t', g.run s = (.ok a, s') → g'.run t = (.ok b, t') → Q a b s' t' →
    R a b s' t') : Lockstep g g' s t R := by
  rcases h with ⟨a, b, s', t', hg, hg', hQ⟩ | ⟨f, f', s', t', hg, hg'⟩
  · exact .ok hg hg' (hQR a b s' t' hg hg' hQ)
  · exact .fail hg hg'

theorem bind {k : α → Gen γ} {k' : β → Gen δ} {R : γ → δ → Session → Session →
    Prop} (h : Lockstep g g' s t Q)
    (hk : ∀ a b s' t', g.run s = (.ok a, s') → g'.run t = (.ok b, t') → Q a b s' t' →
      Lockstep (k a) (k' b) s' t' R) : Lockstep (g >>= k) (g' >>= k') s t R := by
  rcases h with ⟨a, b, s', t', hg, hg', hQ⟩ | ⟨f, f', s', t', hg, hg'⟩
  · have hrun : (g >>= k).run s = (k a).run s' := by rw [Gen.run_bind, hg]
    have hrun' : (g' >>= k').run t = (k' b).run t' := by rw [Gen.run_bind, hg']
    rw [Lockstep, hrun, hrun']
    exact hk a b s' t' hg hg' hQ
  · have hrun : (g >>= k).run s = (.error f, s') := by rw [Gen.run_bind, hg]
    have hrun' : (g' >>= k').run t = (.error f', t') := by rw [Gen.run_bind, hg']
    exact .fail hrun hrun'

theorem from_runs {f : Gen α} {f' : Gen β} (hg : g.run s = f.run s') (hg' : g'.run t = f'.run t')
    (h : Lockstep f f' s' t' Q) : Lockstep g g' s t Q := by
  rw [Lockstep, hg, hg']
  exact h

theorem left {k : α → Gen γ} {R : γ → β → Session → Session → Prop} {a : α} {s' : Session}
    (hg : g.run s = (.ok a, s')) (hk : Lockstep (k a) g' s' t R) : Lockstep (g >>= k) g' s t R := by
  refine from_runs ?_ rfl hk
  rw [Gen.run_bind, hg]

theorem right {k' : β → Gen δ} {R : α → δ → Session → Session → Prop} {b : β} {t' : Session}
    (hg' : g'.run t = (.ok b, t')) (hk : Lockstep g (k' b) s t' R) :
      Lockstep g (g' >>= k') s t R := by
  have hrun : (g' >>= k').run t = (k' b).run t' := by rw [Gen.run_bind, hg']
  rw [Lockstep, hrun]
  exact hk

end Lockstep

namespace Pairing

def Places (ρ : Pairing) (p q : Place) : Prop := p.routine = q.routine ∧
    ρ.blocks p.routine p.block q.block

/-- Places in the routine `r` to which jumps are alike. -/
def Goals (ρ : Pairing) (r : Option String) (p q : Place) : Prop := ∀ n, r = some n →
    ρ.Targets n p.block q.block

/-- Blocks have been put together only if they are new to the second side. -/
def Fresh (ρ σ : Pairing) (b : Assembly) : Prop :=
  ∀ n y, σ.PairedRight n y → (b.code? ⟨n, y⟩).isSome = true → ρ.PairedRight n y

variable {ρ σ τ : Pairing}

theorem Fresh.of_blocks (h : σ.blocks = ρ.blocks) (b : Assembly) : ρ.Fresh σ b := by
  rintro n y ⟨x, hxy⟩ -
  exact ⟨x, h ▸ hxy⟩

theorem Fresh.withBlocks {b : Assembly} {n x y : String} (hnew : b.code? ⟨n, y⟩ = none) :
    ρ.Fresh (ρ.withBlocks n x y) b := by
  rintro m z ⟨w, hwz | ⟨rfl, rfl, rfl⟩⟩ hcode
  · exact ⟨w, hwz⟩
  · rw [hnew] at hcode
    cases hcode

theorem Fresh.trans {b b' : Assembly} (h : ρ.Fresh σ b) (h' : σ.Fresh τ b') (hb : b.Grows b') :
    ρ.Fresh τ b :=
  fun n y hy hcode => h n y (h' n y hy (hb.code_isSome hcode)) hcode

theorem withInstrs_new {r : String} {i j : Instr} : (ρ.withInstrs r i j).instrs r i j :=
  .inr ⟨rfl, rfl, rfl⟩

theorem Places.mono {p q : Place} (h : ρ.Places p q) (hρ : ρ.Sub σ) :
    σ.Places p q := ⟨h.1, hρ.blocks _ _ _ h.2⟩

theorem Goals.mono {r : Option String} {p q : Place} (h : ρ.Goals r p q) (hρ : ρ.Sub σ) :
    σ.Goals r p q :=
  fun n hn => (h n hn).mono hρ

end Pairing

structure Binding.Mates (ρ : Pairing) (r : Option String) (b b' : Binding) : Prop where
  ty : b.ty = b'.ty
  value : b.value.Mates ρ r b'.value

theorem Binding.Mates.mono {ρ σ : Pairing} {r : Option String} {b b' : Binding} (h : b.Mates ρ r b')
    (hρ : ρ.Sub σ) : b.Mates σ r b' := ⟨h.ty, h.value.mono hρ⟩

/-- The innermost loops of both sides belong together. -/
def Loops.Mates (ρ : Pairing) (r : Option String) (l l' : Loops) : Prop :=
  ∃ entry exit outer entry' exit' outer', l = Loops.enter outer entry exit ∧
    l' = Loops.enter outer' entry' exit' ∧ ρ.Goals r entry entry' ∧ ρ.Goals r exit exit'

theorem Loops.Mates.mono {ρ σ : Pairing} {r : Option String} {l l' : Loops} (h : l.Mates ρ r l')
    (hρ : ρ.Sub σ) : l.Mates σ r l' := by
  obtain ⟨entry, exit, outer, entry', exit', outer', hl, hl', hentry, hexit⟩ := h
  exact ⟨entry, exit, outer, entry', exit', outer', hl, hl', hentry.mono hρ, hexit.mono hρ⟩

/-- Two assemblies that fit, with names of their own for all blocks and instructions. -/
structure Matched (ρ : Pairing) (a b : Assembly) : Prop where
  fits : ρ.Fits a b
  left : a.Sound ∧ a.Distinct
  right : b.Sound ∧ b.Distinct

/-- The code of both sides belongs together, and so far the same has been noted down. -/
structure Joined (ρ : Pairing) (s t : Session) : Prop extends Matched ρ s.assembly t.assembly where
  settled : ρ.Settled t.assembly
  notes : s.notes = t.notes

/-- Both sides are at the same point of a program, in the routine `r`. The names that may be used
there stand for the same. -/
structure Alike (ρ : Pairing) (k : Known) (r : Option String) (s t : Session) :
    Prop extends Joined ρ s t where
  routine : s.place.map Place.routine = r
  place : Option.Rel ρ.Places s.place t.place
  names : ∀ name, k.admits name = true →
    Option.Rel (fun b b' => b.Mates ρ r b') (s.scopes.find? name) (t.scopes.find? name)
  known : ∀ name b n ty, s.scopes.find? name = some b → b.value = .result n ty → k.knows name = true
  loops : k.inLoop = true → s.loops.Mates ρ r t.loops

section

variable {ρ σ : Pairing} {k : Known} {r : Option String} {s s' t t' : Session}

theorem Alike.stays (h : Alike ρ k r s t) (hρ : ρ.Sub σ) (hjoined : Joined σ s' t')
    (hs : s.Stays s') (ht : t.Stays t') : Alike σ k r s' t' where
  toJoined := hjoined
  routine := by
    rw [hs.place]
    exact h.routine
  place := by
    rw [hs.place, ht.place]
    exact optionRel_mono (fun _ _ h => h.mono hρ) h.place
  names name hname := by
    rw [hs.scopes, ht.scopes]
    exact optionRel_mono (fun _ _ h => h.mono hρ) (h.names name hname)
  known := by
    rw [hs.scopes]
    exact h.known
  loops hloop := by
    rw [hs.loops, ht.loops]
    exact (h.loops hloop).mono hρ

/-- Both sides still stand where they stood, and no blocks were put together. -/
theorem Alike.kept {Q : Pairing → Prop} (h : Alike ρ k r s t) (hρ : ρ.Sub σ)
    (hblocks : σ.blocks = ρ.blocks)
    (hjoined : Joined σ s' t') (hs : s.Stays s') (ht : t.Stays t') (hQ : Q σ) :
    ∃ σ, ρ.Sub σ ∧ ρ.Fresh σ t.assembly ∧ Alike σ k r s' t' ∧ s.Stays s' ∧ t.Stays t' ∧ Q σ :=
  ⟨σ, hρ, .of_blocks hblocks _, h.stays hρ hjoined hs ht, hs, ht, hQ⟩

end

/-- Both computations write the same behind the current blocks, where they stay, and end with `Q`,
or both fail. -/
def Tandem (ρ : Pairing) (k : Known) (r : Option String) {α β : Type} (g : Gen α) (g' : Gen β)
    (s t : Session) (Q : Pairing → α → β → Prop) : Prop :=
  Lockstep g g' s t fun a b s' t' =>
    ∃ σ, ρ.Sub σ ∧ ρ.Fresh σ t.assembly ∧ Alike σ k r s' t' ∧ s.Stays s' ∧ t.Stays t' ∧ Q σ a b

namespace Tandem

variable {ρ : Pairing} {k : Known} {r : Option String} {α β γ δ : Type} {g : Gen α} {g' : Gen β}
  {s t : Session} {Q : Pairing → α → β → Prop}

theorem noted {a : α} {b : β} (h : Alike ρ k r s t) (hg : g.run s = (.ok a, s'))
    (hg' : g'.run t = (.ok b, t')) (hs : s.Stays s') (ht : t.Stays t')
    (ha : s'.assembly = s.assembly) (hb : t'.assembly = t.assembly) (hnotes : s'.notes = t'.notes)
    (hQ : Q ρ a b) : Tandem ρ k r g g' s t Q := by
  refine .ok hg hg' (h.kept (.refl ρ) rfl ⟨?_, ?_, hnotes⟩ hs ht hQ)
  · rw [ha, hb]
    exact h.toMatched
  · rw [hb]
    exact h.settled

theorem pure (h : Alike ρ k r s t) {a : α} {b : β} (hQ : Q ρ a b) :
    Tandem ρ k r (Pure.pure a) (Pure.pure b) s t Q :=
  .ok rfl rfl (h.kept (.refl ρ) rfl h.toJoined (.refl s) (.refl t) hQ)

theorem throw {f f' : Failure} : Tandem ρ k r (MonadExcept.throw f) (MonadExcept.throw f') s t Q :=
  .fail rfl rfl

theorem bind {f : α → Gen γ} {f' : β → Gen δ} {R : Pairing → γ → δ →
    Prop} (h : Tandem ρ k r g g' s t Q)
    (hf : ∀ σ a b s' t', ρ.Sub σ → Alike σ k r s' t' → Q σ a b →
      Tandem σ k r (f a) (f' b) s' t' R) :
    Tandem ρ k r (g >>= f) (g' >>= f') s t R := by
  refine Lockstep.bind h ?_
  rintro a b s' t' - - ⟨σ, hσ, hfresh, hs', hs, ht, hQ⟩
  refine Lockstep.mono (hf σ a b s' t' hσ hs' hQ) ?_
  rintro c d s'' t'' - - ⟨τ, hτ, hfresh', hs'', hs', ht', hR⟩
  exact ⟨τ, hσ.trans hτ, hfresh.trans hfresh' ht.grows, hs'', hs.trans hs', ht.trans ht', hR⟩

theorem get {f f' : Session → Gen β} {R : Pairing → β → β →
    Prop} (h : Tandem ρ k r (f s) (f' t) s t R) :
    Tandem ρ k r (MonadState.get >>= f) (MonadState.get >>= f') s t R := h

theorem fails {f : α → Failure} {f' : β → Failure} {R : Pairing → γ → δ → Prop} :
    Tandem ρ k r (g >>= fun a => MonadExcept.throw (f a)) (g' >>= fun b => MonadExcept.throw (f' b))
      s t R := by
  have hfails : ∀ {α β : Type} (g : Gen α) (f : α → Failure) (s : Session),
      ∃ e u, (g >>= fun a => (MonadExcept.throw (f a) : Gen β)).run s = (.error e, u) := by
    intro α β g f s
    rw [Gen.run_bind]
    split
    · exact ⟨_, _, rfl⟩
    · exact ⟨_, _, rfl⟩
  obtain ⟨e, u, hg⟩ := hfails g f s
  obtain ⟨e', u', hg'⟩ := hfails g' f' t
  exact .fail hg hg'

theorem choice {c : Prop} [Decidable c] {h : Gen α} {h' : Gen β} (hg : Tandem ρ k r g g' s t Q)
    (hh : Tandem ρ k r h h' s t Q) :
    Tandem ρ k r (if c then g else h) (if c then g' else h') s t Q := by
  split
  · exact hg
  · exact hh

end Tandem

section Emitting

variable {ρ : Pairing} {k : Known} {r : Option String} {s t : Session}

theorem Pairing.Fits.any_isTerminator {a b : Assembly} (h : ρ.Fits a b) {n : String}
    {is js : List Instr} (hcode : List.Forall₂ (ρ.instrs n) is js) :
    is.any (·.op.isTerminator) = js.any (·.op.isTerminator) := by
  induction hcode with
  | nil => rfl
  | cons hij _ ih => rw [List.any_cons, List.any_cons, ih, (h.mates _ _ _ hij).isTerminator_eq]

theorem Matched.withInstrs {a b : Assembly} (h : Matched ρ a b) {n x y : String} {ra rb : Routine}
    (hra : a.routine? n = some ra) (hrb : b.routine? n = some rb) (hxy : ρ.blocks n x y)
    {op op' : Op}
    (hop : op.Mates ρ n op') : Matched (ρ.withInstrs n ⟨ra.takeName.1, op⟩ ⟨rb.takeName.1, op'⟩)
      (a.withInstr ⟨n, x⟩ ra op) (b.withInstr ⟨n, y⟩ rb op') where
  fits := h.fits.withInstrs h.left.2 h.right.2 hra hrb hxy hop
  left := Assembly.Distinct.steps.withInstr (p := ⟨n, x⟩) hra h.left
  right := Assembly.Distinct.steps.withInstr (p := ⟨n, y⟩) hrb h.right

theorem Alike.here (h : Alike ρ k r s t) : (s.place = none ∧ t.place = none ∧ r = none) ∨
    ∃ n x y ra rb is js, s.place = some ⟨n, x⟩ ∧ t.place = some ⟨n, y⟩ ∧ r = some n ∧
      ρ.blocks n x y ∧
      s.assembly.routine? n = some ra ∧ t.assembly.routine? n = some rb ∧
        s.assembly.code? ⟨n, x⟩ = some is ∧
      t.assembly.code? ⟨n, y⟩ = some js ∧ List.Forall₂ (ρ.instrs n) is js := by
  have hplace := h.place
  have hroutine := h.routine
  cases hp : s.place with
  | none =>
    rw [hp] at hplace hroutine
    cases hq : t.place with
    | none => exact .inl ⟨rfl, rfl, hroutine.symm⟩
    | some q =>
      rw [hq] at hplace
      cases hplace
  | some p =>
    rw [hp] at hplace hroutine
    cases hq : t.place with
    | none =>
      rw [hq] at hplace
      cases hplace
    | some q =>
      rw [hq] at hplace
      cases hplace with
      | some hpq =>
        obtain ⟨n, x⟩ := p
        obtain ⟨n', y⟩ := q
        obtain ⟨hn, hxy⟩ := hpq
        dsimp only at hn hxy
        subst hn
        obtain ⟨is, js, his, hjs, hcode⟩ := h.fits.code n x y hxy
        obtain ⟨ra, hra, -⟩ := Option.bind_eq_some_iff.mp his
        obtain ⟨rb, hrb, -⟩ := Option.bind_eq_some_iff.mp hjs
        exact .inr ⟨n, x, y, ra, rb, is, js, rfl, rfl, hroutine.symm, hxy, hra, hrb, his, hjs,
          hcode⟩

/-- Operations that do the same are written behind the current blocks, or neither of them can be. -/
theorem Matched.emit {n x y : String} {op op' : Op} (h : Matched ρ s.assembly t.assembly)
    (hp : s.place = some ⟨n, x⟩) (hq : t.place = some ⟨n, y⟩) (hxy : ρ.blocks n x y)
    (hop : op.Mates ρ n op') : Lockstep (Gen.emit op) (Gen.emit op') s t fun v w s' t' => ∃ a b i j,
      s' = { s with assembly := a } ∧ t' = { t with assembly := b } ∧ s.assembly.Grows a ∧
        t.assembly.Grows b ∧
        Matched (ρ.withInstrs n i j) a b ∧ v.Mates (ρ.withInstrs n i j) (some n) w := by
  obtain ⟨is, js, his, hjs, hcode⟩ := h.fits.code n x y hxy
  obtain ⟨ra, hra, -⟩ := Option.bind_eq_some_iff.mp his
  obtain ⟨rb, hrb, -⟩ := Option.bind_eq_some_iff.mp hjs
  have hrun : (Gen.emit op).run s = _ := Gen.run_emit_at hp hra
  have hrun' : (Gen.emit op').run t = _ := Gen.run_emit_at hq hrb
  rw [his, Option.any_some] at hrun
  rw [hjs, Option.any_some, ← h.fits.any_isTerminator hcode, ← hop.isTerminator_eq] at hrun'
  split_ifs at hrun hrun'
  · exact .fail hrun hrun'
  · refine .ok hrun hrun' ⟨_, _, _, _, rfl, rfl, .withInstr hra, .withInstr hrb,
      h.withInstrs hra hrb hxy hop, ?_⟩
    rw [hop.ty_eq]
    exact .result _ rfl Pairing.withInstrs_new

theorem emit_tandem {op op' : Op} (h : Alike ρ k r s t) (hop : ∀ n, r = some n → op.Mates ρ n op') :
    Tandem ρ k r (Gen.emit op) (Gen.emit op') s t fun σ x y => x.Mates σ r y := by
  rcases h.here with ⟨hp, hq, -⟩ | ⟨n, x, y, -, -, -, -, hp, hq, hr, hxy, -⟩
  · exact .fail (Gen.run_emit_nowhere hp) (Gen.run_emit_nowhere hq)
  · refine (h.toMatched.emit hp hq hxy (hop n hr)).mono ?_
    rintro v w _ _ - - ⟨a, b, i, j, rfl, rfl, hga, hgb, hmatched, hvw⟩
    have hsub : ρ.Sub (ρ.withInstrs n i j) := Pairing.sub_withInstrs ..
    have hjoined : Joined (ρ.withInstrs n i j) { s with assembly := a } { t with assembly := b } :=
      ⟨hmatched, (h.settled.grows hgb).more hsub fun _ _ _ h => h, h.notes⟩
    exact h.kept hsub rfl hjoined ⟨rfl, rfl, rfl, hga⟩ ⟨rfl, rfl, rfl, hgb⟩ (hr ▸ hvw)

theorem print_tandem (h : Alike ρ k r s t) (line : String) :
    Tandem ρ k r (Gen.print line) (Gen.print line) s t fun _ _ _ => True :=
  .noted h rfl rfl ⟨rfl, rfl, rfl, .refl _⟩ ⟨rfl, rfl, rfl, .refl _⟩ rfl rfl
    (congrArg (fun n : Notes => { n with output := n.output ++ [line] }) h.notes) trivial

theorem record_tandem (h : Alike ρ k r s t) (e : CompileError) :
    Tandem ρ k r (Gen.record e) (Gen.record e) s t fun _ _ _ => True :=
  .noted h rfl rfl ⟨rfl, rfl, rfl, .refl _⟩ ⟨rfl, rfl, rfl, .refl _⟩ rfl rfl
    (congrArg (fun n : Notes => { n with errors := n.errors ++ [e] }) h.notes) trivial

theorem Alike.counter_eq (h : Alike ρ k r s t) : s.counter = t.counter :=
  congrArg Notes.counter h.notes

theorem countUp_tandem (h : Alike ρ k r s t) :
    Tandem ρ k r Gen.countUp Gen.countUp s t fun _ n m => n = m :=
  .noted h rfl rfl ⟨rfl, rfl, rfl, .refl _⟩ ⟨rfl, rfl, rfl, .refl _⟩ rfl rfl
    (congrArg (fun n : Notes => { n with counter := n.counter + 1 }) h.notes)
      (congrArg (· + 1) h.counter_eq)

theorem need_tandem (h : Alike ρ k r s t) {x y : Option Operand} (hxy : ρ.MatesOpt r x y) :
    Tandem ρ k r (Gen.need x) (Gen.need y) s t fun σ x y => x.Mates σ r y := by
  cases hxy with
  | none => exact .throw
  | some hxy => exact .pure h hxy

theorem binary_tandem {op : BinaryOp} {x x' y y' : Option Operand} (h : Alike ρ k r s t)
    (hx : ρ.MatesOpt r x x') (hy : ρ.MatesOpt r y y') :
    Tandem ρ k r (Gen.binary op x y) (Gen.binary op x' y') s t fun σ x y => x.Mates σ r y := by
  refine (need_tandem h hx).bind fun σ₁ x x' s₁ t₁ hσ₁ h₁ hx => ?_
  refine (need_tandem h₁ (hy.mono hσ₁)).bind fun σ₂ y y' s₂ t₂ hσ₂ h₂ hy => ?_
  have hx := hx.mono hσ₂
  rw [hx.ty_eq, hy.ty_eq]
  refine .choice (emit_tandem h₂ ?_) .throw
  rintro n rfl
  exact .binary op hx hy

theorem compareInts_tandem {rel : Relation} {x x' y y' : Option Operand} (h : Alike ρ k r s t)
    (hx : ρ.MatesOpt r x x') (hy : ρ.MatesOpt r y y') :
    Tandem ρ k r (Gen.compareInts rel x y) (Gen.compareInts rel x' y') s t fun σ x y =>
      x.Mates σ r y := by
  refine (need_tandem h hx).bind fun σ₁ x x' s₁ t₁ hσ₁ h₁ hx => emit_tandem h₁ ?_
  rintro n rfl
  exact .icmp rel hx (hy.mono hσ₁)

theorem compareFloats_tandem {rel : Relation} {x x' y y' : Option Operand} (h : Alike ρ k r s t)
    (hx : ρ.MatesOpt r x x') (hy : ρ.MatesOpt r y y') :
    Tandem ρ k r (Gen.compareFloats rel x y) (Gen.compareFloats rel x' y') s t fun σ x y =>
      x.Mates σ r y := by
  refine (need_tandem h hx).bind fun σ₁ x x' s₁ t₁ hσ₁ h₁ hx => emit_tandem h₁ ?_
  rintro n rfl
  exact .fcmp rel hx (hy.mono hσ₁)

theorem complement_tandem (h : Alike ρ k r s t) (hx : ρ.MatesOpt r x x') :
    Tandem ρ k r (Gen.complement x) (Gen.complement x') s t fun σ x y => x.Mates σ r y := by
  refine (need_tandem h hx).bind fun σ₁ x x' s₁ t₁ hσ₁ h₁ hx => binary_tandem h₁ (.some hx) ?_
  rw [hx.ty_eq]
  exact .some (.int _ _)

theorem toFloat_tandem (h : Alike ρ k r s t) (hx : ρ.MatesOpt r x x') :
    Tandem ρ k r (Gen.toFloat x) (Gen.toFloat x') s t fun σ x y => x.Mates σ r y := by
  refine (need_tandem h hx).bind fun σ₁ x x' s₁ t₁ hσ₁ h₁ hx => ?_
  rw [hx.ty_eq]
  refine .choice (.pure h₁ hx) (emit_tandem h₁ ?_)
  rintro n rfl
  exact .sitofp _ hx

theorem bitcast_tandem {x x' : Operand} {ty : Ty} (h : Alike ρ k r s t) (hx : x.Mates ρ r x') :
    Tandem ρ k r (Gen.bitcast x ty) (Gen.bitcast x' ty) s t fun σ x y => x.Mates σ r y := by
  rw [Gen.bitcast, Gen.bitcast, hx.ty_eq]
  refine .choice (.pure h hx) (emit_tandem h ?_)
  rintro n rfl
  exact .bitcast _ hx

theorem alloca_tandem (h : Alike ρ k r s t) (ty : Option Ty) :
    Tandem ρ k r (Gen.alloca ty) (Gen.alloca ty) s t fun σ x y => x.Mates σ r y := by
  rw [Gen.alloca.eq_def]
  split
  · exact .throw
  · exact .throw
  · exact emit_tandem h fun _ _ => .alloca _

theorem load_tandem {x x' : Operand} (h : Alike ρ k r s t) (hx : x.Mates ρ r x') :
    Tandem ρ k r (Gen.load x) (Gen.load x') s t fun σ x y => x.Mates σ r y := by
  rw [Gen.load, Gen.load, hx.ty_eq]
  refine .choice (emit_tandem h ?_) .fails
  rintro n rfl
  exact .load hx

/-- Storing is alike where the two operations are. -/
theorem store_tandem {y y' : Operand} (h : Alike ρ k r s t)
    (hx : Option.Rel (fun x x' => x.ty = x'.ty ∧ ∀ n, r = some n →
    (Op.store x y).Mates ρ n (.store x' y')) x x')
    (hy : y.ty = y'.ty) : Tandem ρ k r (Gen.store x y) (Gen.store x' y') s t fun _ _ _ => True := by
  rw [Gen.store, Gen.store, hy]
  split
  · cases hx with
    | none => exact .throw
    | some hx =>
      change Tandem ρ k r (if _ then _ else _) (if _ then _ else _) s t _
      rw [hx.1]
      exact .choice ((emit_tandem h hx.2).bind fun σ _ _ _ _ _ h _ => .pure h trivial) .throw
  · exact .fails

theorem storeValue_tandem {y y' : Operand} (h : Alike ρ k r s t) (hx : ρ.MatesOpt r x x')
    (hy : y.Mates ρ r y') :
    Tandem ρ k r (Gen.store x y) (Gen.store x' y') s t fun _ _ _ => True := by
  refine store_tandem h (optionRel_mono (fun x x' hx => ⟨hx.ty_eq, ?_⟩) hx) hy.ty_eq
  rintro n rfl
  exact .store hx hy

theorem checkArguments_tandem (h : Alike ρ k r s t) (i : Nat) (ts : List Ty)
    {xs xs' : List (Option Operand)} (hxs : List.Forall₂ (ρ.MatesOpt r) xs xs') :
    Tandem ρ k r (Gen.checkArguments i ts xs) (Gen.checkArguments i ts xs') s t fun _ _ _ =>
      True := by
  induction ts generalizing i xs xs' with
  | nil => exact .pure h trivial
  | cons ty ts ih =>
    cases hxs with
    | nil => exact .throw
    | cons hx hxs =>
      cases hx with
      | none => exact .throw
      | some hx =>
        change Tandem ρ k r (if _ then _ else _) (if _ then _ else _) s t _
        rw [hx.ty_eq]
        exact .choice (ih (i + 1) hxs) .throw

theorem call_tandem {f f' : Operand} {xs xs' : List (Option Operand)} (h : Alike ρ k r s t)
    (hf : f.Mates ρ r f') (hxs : List.Forall₂ (ρ.MatesOpt r) xs xs') :
    Tandem ρ k r (Gen.call f xs) (Gen.call f' xs') s t fun σ x y => x.Mates σ r y := by
  rw [Gen.call, Gen.call, hf.ty_eq]
  split
  · exact .throw
  · refine (checkArguments_tandem h 1 _ hxs).bind fun σ _ _ s₁ t₁ hσ h₁ _ => emit_tandem h₁ ?_
    rintro n rfl
    exact .call (hf.mono hσ) (hxs.imp fun _ _ hx => hx.mono hσ)

theorem branch_tandem {p q : Place} (h : Alike ρ k r s t) (hpq : ρ.Goals r p q) :
    Tandem ρ k r (Gen.branch p) (Gen.branch q) s t fun _ _ _ => True :=
  (emit_tandem h fun n hn => .br (hpq n hn)).bind fun _ _ _ _ _ _ h _ => .pure h trivial

theorem branchOn_tandem {c c' : Option Operand} {p p' q q' : Place} (h : Alike ρ k r s t)
    (hc : ρ.MatesOpt r c c') (hp : ρ.Goals r p p') (hq : ρ.Goals r q q') :
    Tandem ρ k r (Gen.branchOn c p q) (Gen.branchOn c' p' q') s t fun _ _ _ => True := by
  refine (emit_tandem h fun n hn => ?_).bind fun _ _ _ _ _ _ h _ => .pure h trivial
  exact .condBr (hn ▸ hc) (hp n hn) (hq n hn)

theorem ret_tandem (h : Alike ρ k r s t) (hx : ρ.MatesOpt r x x') :
    Tandem ρ k r (Gen.ret x) (Gen.ret x') s t fun _ _ _ => True := by
  refine (emit_tandem h ?_).bind fun _ _ _ _ _ _ h _ => .pure h trivial
  rintro n rfl
  exact .ret hx

theorem lookup_tandem (h : Alike ρ k r s t) {name : Literal} (hname : k.admits name = true) :
    Tandem ρ k r (Gen.lookup name) (Gen.lookup name) s t fun σ b b' =>
      Option.Rel (fun b b' => b.Mates σ r b') b b' := .get (.pure h (h.names name hname))

theorem binding_tandem (h : Alike ρ k r s t) {name : Literal} (hname : k.admits name = true) :
    Tandem ρ k r (Gen.binding name) (Gen.binding name) s t fun σ b b' => b.Mates σ r b' := by
  refine (lookup_tandem h hname).bind fun σ b b' s₁ t₁ _ h₁ hb => ?_
  cases hb with
  | none => exact .throw
  | some hb => exact .pure h₁ hb

theorem named_tandem (h : Alike ρ k r s t) (x : Expr) :
    Tandem ρ k r (Gen.named x) (Gen.named x) s t fun _ l l' => x.literal? = some l ∧ l' = l := by
  rw [Gen.named]
  split
  · rename_i l hl
    exact .pure h ⟨hl, rfl⟩
  · exact .throw

end Emitting

structure Typed.Mates (ρ : Pairing) (r : Option String) (x y : Typed) : Prop where
  ty : x.ty = y.ty
  value : ρ.MatesOpt r x.value y.value

namespace Typed.Mates

variable {ρ σ : Pairing} {r : Option String} {x y : Typed}

theorem mono (h : x.Mates ρ r y) (hρ : ρ.Sub σ) : x.Mates σ r y := ⟨h.ty, h.value.mono hρ⟩

theorem isInt_eq (h : x.Mates ρ r y) : x.isInt = y.isInt := by rw [isInt, isInt, h.ty]

theorem isFloat_eq (h : x.Mates ρ r y) : x.isFloat = y.isFloat := by rw [isFloat, isFloat, h.ty]

theorem of {x y : Operand} (t : Ty) (h : x.Mates ρ r y) : (Typed.of x t).Mates ρ r (.of y t) :=
  ⟨rfl, .some h⟩

theorem none (t : Option Ty) : (Typed.mk .none t).Mates ρ r ⟨.none, t⟩ := ⟨rfl, .none⟩

end Typed.Mates

theorem Code.Assembly.Distinct.instr?_of_mem {a : Assembly} (h : a.Distinct) (ha : a.Sound)
    {q : Place} {r : Routine}
    {is : List Instr} {i : Instr} (hr : a.routine? q.routine = some r) (hq : a.code? q = some is)
      (hi : i ∈ is) :
    r.instr? i.name = some i := by
  obtain ⟨b, hb, rfl⟩ := Assembly.block?_of_code hr hq
  have hmem : i ∈ r.blocks.flatMap Block.instrs :=
    List.mem_flatMap.mpr ⟨b, List.mem_of_find?_eq_some hb, hi⟩
  cases hfound : r.instr? i.name with
  | none => exact absurd (List.find?_eq_none.mp hfound i hmem) (by simp)
  | some j =>
    obtain ⟨c, hc, hj⟩ := List.mem_flatMap.mp (List.mem_of_find?_eq_some hfound)
    have hname : j.name = i.name := by simpa using List.find?_some hfound
    have hcode := ha.code?_of_mem (Assembly.mem_of_routine? hr) hc
    rw [h.same q _ _ _ (Assembly.routine?_name hr).symm hq hcode i hi j hj hname.symm]

section Values

variable {ρ : Pairing} {k : Known} {r : Option String} {s t : Session}

/-- A result that is computed from operands that belong together, with its type. -/
theorem Tandem.typed {g g' : Gen Operand} (h : Tandem ρ k r g g' s t fun σ x y => x.Mates σ r y)
    (ty : Ty) :
    Tandem ρ k r (do return .of (← g) ty) (do return .of (← g') ty) s t fun σ x y =>
      Typed.Mates σ r x y :=
  h.bind fun _ _ _ _ _ _ h hx => .pure h (.of ty hx)

theorem infixed_tandem (e : Edition) (op : InfixOp) {x x' y y' : Typed} (h : Alike ρ k r s t)
    (hx : x.Mates ρ r x') (hy : y.Mates ρ r y') :
    Tandem ρ k r (Gen.infixed e op x y) (Gen.infixed e op x' y') s t fun σ v w =>
      v.Mates σ r w := by
  rw [Gen.infixed, Gen.infixed, hx.isInt_eq, hx.isFloat_eq, hy.isInt_eq, hy.isFloat_eq]
  refine .choice ?_ (.choice ?_ (.pure h (.none _)))
  · split
    · exact (compareInts_tandem h hx.value hy.value).typed _
    · split
      · exact (binary_tandem h hx.value hy.value).typed _
      · exact .pure h (.none _)
  · split
    · exact (compareFloats_tandem h hx.value hy.value).typed _
    · split
      · exact (binary_tandem h hx.value hy.value).typed _
      · exact .pure h (.none _)

theorem prefixed_tandem (op : PrefixOp) {x x' : Typed} (h : Alike ρ k r s t) (hx : x.Mates ρ r x') :
    Tandem ρ k r (Gen.prefixed op x) (Gen.prefixed op x') s t fun σ v w => v.Mates σ r w := by
  rw [Gen.prefixed.eq_def, Gen.prefixed.eq_def, hx.isInt_eq, hx.isFloat_eq]
  refine .choice ?_ (.choice ?_ (.pure h (.none _)))
  · cases op with
    | neg => exact (binary_tandem h hx.value (.some (.float _))).typed _
    | not => exact .pure h (.of _ (.int _ _))
  · cases op with
    | neg => exact (binary_tandem h hx.value (.some (.int _ _))).typed _
    | not => exact (complement_tandem h hx.value).typed _

theorem addItem_lockstep (h : ρ.Fits s.assembly t.assembly) (i : Item) :
    Lockstep (Gen.addItem i) (Gen.addItem i) s t fun _ _ s' t' =>
      s' = { s with assembly := s.assembly.add i } ∧ t' = { t with assembly := t.assembly.add i } ∧
        s.assembly.item? i.name = none ∧ t.assembly.item? i.name = none := by
  rcases h.items i.name with ⟨ha, hb⟩ | ⟨c, ha, hb⟩ | ⟨ra, rb, ha, hb⟩
  · exact .ok (Gen.run_addItem ha) (Gen.run_addItem hb) ⟨rfl, rfl, ha, hb⟩
  · exact .fail (Gen.run_addItem_taken ha) (Gen.run_addItem_taken hb)
  · exact .fail (Gen.run_addItem_taken ha) (Gen.run_addItem_taken hb)

theorem addConstant_tandem (h : Alike ρ k r s t) (c : Constant) :
    Tandem ρ k r (Gen.addItem (.constant c)) (Gen.addItem (.constant c)) s t fun _ _ _ => True := by
  refine (addItem_lockstep h.fits (.constant c)).mono ?_
  rintro _ _ _ _ - - ⟨rfl, rfl, ha, hb⟩
  have hblocks : ∀ r', Item.constant c = .routine r' → r'.blocks = [] := by simp
  have hga : s.assembly.Grows (s.assembly.add (.constant c)) := .add ha
  have hgb : t.assembly.Grows (t.assembly.add (.constant c)) := .add hb
  have hjoined : Joined ρ { s with assembly := s.assembly.add (.constant c) }
      { t with assembly := t.assembly.add (.constant c) } :=
    ⟨⟨h.fits.addConstant ha hb, Assembly.Distinct.steps.add ha hblocks h.left,
      Assembly.Distinct.steps.add hb hblocks h.right⟩, h.settled.grows hgb, h.notes⟩
  exact h.kept (.refl ρ) rfl hjoined ⟨rfl, rfl, rfl, hga⟩ ⟨rfl, rfl, rfl, hgb⟩ trivial

theorem string_tandem (h : Alike ρ k r s t) (text : String) :
    Tandem ρ k r (Gen.string text) (Gen.string text) s t fun σ v w => v.Mates σ r w := by
  refine (countUp_tandem h).bind ?_
  rintro σ n _ s₁ t₁ hσ h₁ rfl
  exact (addConstant_tandem h₁ _).bind fun _ _ _ _ _ _ h₂ _ => .pure h₂ (.of _ (.global _ _))

theorem loadedFrom?_tandem {x x' : Operand} (h : Alike ρ k r s t) (hx : x.Mates ρ r x') :
    Tandem ρ k r (Gen.loadedFrom? x) (Gen.loadedFrom? x') s t fun σ p p' => σ.MatesOpt r p p' := by
  cases hx with
  | int | float | global => exact .pure h .none
  | result ty hr hij =>
    rename_i n i j
    rcases h.here with ⟨-, -, hnone⟩ | ⟨n', x, y, ra, rb, is, js, hp, hq, hr', hxy, hra, hrb, his,
      hjs, hcode⟩
    · cases hr.symm.trans hnone
    · obtain rfl := Option.some.inj (hr.symm.trans hr')
      obtain ⟨_, _, hi, himem⟩ := h.fits.left n i j hij
      obtain ⟨_, _, hj, hjmem⟩ := h.fits.right n i j hij
      simp only [Gen.loadedFrom?]
      refine .get ?_
      rw [hp, hq, Option.bind_some, Option.bind_some, hra, hrb, Option.bind_some, Option.bind_some,
        h.left.2.instr?_of_mem h.left.1 hra hi himem, h.right.2.instr?_of_mem h.right.1 hrb hj
          hjmem]
      have hop := h.fits.mates n i j hij
      obtain ⟨i, op⟩ := i
      obtain ⟨j, op'⟩ := j
      cases hop with
      | load hx => exact .pure h (.some (hr ▸ hx))
      | _ => exact .pure h .none

theorem format_tandem {x x' : Operand} (h : Alike ρ k r s t) (hx : x.Mates ρ r x') :
    Tandem ρ k r (Gen.format x) (Gen.format x') s t fun σ x y => x.Mates σ r y := by
  refine (loadedFrom?_tandem h hx).bind fun σ p p' s₁ t₁ _ h₁ hp => ?_
  cases hp with
  | some hp => exact (load_tandem h₁ hp).bind fun _ _ _ _ _ _ h₂ hx => bitcast_tandem h₂ hx
  | none =>
    refine .get (.get ?_)
    rw [h₁.counter_eq]
    have hitem := h₁.fits.operand_eq (Gen.stringName t₁.counter)
    cases hi : s₁.assembly.item? (Gen.stringName t₁.counter) with
    | none =>
      rw [hi] at hitem
      rw [Option.map_eq_none_iff.mp hitem.symm]
      exact .fails
    | some i =>
      rw [hi] at hitem
      obtain ⟨j, hj, hij⟩ := Option.map_eq_some_iff.mp hitem.symm
      rw [hj]
      refine bitcast_tandem h₁ ?_
      rw [hij]
      cases i with
      | constant c => exact .global _ _
      | routine r => exact .global _ _

theorem printf_tandem {xs xs' : List Typed} (h : Alike ρ k r s t)
    (hprintf : k.admits Gen.printfName = true) (hxs : List.Forall₂ (Typed.Mates ρ r) xs xs') :
    Tandem ρ k r (Gen.printf xs) (Gen.printf xs') s t fun σ v w => v.Mates σ r w := by
  cases hxs with
  | nil => exact .throw
  | cons hx hxs =>
    refine (binding_tandem h hprintf).bind fun σ₁ b b' s₁ t₁ hσ₁ h₁ hb => ?_
    rw [hx.ty]
    refine (alloca_tandem h₁ _).bind fun σ₂ slot slot' s₂ t₂ hσ₂ h₂ hslot => ?_
    have hx₂ := hx.value.mono (hσ₁.trans hσ₂)
    refine (storeValue_tandem h₂ hx₂ hslot).bind fun σ₃ _ _ s₃ t₃ hσ₃ h₃ _ => ?_
    refine (need_tandem h₃ (hx₂.mono hσ₃)).bind fun σ₄ x x' s₄ t₄ hσ₄ h₄ hx => ?_
    refine (format_tandem h₄ hx).bind fun σ₅ y y' s₅ t₅ hσ₅ h₅ hy => ?_
    have hσ := hσ₂.trans (hσ₃.trans (hσ₄.trans hσ₅))
    refine (call_tandem h₅ (hb.value.mono hσ) (.cons (.some hy) ?_)).typed _
    rw [List.forall₂_map_left_iff, List.forall₂_map_right_iff]
    exact hxs.imp fun _ _ hx => hx.value.mono (hσ₁.trans hσ)

theorem applied_tandem (e : Edition) {name : Literal} {xs xs' : List Typed} (h : Alike ρ k r s t)
    (hname : k.admits name = true) (hxs : List.Forall₂ (Typed.Mates ρ r) xs xs') :
    Tandem ρ k r (Gen.applied e name xs) (Gen.applied e name xs') s t fun σ v w =>
      v.Mates σ r w := by
  rw [Gen.applied, Gen.applied]
  split
  · rename_i hprintf
    have hprintf : name = Gen.printfName := by simpa using (Bool.and_eq_true_iff.mp hprintf).2
    exact printf_tandem h (hprintf ▸ hname) hxs
  · refine (binding_tandem h hname).bind fun σ b b' s₁ t₁ hσ h₁ hb => ?_
    rw [hb.ty]
    refine (call_tandem h₁ hb.value ?_).typed _
    rw [List.forall₂_map_left_iff, List.forall₂_map_right_iff]
    exact hxs.imp fun _ _ hx => hx.value.mono hσ

mutual

theorem value_tandem (e : Edition) : ∀ (x : Expr) {ρ : Pairing} {s t : Session}, Alike ρ k r s t →
    x.isClear k = true → Tandem ρ k r (Gen.value e x) (Gen.value e x) s t fun σ v w => v.Mates σ r w
  | .missing, _, _, _, _, _ => by
    rw [Gen.value]
    exact .throw
  | .int n, _, _, _, h, _ => by
    rw [Gen.value]
    exact .pure h (.of _ (.int _ _))
  | .float x, _, _, _, h, _ => by
    rw [Gen.value]
    exact .pure h (.of _ (.float _))
  | .ident name, _, _, _, h, hx => by
    rw [Gen.value]
    refine (binding_tandem h hx).bind fun σ b b' s₁ t₁ _ h₁ hb => ?_
    rw [hb.ty]
    exact (load_tandem h₁ hb.value).typed _
  | .bool b, _, _, _, h, _ => by
    rw [Gen.value]
    refine .choice ((print_tandem h _).bind fun _ _ _ _ _ _ h₁ _ => ?_) ?_
    · exact .pure h₁ (.of _ (.int _ _))
    · exact .pure h (.of _ (.int _ _))
  | .str text, _, _, _, h, _ => by
    rw [Gen.value]
    exact string_tandem h text
  | .infixed l op r, _, _, _, h, hx => by
    rw [Expr.isClear, Bool.and_eq_true] at hx
    rw [Gen.value]
    refine (value_tandem e l h hx.1).bind fun σ₁ v v' s₁ t₁ hσ₁ h₁ hv => ?_
    refine (value_tandem e r h₁ hx.2).bind fun σ₂ w w' s₂ t₂ hσ₂ h₂ hw => ?_
    exact infixed_tandem e op h₂ (hv.mono hσ₂) hw
  | .prefixed op r, _, _, _, h, hx => by
    rw [Expr.isClear] at hx
    rw [Gen.value]
    exact (value_tandem e r h hx).bind fun _ _ _ _ _ _ h₁ hv => prefixed_tandem op h₁ hv
  | .call g args, _, _, _, h, hx => by
    rw [Expr.isClear, Bool.and_eq_true] at hx
    rw [Gen.value]
    refine (named_tandem h g).bind ?_
    rintro σ₁ name _ s₁ t₁ hσ₁ h₁ ⟨hname, rfl⟩
    refine (values_tandem e args h₁ hx.2).bind fun σ₂ vs vs' s₂ t₂ hσ₂ h₂ hvs => ?_
    exact applied_tandem e h₂ (by simpa [hname] using hx.1) hvs
  | .openCall g, _, _, _, _, _ => by
    rw [Gen.value]
    exact .fails
  | .stepped .., _, _, _, _, _ | .ifThen .., _, _, _, _, _ | .ifElse .., _, _, _, _, _ => by
    rw [Gen.value]
    exact .throw

theorem values_tandem (e : Edition) :
    ∀ (xs : List Expr) {ρ : Pairing} {s t : Session}, Alike ρ k r s t → areClear k xs = true →
    Tandem ρ k r (Gen.values e xs) (Gen.values e xs) s t fun σ vs ws =>
      List.Forall₂ (Typed.Mates σ r) vs ws
  | [], _, _, _, h, _ => by
    rw [Gen.values]
    exact .pure h .nil
  | x :: xs, _, _, _, h, hx => by
    rw [areClear, Bool.and_eq_true] at hx
    rw [Gen.values]
    refine (value_tandem e x h hx.1).bind fun σ₁ v v' s₁ t₁ hσ₁ h₁ hv => ?_
    refine (values_tandem e xs h₁ hx.2).bind fun σ₂ vs vs' s₂ t₂ hσ₂ h₂ hvs => ?_
    exact .pure h₂ (.cons (hv.mono hσ₂) hvs)

end

theorem storeUpdated_tandem {op : Literal} {b b' : Binding} {x x' : Typed} {old old' : Operand}
    {new new' : Option Operand} (h : Alike ρ k r s t) (hb : b.Mates ρ r b') (hx : x.Mates ρ r x')
    (hold : old.Mates ρ r old') (hnew : ρ.MatesOpt r new new') :
    Tandem ρ k r (Gen.storeUpdated op b x old new) (Gen.storeUpdated op b' x' old' new') s t
      fun _ _ _ => True := by
  rw [Gen.storeUpdated, Gen.storeUpdated]
  refine .choice (storeValue_tandem h hnew hb.value) ?_
  split
  · rw [hold.ty_eq, hx.isInt_eq]
    refine (binary_tandem h (.some hold) hnew).bind fun σ v v' s₁ t₁ hσ h₁ hv => ?_
    exact storeValue_tandem h₁ (.some hv) (hb.value.mono hσ)
  · refine (print_tandem h _).bind fun σ _ _ s₁ t₁ hσ h₁ _ => ?_
    exact storeValue_tandem h₁ .none (hb.value.mono hσ)

theorem updateVar_tandem (op : Literal) {b b' : Binding} {x x' : Typed} (h : Alike ρ k r s t)
    (hb : b.Mates ρ r b')
    (hx : x.Mates ρ r x') : Tandem ρ k r (Gen.updateVar op b x) (Gen.updateVar op b' x') s t
      fun _ _ _ => True := by
  -- the old value is converted if need be, and then the new one
  have hnew : ∀ {σ : Pairing} {old old' : Operand} {s' t' : Session}, ρ.Sub σ → Alike σ k r s' t' →
      old.Mates σ r old' → Tandem σ k r (do
        let new ← if old.ty = .float && x.isInt then do
          pure (some (← Gen.toFloat x.value)) else pure x.value
        Gen.storeUpdated op b x old new) (do
        let new ← if old'.ty = .float && x'.isInt then do
          pure (some (← Gen.toFloat x'.value)) else pure x'.value
        Gen.storeUpdated op b' x' old' new) s' t' fun _ _ _ => True := by
    intro σ old old' s' t' hσ h' hold
    have hx' := hx.mono hσ
    rw [hold.ty_eq, hx.isInt_eq]
    refine .choice ((toFloat_tandem h' hx'.value).bind fun σ₁ y y' s₁ t₁ hσ₁ h₁ hy => ?_)
      (storeUpdated_tandem h' (hb.mono hσ) hx' hold hx'.value)
    exact storeUpdated_tandem h₁ (hb.mono (hσ.trans hσ₁)) (hx'.mono hσ₁) (hold.mono hσ₁) (.some hy)
  rw [Gen.updateVar_eq, Gen.updateVar_eq]
  refine (load_tandem h hb.value).bind fun σ₁ old old' s₁ t₁ hσ₁ h₁ hold => ?_
  rw [hold.ty_eq, hx.isFloat_eq]
  refine .choice ((toFloat_tandem h₁ (.some hold)).bind fun σ₂ y y' s₂ t₂ hσ₂ h₂ hy => ?_)
    (hnew hσ₁ h₁ hold)
  exact hnew (hσ₁.trans hσ₂) h₂ hy

theorem step_tandem {op : StepOp} {x : Expr} (h : Alike ρ k r s t)
    (hx : x.literal?.all k.admits = true) :
    Tandem ρ k r (Gen.step op x) (Gen.step op x) s t fun _ _ _ => True := by
  refine (named_tandem h x).bind ?_
  rintro σ₁ name _ s₁ t₁ hσ₁ h₁ ⟨hname, rfl⟩
  rw [hname, Option.all_some] at hx
  refine (lookup_tandem h₁ hx).bind fun σ₂ b b' s₂ t₂ hσ₂ h₂ hb => ?_
  cases hb with
  | none => exact record_tandem h₂ _
  | some hb =>
    refine (load_tandem h₂ hb.value).bind fun σ₃ old old' s₃ t₃ hσ₃ h₃ hold => ?_
    have hb₃ := hb.value.mono hσ₃
    rw [hold.ty_eq]
    refine .choice ?_ (.choice ?_ (storeValue_tandem h₃ .none hb₃))
    · refine (binary_tandem h₃ (.some hold) (.some (.int _ _))).bind fun σ₄ v v' s₄ t₄ hσ₄ h₄ hv =>
        ?_
      exact storeValue_tandem h₄ (.some hv) (hb₃.mono hσ₄)
    · refine (binary_tandem h₃ (.some hold) (.some (.float _))).bind fun σ₄ v v' s₄ t₄ hσ₄ h₄ hv =>
        ?_
      exact storeValue_tandem h₄ (.some hv) (hb₃.mono hσ₄)

theorem assign_tandem (e : Edition) (importer : String → Gen Unit) {target op : Literal} {x : Expr}
    (h : Alike ρ k r s t) (htarget : k.admits target = true) (hx : x.isClear k = true) :
    Tandem ρ k r (Gen.statement e importer (.assign target op x))
      (Gen.statement e importer (.assign target op x)) s t fun _ _ _ => True := by
  rw [Gen.statement]
  refine .choice ((lookup_tandem h htarget).bind fun σ₁ b b' s₁ t₁ hσ₁ h₁ hb => ?_)
    ((value_tandem e x h hx).bind fun σ₁ v v' s₁ t₁ hσ₁ h₁ hv => ?_)
  · cases hb with
    | none => exact record_tandem h₁ _
    | some hb =>
      refine (value_tandem e x h₁ hx).bind fun σ₂ v v' s₂ t₂ hσ₂ h₂ hv => ?_
      exact updateVar_tandem op h₂ (hb.mono hσ₂) hv
  · refine (lookup_tandem h₁ htarget).bind fun σ₂ b b' s₂ t₂ hσ₂ h₂ hb => ?_
    cases hb with
    | none => exact record_tandem h₂ _
    | some hb => exact storeValue_tandem h₂ (hv.value.mono hσ₂) hb.value

end Values

end LimeLang
