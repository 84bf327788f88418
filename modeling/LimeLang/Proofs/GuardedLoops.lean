import LimeLang.Proofs.AppendOnly
import LimeLang.Proofs.PairedStatements

/-! A `while` loop beside a `for` loop under a condition. The `for` loop has blocks of its own in
between: one that leads into the loop and one that leads out of it. -/

namespace LimeLang

open Code

theorem Appending.ok {α : Type} {g : Gen α} (hg : Appending g) {s t : Session} {a : α}
    (hs : s.Orderly) (hrun : g.run s = (.ok a, t)) : s.Preserves t := by
  have h := (hg s hs).1
  rwa [hrun] at h

section Writing

/-- Two new blocks of a routine. -/
structure Code.Assembly.Widens (a : Assembly) (n x y : String) (b : Assembly) : Prop where
  grows : a.Grows b
  new : a.code? ⟨n, x⟩ = none
  new' : a.code? ⟨n, y⟩ = none
  apart : x ≠ y
  code : ∀ q is, a.code? q = some is → b.code? q = some is
  empty : b.code? ⟨n, x⟩ = some []
  empty' : b.code? ⟨n, y⟩ = some []
  left : ∀ ρ c, Matched ρ a c → Matched ρ b c
  right : ∀ ρ c, Matched ρ c a → Matched ρ c b

variable {s t : Session} {n x : String} {is : List Instr}

theorem Code.Assembly.Adds.old {a b : Assembly} {p q : Place} (h : a.Adds q b)
    (hp : a.code? p = some is) : b.code? p = some is := by
  rw [h.code, if_neg, hp]
  rintro rfl
  cases h.new.symm.trans hp

theorem Gen.addBlocks_run (hs : s.assembly.Sound) (hp : s.place = some ⟨n, x⟩)
    (hcode : s.assembly.code? ⟨n, x⟩ = some is) (name name' : String) :
    ∃ y z a, s.assembly.Widens n y z a ∧ ∀ {β : Type} (g : Place → Place → Gen β),
      (do let p ← Gen.addBlock name; let q ← Gen.addBlock name'; g p q).run s =
        (g ⟨n, y⟩ ⟨n, z⟩).run { s with assembly := a } := by
  obtain ⟨r, y, hr, hname, hblocks, hrun, hadds⟩ := Gen.addBlock_runs hs hp hcode name
  have hs' : (s.assembly.withBlock r name).Sound := hs.withBlock hr
  obtain ⟨r', z, hr', hname', hblocks', hrun', hadds'⟩ :=
    Gen.addBlock_runs (s := { s with assembly := s.assembly.withBlock r name }) hs' hp
      (hadds.old hcode) name'
  refine ⟨y, z, (s.assembly.withBlock r name).withBlock r' name', ?_, fun g => ?_⟩
  · constructor
    case grows => exact hadds.grows.trans hadds'.grows
    case new => exact hadds.new
    case new' =>
      cases hz : s.assembly.code? ⟨n, z⟩ with
      | none => rfl
      | some js => cases hadds'.new.symm.trans (hadds.old hz)
    case apart =>
      rintro rfl
      cases hadds'.new.symm.trans hadds.empty
    case code => exact fun q js hq => hadds'.old (hadds.old hq)
    case empty => exact hadds'.old hadds.empty
    case empty' => exact hadds'.empty
    case left => exact fun ρ c h => (h.blockLeft hr hblocks name).blockLeft hr' hblocks' name'
    case right => exact fun ρ c h => (h.blockRight hr hblocks name).blockRight hr' hblocks' name'
  · rw [Gen.run_bind, hrun]
    dsimp only
    rw [Gen.run_bind, hrun']

theorem Gen.branch_runs {p : Place} (hp : t.place = some p) (hcode : t.assembly.code? p = some [])
    (q : Place) : ∃ r, t.assembly.routine? p.routine = some r ∧
      (Gen.branch q).run t =
        (.ok (), { t with assembly := t.assembly.withInstr p r (.br q.block) }) ∧
      (t.assembly.withInstr p r (.br q.block)).code? p = some [⟨r.takeName.1, .br q.block⟩] ∧
      ∀ q', q' ≠ p → (t.assembly.withInstr p r (.br q.block)).code? q' = t.assembly.code? q' := by
  obtain ⟨r, hr, -⟩ := Option.bind_eq_some_iff.mp hcode
  refine ⟨r, hr, ?_, ?_, fun q' hq' => ?_⟩
  · have hrun : (Gen.emit (.br q.block)).run t = _ := Gen.run_emit_at hp hr
    rw [hcode] at hrun
    rw [Gen.branch, Gen.run_bind, hrun]
    rfl
  · rw [Assembly.code?_withInstr hr, if_pos rfl, hcode]
    rfl
  · rw [Assembly.code?_withInstr hr, if_neg hq']

theorem Gen.closeWith_run {p q : Place} {v : Session} (hp : t.place = some p)
    (hcode : t.assembly.code? p = some [])
    (hbranch : (Gen.branch q).run t = (.ok (), v)) : (Gen.closeWith q).run t = (.ok (), v) := by
  rw [Gen.run_closeWith hp hcode, if_neg (by simp)]
  exact hbranch

theorem Gen.run_countUp (s : Session) :
    Gen.countUp.run s = (.ok (s.counter + 1), { s with counter := s.counter + 1 }) := rfl

theorem Gen.moveToStart_run {q : Place} (h : s.assembly.code? q = some []) :
    (Gen.moveToStart q).run s = (.ok (), { s with place := some q }) := by
  rw [Gen.run_moveToStart, if_pos h]

end Writing

namespace Pairing

variable {ρ σ : Pairing} {a b b' : Assembly} {n x y z : String}

theorem not_pairedLeft_withBlocks {x' y' : String} (h : ¬ ρ.PairedLeft n x) (hne : x ≠ x') :
    ¬ (ρ.withBlocks n x' y').PairedLeft n x := by
  rintro ⟨z, hz | ⟨-, heq, -⟩⟩
  · exact h ⟨z, hz⟩
  · exact hne heq

theorem not_pairedRight_withBlocks {x' y' : String} (h : ¬ ρ.PairedRight n y) (hne : y ≠ y') :
    ¬ (ρ.withBlocks n x' y').PairedRight n y := by
  rintro ⟨z, hz | ⟨-, -, heq⟩⟩
  · exact h ⟨z, hz⟩
  · exact hne heq

/-- All detours but one lead to the partner of their block. -/
def SettledBut (ρ : Pairing) (b : Assembly) (n x y : String) : Prop :=
  ∀ r x' y', ρ.detours r x' y' → (r = n ∧ x' = x ∧ y' = y) ∨
    ∃ i z js, b.code? ⟨r, y'⟩ = some (⟨i, .br z⟩ :: js) ∧ ρ.blocks r x' z

theorem Settled.but (h : ρ.Settled b) (n x y : String) :
    (ρ.withDetour n x y).SettledBut b n x y := by
  rintro r x' y' (hxy | heq)
  · exact .inr (h r x' y' hxy)
  · exact .inl heq

theorem SettledBut.grows (h : ρ.SettledBut b n x y) (hg : b.Grows b') : ρ.SettledBut b' n x y := by
  intro r x' y' hxy
  refine (h r x' y' hxy).imp_right ?_
  rintro ⟨i, z, js, hcode, hz⟩
  obtain ⟨ks, hks⟩ := hg.code hcode
  exact ⟨i, z, js ++ ks, hks, hz⟩

theorem SettledBut.more (h : ρ.SettledBut b n x y) (hρ : ρ.Sub σ)
    (hdetours : ∀ r x y, σ.detours r x y → ρ.detours r x y) : σ.SettledBut b n x y := by
  intro r x' y' hxy
  refine (h r x' y' (hdetours r x' y' hxy)).imp_right ?_
  rintro ⟨i, z, js, hcode, hz⟩
  exact ⟨i, z, js, hcode, hρ.blocks r x' z hz⟩

theorem SettledBut.settle (h : ρ.SettledBut b n x y) {i : String} {js : List Instr}
    (hcode : b.code? ⟨n, y⟩ = some (⟨i, .br z⟩ :: js)) (hz : ρ.blocks n x z) : ρ.Settled b := by
  intro r x' y' hxy
  rcases h r x' y' hxy with ⟨rfl, rfl, rfl⟩ | hsettled
  · exact ⟨i, z, js, hcode, hz⟩
  · exact hsettled

end Pairing

section Detours

variable {ρ : Pairing} {s t : Session} {n x y : String}

/-- A test is written on both sides. One of the jumps of the second side takes a detour. -/
theorem branchOn_detour (h : Matched ρ s.assembly t.assembly) (hsettled : ρ.Settled t.assembly)
    (hp : s.place = some ⟨n, x⟩) (hq : t.place = some ⟨n, y⟩) (hxy : ρ.blocks n x y)
    {v v' : Option Operand} (hv : ρ.MatesOpt (some n) v v') {x' y' : String} {p p' q q' : Place}
    (hpp : (ρ.withDetour n x' y').Targets n p.block p'.block)
    (hqq : (ρ.withDetour n x' y').Targets n q.block q'.block) :
    Lockstep (Gen.branchOn v p q) (Gen.branchOn v' p' q') s t fun _ _ s' t' => ∃ σ,
      ρ.Sub σ ∧ σ.blocks = ρ.blocks ∧ Matched σ s'.assembly t'.assembly ∧
        σ.SettledBut t'.assembly n x' y' ∧
        s.Stays s' ∧ t.Stays t' ∧ s'.notes = s.notes ∧ t'.notes = t.notes := by
  have hdetour : ρ.Sub (ρ.withDetour n x' y') := Pairing.sub_withDetour ..
  refine ((h.detour n x' y').emit hp hq hxy (.condBr (hv.mono hdetour) hpp hqq)).bind ?_
  rintro _ _ _ _ - - ⟨a, b, i, j, rfl, rfl, hga, hgb, hmatched, -⟩
  have hsub := Pairing.sub_withInstrs (ρ := ρ.withDetour n x' y') n i j
  exact .ok rfl rfl ⟨_, hdetour.trans hsub, rfl, hmatched, ((hsettled.but n x' y').grows hgb).more
    hsub fun _ _ _ h => h, ⟨rfl, rfl, rfl, hga⟩, ⟨rfl, rfl, rfl, hgb⟩, rfl, rfl⟩

theorem branch_settles {a : Assembly} (h : Matched ρ a t.assembly)
    (hbut : ρ.SettledBut t.assembly n x y)
    (hq : t.place = some ⟨n, y⟩) (hcode : t.assembly.code? ⟨n, y⟩ = some [])
      (halone : ¬ ρ.PairedRight n y)
    {q : Place} (hxq : ρ.blocks n x q.block) : ∃ t', (Gen.branch q).run t = (.ok (), t') ∧
      t.Stays t' ∧ t'.notes = t.notes ∧ Matched ρ a t'.assembly ∧ ρ.Settled t'.assembly ∧
      ∀ q', q' ≠ ⟨n, y⟩ → t'.assembly.code? q' = t.assembly.code? q' := by
  obtain ⟨r, hr, hrun, hjump, hother⟩ := Gen.branch_runs hq hcode q
  have hgrows : t.assembly.Grows (t.assembly.withInstr ⟨n, y⟩ r (.br q.block)) := .withInstr hr
  exact ⟨_, hrun, ⟨rfl, rfl, rfl, hgrows⟩, rfl, h.writeRight hr halone,
    (hbut.grows hgrows).settle hjump hxq, hother⟩

end Detours

/-- The tests of a loop and of a condition have been written; the block behind the condition leads
nowhere yet. -/
structure GuardTested (ρ : Pairing) (n entry exit on after : String) (a b : Assembly) :
    Prop extends Matched ρ a b where
  waiting : ρ.SettledBut b n entry on
  exits : ρ.blocks n exit after
  entryEmpty : a.code? ⟨n, entry⟩ = some []
  exitEmpty : a.code? ⟨n, exit⟩ = some []
  onEmpty : b.code? ⟨n, on⟩ = some []
  aloneLeft : ¬ ρ.PairedLeft n entry
  aloneRight : ¬ ρ.PairedRight n on

/-- A `while` loop and a guarded `for` loop where their bodies begin. The exit of the `for` loop has
no partner. -/
structure Abreast (ρ : Pairing) (n entry exit entry' exit' after : String) (s t : Session) :
    Prop where
  place : s.place = some ⟨n, entry⟩
  place' : t.place = some ⟨n, entry'⟩
  enters : ρ.blocks n entry entry'
  exits : ρ.blocks n exit after
  empty : s.assembly.code? ⟨n, exit⟩ = some []
  empty' : t.assembly.code? ⟨n, exit'⟩ = some []
  apart : exit ≠ entry
  apart' : exit' ≠ entry'
  alone : ¬ ρ.PairedRight n exit'

section Opening

variable {ρ : Pairing} {k : Known} {r : Option String} {s t : Session} {e : Edition} {c : Expr}

theorem Matched.orderly {n x : String} {b : Assembly} (h : Matched ρ s.assembly b)
    (hp : s.place = some ⟨n, x⟩) (hx : ρ.PairedLeft n x) : s.Orderly := by
  refine ⟨h.left.1, fun p hp' => ?_⟩
  obtain rfl := Option.some.inj (hp.symm.trans hp')
  exact h.fits.pairedLeft_isSome n x hx

theorem Matched.orderlyRight {n y : String} {a : Assembly} (h : Matched ρ a t.assembly)
    (hq : t.place = some ⟨n, y⟩) (hy : ρ.PairedRight n y) : t.Orderly := by
  refine ⟨h.right.1, fun p hp' => ?_⟩
  obtain rfl := Option.some.inj (hq.symm.trans hp')
  exact h.fits.pairedRight_isSome n y hy

theorem startGuard_lockstep (h : Alike ρ k r s t) (hc : c.isClear k = true) :
    Lockstep (Gen.startWhile e c) (Gen.startThen e c) s t fun l l' s' t' =>
      ∃ σ n entry exit on after,
      r = some n ∧ l = ⟨⟨n, entry⟩, ⟨n, exit⟩⟩ ∧ l' = (⟨n, on⟩, ⟨n, after⟩) ∧ ρ.Sub σ ∧
        ρ.Fresh σ t.assembly ∧
        s.Stays s' ∧ t.Stays t' ∧ s'.notes = { t'.notes with counter := t'.counter + 1 } ∧
        GuardTested σ n entry exit on after s'.assembly t'.assembly := by
  refine Lockstep.bind (value_tandem e c h hc) ?_
  rintro test test' s₁ t₁ - - ⟨σ₁, hσ₁, hfresh₁, h₁, hs₁, ht₁, htest⟩
  rcases h₁.here with ⟨hp, hq, -⟩ | ⟨n, x, y, -, -, is, js, hp, hq, hr, hxy, -, -, his, hjs, -⟩
  · have hp' : { s₁ with counter := s₁.counter + 1 }.place = none := hp
    refine Lockstep.left (Gen.run_countUp s₁) (Lockstep.bind (Q := fun _ _ _ _ => False)
      (.fail (Gen.addBlock_nowhere hp' _) (Gen.branchPlace_nowhere hq)) fun _ _ _ _ _ _ hfalse =>
        hfalse.elim)
  · subst hr
    obtain ⟨entry, exit, a, hwiden, hrun⟩ :=
      Gen.addBlocks_run (s := { s₁ with counter := s₁.counter + 1 })
      h₁.left.1 hp his ("while_loop_entry_" ++ toString (s₁.counter + 1))
      ("while_loop_otherwise_" ++ toString (s₁.counter + 1))
    obtain ⟨on, after, b, hwiden', hrun'⟩ := Gen.addBlocks_run h₁.right.1 hq hjs (suffixed y ".if")
      (suffixed y ".endif")
    refine Lockstep.left (Gen.run_countUp s₁) (Lockstep.right (Gen.run_branchPlace hq)
      (.from_runs (hrun _) (hrun' _) ?_))
    have hblocks : σ₁.Sub (σ₁.withBlocks n exit after) := Pairing.sub_withBlocks ..
    have hmatched := (hwiden.left _ _ (hwiden'.right _ _ h₁.toMatched)).pair
      hwiden.empty' hwiden'.empty'
      (h₁.toMatched.unpaired_left hwiden.new') (h₁.toMatched.unpaired_right hwiden'.new')
    have hsettled := (h₁.settled.grows hwiden'.grows).more hblocks fun _ _ _ h => h
    refine (branchOn_detour (s := { s₁ with counter := s₁.counter + 1, assembly := a })
      (t := { t₁ with assembly := b }) (p := ⟨n, entry⟩) (q := ⟨n, exit⟩)
      hmatched hsettled hp hq (.inl hxy) (htest.value.mono hblocks)
      (.inr (.inr ⟨rfl, rfl, rfl⟩)) (.inl (.inr ⟨rfl, rfl, rfl⟩))).bind ?_
    rintro _ _ s₂ t₂ hrun₂ hrun₂' ⟨σ₂, hσ₂, hblocks₂, hmatched₂, hbut, hs₂, ht₂, hnotes, hnotes'⟩
    have horderly : Session.Orderly { s₁ with counter := s₁.counter + 1, assembly := a } :=
      Matched.orderly hmatched hp ⟨y, .inl hxy⟩
    have horderly' : Session.Orderly { t₁ with assembly := b } :=
      Matched.orderlyRight hmatched hq ⟨x, .inl hxy⟩
    have hleft := (appending.branchOn test.value ⟨n, entry⟩ ⟨n, exit⟩).ok horderly hrun₂
    have hright := (appending.branchOn test'.value ⟨n, on⟩ ⟨n, after⟩).ok horderly' hrun₂'
    -- the new blocks are not those that the tests are written to
    have hne : ∀ z, s₁.assembly.code? ⟨n, z⟩ = none → s₁.place ≠ some ⟨n, z⟩ := by
      intro z hz hplace
      obtain rfl := (Place.mk.inj (Option.some.inj (hp.symm.trans hplace))).2
      cases hz.symm.trans his
    have hne' : t₁.place ≠ some ⟨n, on⟩ := by
      intro hplace
      obtain rfl := (Place.mk.inj (Option.some.inj (hq.symm.trans hplace))).2
      cases hwiden'.new.symm.trans hjs
    have haloneLeft : ¬ (σ₁.withBlocks n exit after).PairedLeft n entry :=
      Pairing.not_pairedLeft_withBlocks (h₁.toMatched.unpaired_left hwiden.new) hwiden.apart
    have haloneRight : ¬ (σ₁.withBlocks n exit after).PairedRight n on :=
      Pairing.not_pairedRight_withBlocks (h₁.toMatched.unpaired_right hwiden'.new) hwiden'.apart
    have hfresh : σ₁.Fresh σ₂ t₁.assembly :=
      (Pairing.Fresh.withBlocks hwiden'.new').trans (.of_blocks hblocks₂ _) (.refl _)
    refine .ok rfl rfl ⟨σ₂, n, entry, exit, on, after, rfl, rfl, rfl, hσ₁.trans (hblocks.trans hσ₂),
      hfresh₁.trans hfresh ht₁.grows, hs₁.trans ?_, ht₁.trans ?_, ?_,
        ⟨hmatched₂, hbut, ?_, ?_, ?_, ?_, ?_, ?_⟩⟩
    · exact ⟨hs₂.place, hs₂.scopes, hs₂.loops, hwiden.grows.trans hs₂.grows⟩
    · exact ⟨ht₂.place, ht₂.scopes, ht₂.loops, hwiden'.grows.trans ht₂.grows⟩
    · rw [hnotes, hnotes', show t₂.counter = t₁.counter from congrArg Notes.counter hnotes']
      exact congrArg (fun m : Notes => { m with counter := m.counter + 1 }) h₁.notes
    · exact hσ₂.blocks n exit after (.inr ⟨rfl, rfl, rfl⟩)
    · exact hleft.code horderly hwiden.empty (hne entry hwiden.new)
    · exact hleft.code horderly hwiden.empty' (hne exit hwiden.new')
    · exact hright.code horderly' hwiden'.empty hne'
    · rw [Pairing.PairedLeft, hblocks₂]
      exact haloneLeft
    · rw [Pairing.PairedRight, hblocks₂]
      exact haloneRight

theorem enterGuard_lockstep {σ : Pairing} {s' t' : Session} {n entry exit on after : String}
    (h : Alike ρ k (some n) s t) (hσ : ρ.Sub σ) (hs : s.Stays s') (ht : t.Stays t')
    (hnotes : s'.notes = { t'.notes with counter := t'.counter + 1 })
    (htested : GuardTested σ n entry exit on after s'.assembly t'.assembly) :
    Lockstep (Gen.moveToStart ⟨n, entry⟩)
      (do Gen.moveTo (some ⟨n, on⟩); Gen.enterScope; Gen.startFor) s' t'
      fun _ l u v => ∃ τ entry' exit', l = ⟨⟨n, entry'⟩, ⟨n, exit'⟩⟩ ∧ Later σ s' t' τ u v ∧
        u.loops = s'.loops ∧
        v.loops = t'.loops.enter l.entry l.exit ∧ Alike τ { k with inLoop := false } (some n) u v ∧
        Abreast τ n entry exit entry' exit' after u v := by
  obtain ⟨entry', exit', b, hwiden, hrun⟩ := Gen.addBlocks_run (s := { t' with
    place := some ⟨n, on⟩
    scopes := t'.scopes.enter
    counter := t'.counter + 1 }) htested.right.1 rfl htested.onEmpty
    ("for_loop_entry_" ++ toString (t'.counter + 1))
      ("for_loop_otherwise_" ++ toString (t'.counter + 1))
  have hsub : σ.Sub (σ.withBlocks n entry entry') := Pairing.sub_withBlocks ..
  have hmatched := (hwiden.right _ _ htested.toMatched).pair htested.entryEmpty hwiden.empty
    htested.aloneLeft (htested.toMatched.unpaired_right hwiden.new)
  have hbut := (htested.waiting.grows hwiden.grows).more hsub fun _ _ _ h => h
  have hne : on ≠ entry' := by
    rintro rfl
    cases hwiden.new.symm.trans htested.onEmpty
  have hne' : exit' ≠ on := by
    rintro rfl
    cases hwiden.new'.symm.trans htested.onEmpty
  obtain ⟨v, hbranch, hv, hvnotes, hmatched', hsettled, hother⟩ := branch_settles (q := ⟨n, entry'⟩)
    (t := { t' with
      place := some ⟨n, on⟩
      scopes := t'.scopes.enter
      counter := t'.counter + 1
      assembly := b
      loops := t'.loops.enter ⟨n, entry'⟩ ⟨n, exit'⟩ }) hmatched hbut
        rfl (hwiden.code _ _ htested.onEmpty)
    (Pairing.not_pairedRight_withBlocks htested.aloneRight hne) (.inr ⟨rfl, rfl, rfl⟩)
  have hentry : v.assembly.code? ⟨n, entry'⟩ = some [] :=
    (hother _ fun heq => hne (Place.mk.inj heq).2.symm).trans hwiden.empty
  have hexit : v.assembly.code? ⟨n, exit'⟩ = some [] :=
    (hother _ fun heq => hne' (Place.mk.inj heq).2).trans hwiden.empty'
  refine Lockstep.right rfl (Lockstep.right rfl (Lockstep.right rfl (.from_runs rfl (hrun _) ?_)))
  refine Lockstep.right rfl (Lockstep.right hbranch
    (Lockstep.right (Gen.moveToStart_run hentry) ?_))
  refine .ok (Gen.moveToStart_run htested.entryEmpty)
    rfl ⟨_, entry', exit', rfl, ⟨hsub, .withBlocks hwiden.new,
    ⟨List.suffix_rfl, .refl _⟩, ⟨?_, hwiden.grows.trans hv.grows⟩⟩, rfl, hv.loops, ?_, ?_⟩
  · have hscopes : v.scopes.tail = t'.scopes := congrArg List.tail hv.scopes
    rw [hscopes]
    exact List.tail_suffix _
  · refine ⟨⟨hmatched', hsettled, hnotes.trans hvnotes.symm⟩, rfl,
      .some ⟨rfl, .inr ⟨rfl, rfl, rfl⟩⟩, fun name hname => ?_, ?_, fun h => by cases h⟩
    · have hfind : v.scopes.find? name = t.scopes.find? name := by
        rw [hv.scopes, ← ht.scopes]
        rfl
      dsimp only
      rw [hs.scopes, hfind]
      exact optionRel_mono (fun _ _ h => h.mono (hσ.trans hsub)) (h.names name hname)
    · dsimp only
      rw [hs.scopes]
      exact h.known
  · refine ⟨rfl, rfl, .inr ⟨rfl, rfl, rfl⟩, hsub.blocks _ _ _ htested.exits, htested.exitEmpty,
      hexit, ?_, hwiden.apart.symm, ?_⟩
    · rintro rfl
      exact htested.aloneLeft ⟨after, htested.exits⟩
    · exact Pairing.not_pairedRight_withBlocks (htested.toMatched.unpaired_right hwiden.new')
        hwiden.apart.symm

/-- A `for` loop under a condition, up to its body; gives its blocks and the one behind the
condition. -/
def Gen.openGuard (e : Edition) (c : Expr) : Gen (LoopBlocks × Place) := do
  let after ← openThen e c
  enterScope
  let l ← startFor
  return (l, after)

def Gen.closeGuard (e : Edition) (c : Expr) (l : LoopBlocks × Place) : Gen Unit := do
  closeFor e c l.1
  closeArm l.2 l.2

theorem openGuard_lockstep (h : Alike ρ k r s t) (hc : c.isClear k = true) :
    Lockstep (Gen.openWhile e c) (Gen.openGuard e c) s t fun l l' s' t' =>
      ∃ σ n entry exit entry' exit' after,
      r = some n ∧ l = ⟨⟨n, entry⟩, ⟨n, exit⟩⟩ ∧ l' = (⟨⟨n, entry'⟩, ⟨n, exit'⟩⟩, ⟨n, after⟩) ∧
        Later ρ s t σ s' t' ∧ s'.loops = s.loops ∧ t'.loops = t.loops.enter l'.1.entry l'.1.exit ∧
        Alike σ { k with inLoop := false } (some n) s' t' ∧
          Abreast σ n entry exit entry' exit' after s' t' := by
  simp only [Gen.openWhile_eq, Gen.openGuard, Gen.openThen_eq, bind_assoc, pure_bind]
  refine (startGuard_lockstep h hc).bind ?_
  rintro _ _ s₁ t₁ - - ⟨σ₁, n, entry, exit, on, after, rfl, rfl, rfl, hσ₁, hfresh₁, hs₁, ht₁,
    hnotes, htested⟩
  have hlater₁ : Later ρ s t σ₁ s₁ t₁ := ⟨hσ₁, hfresh₁, hs₁.goes, ht₁.goes⟩
  have hassoc : ∀ f : LoopBlocks → Gen (LoopBlocks × Place),
      (do Gen.moveTo (some ⟨n, on⟩); Gen.enterScope; let l ← Gen.startFor; f l) =
        (do let l ← (do Gen.moveTo (some ⟨n, on⟩); Gen.enterScope; Gen.startFor); f l) := by
    intro f
    simp only [bind_assoc]
  rw [hassoc]
  refine (enterGuard_lockstep h hσ₁ hs₁ ht₁ hnotes htested).bind ?_
  rintro _ _ s₂ t₂ - - ⟨σ₂, entry', exit', rfl, hlater₂, hloops, hloops', h₂, habreast⟩
  exact .ok rfl rfl ⟨σ₂, n, entry, exit, entry', exit', after, rfl, rfl, rfl, hlater₁.trans hlater₂,
    hloops.trans hs₁.loops, by rw [hloops', ht₁.loops], h₂, habreast⟩

end Opening

section Closing

variable {ρ σ : Pairing} {k k₁ : Known} {r : Option String} {s₀ t₀ s t : Session} {e : Edition}
  {c : Expr} {n entry exit entry' exit' after : String}

theorem closeGuard_lockstep (h₀ : Abreast ρ n entry exit entry' exit' after s₀ t₀)
    (hs₀ : s₀.Orderly)
    (ht₀ : t₀.Orderly) (hret : Returns ρ s₀ t₀ σ s t) (hs : s₀.Preserves s) (ht : t₀.Preserves t)
    (h : Alike σ k (some n) s t) (hc : c.isClear k = true) :
    Lockstep (Gen.closeWhile e c ⟨⟨n, entry⟩, ⟨n, exit⟩⟩)
      (Gen.closeGuard e c (⟨⟨n, entry'⟩, ⟨n, exit'⟩⟩, ⟨n, after⟩)) s t fun _ _ s' t' =>
        ∃ τ, Later σ s t τ s' t' ∧ s'.loops = s.loops ∧ t'.loops = t.loops.leave ∧
          Alike τ { k with inLoop := false } (some n) s' t' := by
  simp only [Gen.closeWhile, Gen.closeGuard, Gen.closeFor, Gen.closeArm, bind_assoc]
  refine Lockstep.bind (value_tandem e c h hc) ?_
  rintro test test' s₁ t₁ hrun₁ hrun₁' ⟨σ₁, hσ₁, hfresh₁, h₁, hs₁, ht₁, htest⟩
  have horder := hs.orderly hs₀
  have horder' := ht.orderly ht₀
  have hpres₁ := (appending.value e c).ok horder hrun₁
  have hpres₁' := (appending.value e c).ok horder' hrun₁'
  have hsub₁ := hret.sub.trans hσ₁
  -- the exit of the `for` loop was there before its body, so it has not been put together with
  -- another block
  have halone : ¬ σ₁.PairedRight n exit' := fun hpaired =>
    h₀.alone (hret.fresh.trans hfresh₁ hret.right.grows n exit' hpaired (by rw [h₀.empty']; rfl))
  rcases h₁.here with ⟨-, -, hnone⟩ | ⟨m, x, y, -, -, -, -, hp, hq, hm, hxy, -⟩
  · cases hnone
  obtain rfl := Option.some.inj hm
  refine (branchOn_detour (p := ⟨n, entry⟩) (q := ⟨n, exit⟩) h₁.toMatched h₁.settled hp hq hxy
    htest.value (.inl (hsub₁.blocks _ _ _ h₀.enters)) (.inr (.inr ⟨rfl, rfl, rfl⟩))).bind ?_
  rintro _ _ s₂ t₂ hrun₂ hrun₂' ⟨σ₂, hσ₂, hblocks₂, hmatched₂, hbut, hs₂, ht₂, hnotes, hnotes'⟩
  have hpres₂ := (appending.branchOn test.value ⟨n, entry⟩ ⟨n, exit⟩).ok (hpres₁.orderly horder)
    hrun₂
  have hpres₂' := (appending.branchOn test'.value ⟨n, entry'⟩ ⟨n, exit'⟩).ok
    (hpres₁'.orderly horder') hrun₂'
  -- nothing has been written to the exits of the loops
  have hexit : s₂.assembly.code? ⟨n, exit⟩ = some [] :=
    (hs.trans (hpres₁.trans hpres₂)).code hs₀ h₀.empty
    fun heq => h₀.apart (Place.mk.inj (Option.some.inj (h₀.place.symm.trans heq))).2.symm
  have hexit' : t₂.assembly.code? ⟨n, exit'⟩ = some [] :=
    (ht.trans (hpres₁'.trans hpres₂')).code ht₀ h₀.empty'
    fun heq => h₀.apart' (Place.mk.inj (Option.some.inj (h₀.place'.symm.trans heq))).2.symm
  have hexits : σ₂.blocks n exit after := hσ₂.blocks _ _ _ (hsub₁.blocks _ _ _ h₀.exits)
  have halone₂ : ¬ σ₂.PairedRight n exit' := by
    rw [Pairing.PairedRight, hblocks₂]
    exact halone
  obtain ⟨v, hbranch, hv, hvnotes, hmatched₃, hsettled, -⟩ := branch_settles (q := ⟨n, after⟩)
    (t := { t₂ with place := some ⟨n, exit'⟩, loops := t₂.loops.leave }) hmatched₂ hbut rfl hexit'
      halone₂ hexits
  have hclose : (Gen.closeWith ⟨n, after⟩).run
      { t₂ with place := some ⟨n, exit'⟩, loops := t₂.loops.leave } = (.ok (), v) :=
    Gen.closeWith_run rfl hexit' hbranch
  refine Lockstep.right (Gen.moveToStart_run hexit') (Lockstep.right rfl (Lockstep.right hclose ?_))
  have hscopes : s₂.scopes = s₁.scopes := hs₂.scopes
  have hscopes' : v.scopes = t₁.scopes := hv.scopes.trans ht₂.scopes
  refine .ok (Gen.moveToStart_run hexit) rfl ⟨σ₂, ⟨hσ₁.trans hσ₂, ?_, ?_, ?_⟩, ?_, ?_, ?_⟩
  · exact hfresh₁.trans (.of_blocks hblocks₂ _) ht₁.grows
  · exact ⟨(hs₁.trans hs₂).goes.outer, hs₁.grows.trans hs₂.grows⟩
  · exact ⟨hscopes' ▸ ht₁.goes.outer, ht₁.grows.trans (ht₂.grows.trans hv.grows)⟩
  · exact hs₂.loops.trans hs₁.loops
  · exact hv.loops.trans (by rw [ht₂.loops, ht₁.loops])
  · refine ⟨⟨hmatched₃, hsettled, hnotes.trans (h₁.notes.trans (hnotes'.symm.trans hvnotes.symm))⟩,
      rfl, .some ⟨rfl, hexits⟩, fun name hname => ?_, ?_, fun h => by cases h⟩
    · dsimp only
      rw [hscopes, hscopes']
      exact optionRel_mono (fun _ _ h => h.mono hσ₂) (h₁.names name hname)
    · dsimp only
      rw [hscopes]
      exact h₁.known

/-- A `while` loop does what a `for` loop without initialisation does under its condition. -/
theorem guarded_agree {g g' : Gen Unit} (hc : c.isClear k = true)
    (hbody : Agree { k with inLoop := false } k₁ g g')
    (hc₁ : c.isClear k₁ = true) (hg : Appending g) (hg' : Appending g') :
    Agree k (k.behind k₁) (do let l ← Gen.openWhile e c; g; Gen.closeWhile e c l)
      (do let l ← Gen.openGuard e c; g'; Gen.closeGuard e c l) where
  own _ h := h
  inLoop := rfl
  run ρ r s t h := by
    refine (openGuard_lockstep h hc).bind ?_
    rintro _ _ s₁ t₁ - - ⟨σ₁, n, entry, exit, entry', exit', after, rfl, rfl, rfl, hlater₁, hloops₁,
      hloops₁', h₁, h₀⟩
    have horder : s₁.Orderly := h₁.toMatched.orderly h₀.place ⟨_, h₀.enters⟩
    have horder' : t₁.Orderly := h₁.toMatched.orderlyRight h₀.place' ⟨_, h₀.enters⟩
    refine (hbody.run σ₁ (some n) s₁ t₁ h₁).bind ?_
    rintro _ _ s₂ t₂ hrun hrun' ⟨σ₂, hret₂, h₂⟩
    refine (closeGuard_lockstep h₀ horder horder' hret₂ (hg.ok horder hrun) (hg'.ok horder' hrun')
      h₂ hc₁).mono ?_
    rintro _ _ s₃ t₃ - - ⟨σ₃, hlater₃, hloops₃, hloops₃', h₃⟩
    have hlater := hlater₁.trans (hret₂.toLater.trans hlater₃)
    have hloops : s₃.loops = s.loops := hloops₃.trans (hret₂.loops.trans hloops₁)
    have hloops' : t₃.loops = t.loops := by
      rw [hloops₃', hret₂.loops', hloops₁']
      rfl
    have hview : Alike σ₃ { k.behind k₁ with inLoop := false } (some n) s₃ t₃ :=
      h₃.weaken (fun _ => Known.admits_behind hbody.own) (fun _ h => h) id
    refine ⟨σ₃, ⟨hlater, hloops, hloops'⟩, { hview with loops := fun hk => ?_ }⟩
    rw [hloops, hloops']
    exact (h.loops hk).mono hlater.sub

end Closing

end LimeLang
