import LimeLang.Proofs.PairedSessions
import LimeLang.Proofs.ScopedPrograms
import LimeLang.Proofs.StatementParts

/-! Statements on both sides of a pairing: blocks are made and entered side by side, names are
defined and routines opened and closed. -/

namespace LimeLang

open Code

variable {p q : Place} {importer : String → Gen Unit} {r : Option String}

section Naming

variable {k : Known} {m n : Literal}

theorem Literal.same_congr (h : m.same n = true) (l : Literal) : l.same m = l.same n := by
  simp only [Literal.same, decide_eq_true_eq] at h ⊢
  rw [h]

theorem Known.admits_congr (h : m.same n = true) : k.admits m = k.admits n := by
  simp only [admits, Literal.same_congr h]

theorem Known.admits_declare (h : (k.declare m).admits n = true) : m.same n = true ∨
    k.admits n = true := by
  by_cases hsame : m.same n = true
  · exact .inl hsame
  · right
    simpa only [admits, declare, List.any_cons, hsame, Bool.false_or] using h

theorem Known.knows_declare : (k.declare m).knows n = (m.same n || k.knows n) := by
  rw [knows, declare, List.any_cons, knows]

/-- Behind code that may have been left out, only names from before it may be used. -/
theorem Known.admits_behind {k' : Known} (hown : ∀ n, k.owns n = true → k'.owns n = true)
    (h : (k.behind k').admits n = true) : k'.admits n = true := by
  rw [admits, Bool.or_eq_true] at h ⊢
  exact h.imp (hown n) id

end Naming

/-- A session of the same or a later point of the same routine, or of one inside of it. -/
structure Session.Goes (s t : Session) : Prop where
  outer : s.scopes.tail <:+ t.scopes.tail
  grows : s.assembly.Grows t.assembly

theorem Session.Goes.trans {s t u : Session} (h : s.Goes t) (h' : t.Goes u) : s.Goes u :=
  ⟨h.outer.trans h'.outer, h.grows.trans h'.grows⟩

theorem Session.Stays.goes {s t : Session} (h : s.Stays t) :
    s.Goes t := ⟨h.scopes ▸ List.suffix_rfl, h.grows⟩

structure Later (ρ : Pairing) (s t : Session) (σ : Pairing) (s' t' : Session) : Prop where
  sub : ρ.Sub σ
  fresh : ρ.Fresh σ t.assembly
  left : s.Goes s'
  right : t.Goes t'

theorem Later.trans {ρ σ τ : Pairing} {s s' s'' t t' t'' : Session} (h : Later ρ s t σ s' t')
    (h' : Later σ s' t' τ s'' t'') : Later ρ s t τ s'' t'' :=
  ⟨h.sub.trans h'.sub, h.fresh.trans h'.fresh h.right.grows, h.left.trans h'.left,
    h.right.trans h'.right⟩

structure Returns (ρ : Pairing) (s t : Session) (σ : Pairing) (s' t' : Session) : Prop
    extends Later ρ s t σ s' t' where
  loops : s'.loops = s.loops
  loops' : t'.loops = t.loops

theorem Returns.trans {ρ σ τ : Pairing} {s s' s'' t t' t'' : Session} (h : Returns ρ s t σ s' t')
    (h' : Returns σ s' t' τ s'' t'') : Returns ρ s t τ s'' t'' :=
  ⟨h.toLater.trans h'.toLater, h'.loops.trans h.loops, h'.loops'.trans h.loops'⟩

theorem Returns.of_eq {s s' t t' : Session} (ρ : Pairing) (hs : s'.scopes = s.scopes)
    (ht : t'.scopes = t.scopes)
    (ha : s'.assembly = s.assembly) (hb : t'.assembly = t.assembly) (hl : s'.loops = s.loops)
    (hl' : t'.loops = t.loops) : Returns ρ s t ρ s' t' :=
  ⟨⟨.refl ρ, .of_blocks rfl _, ⟨hs ▸ List.suffix_rfl, ha ▸ .refl _⟩,
    ⟨ht ▸ List.suffix_rfl, hb ▸ .refl _⟩⟩, hl, hl'⟩

/-- Both sides have come to a point of the same routine. -/
def Reaches (ρ : Pairing) (k : Known) (r : Option String) (s t s' t' : Session) : Prop :=
  ∃ σ, Returns ρ s t σ s' t' ∧ Alike σ k r s' t'

theorem Lockstep.since {α β : Type} {g : Gen α} {g' : Gen β} {ρ σ : Pairing} {k : Known}
    {s s' t t' : Session} (hst : Returns ρ s t σ s' t')
    (h : Lockstep g g' s' t' fun _ _ => Reaches σ k r s' t') :
    Lockstep g g' s' t' fun _ _ => Reaches ρ k r s t := by
  refine h.mono ?_
  rintro _ _ s'' t'' - - ⟨τ, hτ, h'⟩
  exact ⟨τ, hst.trans hτ, h'⟩

theorem Tandem.after {ρ : Pairing} {k : Known} {α β γ δ : Type} {g : Gen α} {g' : Gen β}
    {s t : Session} {Q : Pairing → α → β → Prop} {f : α → Gen γ} {f' : β → Gen δ}
    {R : γ → δ → Session → Session → Prop} (h : Tandem ρ k r g g' s t Q)
    (hf : ∀ σ a b s' t', Returns ρ s t σ s' t' → Alike σ k r s' t' → Q σ a b →
      Lockstep (f a) (f' b) s' t' R) :
    Lockstep (g >>= f) (g' >>= f') s t R := by
  refine Lockstep.bind h ?_
  rintro a b s' t' - - ⟨σ, hσ, hfresh, hst', hs, ht, hQ⟩
  exact hf σ a b s' t' ⟨⟨hσ, hfresh, hs.goes, ht.goes⟩, hs.loops, ht.loops⟩ hst' hQ

theorem Tandem.reaches {ρ : Pairing} {k : Known} {α β : Type} {g : Gen α} {g' : Gen β}
    {s t : Session} {Q : Pairing → α → β → Prop} (h : Tandem ρ k r g g' s t Q) :
    Lockstep g g' s t fun _ _ => Reaches ρ k r s t := by
  refine Lockstep.mono h ?_
  rintro a b s' t' - - ⟨σ, hσ, hfresh, hst', hs, ht, -⟩
  exact ⟨σ, ⟨⟨hσ, hfresh, hs.goes, ht.goes⟩, hs.loops, ht.loops⟩, hst'⟩

/-- Both computations go from the one point of a program to the other, or both fail. -/
structure Agree (k k' : Known) (g g' : Gen Unit) : Prop where
  own : ∀ name, k.owns name = true → k'.owns name = true
  inLoop : k'.inLoop = k.inLoop
  run : ∀ ρ r s t, Alike ρ k r s t → Lockstep g g' s t fun _ _ => Reaches ρ k' r s t

section Agreeing

variable {k k₁ k₂ : Known} {g g' f f' : Gen Unit}

theorem Agree.of_tandem (h : ∀ ρ r s t, Alike ρ k r s t → Tandem ρ k r g g' s t fun _ _ _ => True) :
    Agree k k g g' where
  own _ h := h
  inLoop := rfl
  run ρ r s t hst := (h ρ r s t hst).reaches

theorem Agree.seq (hg : Agree k k₁ g g') (hf : Agree k₁ k₂ f f') :
    Agree k k₂ (do g; f) (do g'; f') where
  own name h := hf.own name (hg.own name h)
  inLoop := hf.inLoop.trans hg.inLoop
  run ρ r s t hst := by
    refine (hg.run ρ r s t hst).bind ?_
    rintro _ _ s₁ t₁ - - ⟨σ, hσ, hst₁⟩
    exact (hf.run σ r s₁ t₁ hst₁).since hσ

theorem Agree.fails {f f' : Failure} (hown : ∀ name, k.owns name = true → k₁.owns name = true)
    (hloop : k₁.inLoop = k.inLoop) : Agree k k₁ (throw f) (throw f') :=
  ⟨hown, hloop, fun _ _ _ _ _ => .fail rfl rfl⟩

end Agreeing

section Views

variable {ρ : Pairing} {k k' : Known} {r : Option String} {s t : Session}

theorem Alike.weaken (h : Alike ρ k r s t) (hadmits : ∀ name, k'.admits name = true →
    k.admits name = true)
    (hknows : ∀ name, k.knows name = true → k'.knows name = true) (hloop : k'.inLoop = true →
      k.inLoop = true) :
    Alike ρ k' r s t :=
  { h with
    names := fun name hname => h.names name (hadmits name hname)
    known := fun name b n ty hb hv => hknows name (h.known name b n ty hb hv)
    loops := fun hk => h.loops (hloop hk) }

/-- Names that were declared in code that may have been left out are not relied on. -/
theorem Alike.behind {k₁ : Known} (h : Alike ρ k₁ r s t) (hown : ∀ name, k.owns name = true →
    k₁.owns name = true)
    (hloop : k.inLoop = true → k₁.inLoop = true) : Alike ρ (k.behind k₁) r s t :=
  h.weaken (fun _ => Known.admits_behind hown) (fun _ h => h) hloop

/-- A name that stands for the same on both sides counts as declared. -/
theorem Alike.redeclare (h : Alike ρ k r s t) {name : Literal} (hname : k.admits name = true) :
    Alike ρ (k.declare name) r s t := by
  refine h.weaken (fun n hn => ?_) (fun n hn => ?_) id
  · rcases Known.admits_declare hn with hsame | hn
    · rw [← Known.admits_congr hsame]
      exact hname
    · exact hn
  · rw [Known.knows_declare, hn, Bool.or_true]

theorem Alike.names_define {b b' : Binding} (hb : b.Mates ρ r b') {name n : Literal}
    (h : name.same n = true ∨ Option.Rel (fun b b' => b.Mates ρ r b') (s.scopes.find? n)
    (t.scopes.find? n)) :
    Option.Rel (fun b b' => b.Mates ρ r b') ((s.scopes.define name b).find? n)
      ((t.scopes.define name b').find? n) := by
  rw [Chain.find?_define, Chain.find?_define]
  split
  · exact .some hb
  · exact h.resolve_left ‹_›

theorem Alike.define (h : Alike ρ k r s t) {b b' : Binding} (hb : b.Mates ρ r b') (name : Literal) :
    Alike ρ (k.declare name) r { s with scopes := s.scopes.define name b }
      { t with scopes := t.scopes.define name b' } where
  toJoined := ⟨h.toMatched, h.settled, h.notes⟩
  routine := h.routine
  place := h.place
  names n hn := Alike.names_define hb ((Known.admits_declare hn).imp_right (h.names n))
  known n b₁ m ty hb₁ hv := by
    rw [Chain.find?_define] at hb₁
    rw [Known.knows_declare]
    split at hb₁
    · rename_i hsame
      rw [hsame, Bool.true_or]
    · rw [h.known n b₁ m ty hb₁ hv, Bool.or_true]
  loops := h.loops

theorem Alike.defineGlobal (h : Alike ρ k r s t) {b : Binding} {m : String} {ty : Ty}
    (hb : b.value = .global m ty)
    (name : Literal) : Alike ρ k r { s with scopes := s.scopes.define name b }
      { t with scopes := t.scopes.define name b } where
  toJoined := ⟨h.toMatched, h.settled, h.notes⟩
  routine := h.routine
  place := h.place
  names n hn := Alike.names_define ⟨rfl, hb ▸ .global m ty⟩ (.inr (h.names n hn))
  known n b₁ m' ty' hb₁ hv := by
    rw [Chain.find?_define] at hb₁
    split at hb₁
    · rw [← Option.some.inj hb₁, hb] at hv
      cases hv
    · exact h.known n b₁ m' ty' hb₁ hv
  loops := h.loops

theorem Alike.enterLeft (h : Alike ρ k r s t) : Alike ρ k r { s with scopes := s.scopes.enter } t :=
  { h with toJoined := ⟨h.toMatched, h.settled, h.notes⟩ }

theorem Alike.enterRight (h : Alike ρ k r s t) :
    Alike ρ k r s { t with scopes := t.scopes.enter } :=
  { h with toJoined := ⟨h.toMatched, h.settled, h.notes⟩ }

end Views

def Pairing.Spots (ρ : Pairing) (r : Option String) (p q : Place) : Prop :=
  r = some p.routine ∧ ρ.Places p q

section Spots

variable {ρ σ : Pairing} {r : Option String} {p q : Place}

theorem Pairing.Spots.mono (h : ρ.Spots r p q) (hρ : ρ.Sub σ) : σ.Spots r p q := ⟨h.1, h.2.mono hρ⟩

theorem Pairing.Spots.goals (h : ρ.Spots r p q) : ρ.Goals r p q := by
  rintro n rfl
  obtain rfl := Option.some.inj h.1
  exact .inl h.2.2

end Spots

namespace Matched

variable {ρ : Pairing} {a b : Assembly} {n x y : String} {ra rb : Routine} {op : Op}

theorem blockLeft (h : Matched ρ a b) (hra : a.routine? ra.name = some ra)
    (hblocks : ra.blocks ≠ []) (name : String) : Matched ρ (a.withBlock ra name) b :=
  ⟨h.fits.keeps (.withBlock h.left.1 hra hblocks h.fits.pairedLeft_isSome) (.refl b),
    Assembly.Distinct.steps.withBlock hra h.left, h.right⟩

theorem blockRight (h : Matched ρ a b) (hrb : b.routine? rb.name = some rb)
    (hblocks : rb.blocks ≠ []) (name : String) : Matched ρ a (b.withBlock rb name) :=
  ⟨h.fits.keeps (.refl a) (.withBlock h.right.1 hrb hblocks h.fits.pairedRight_isSome), h.left,
    Assembly.Distinct.steps.withBlock hrb h.right⟩

theorem pair (h : Matched ρ a b) (hx : a.code? ⟨n, x⟩ = some []) (hy : b.code? ⟨n, y⟩ = some [])
    (hleft : ¬ ρ.PairedLeft n x) (hright : ¬ ρ.PairedRight n y) :
      Matched (ρ.withBlocks n x y) a b :=
  ⟨h.fits.withBlocks hx hy hleft hright, h.left, h.right⟩

theorem detour (h : Matched ρ a b) (n x y : String) : Matched (ρ.withDetour n x y) a b :=
  ⟨h.fits.withDetour n x y, h.left, h.right⟩

theorem writeRight (h : Matched ρ a b) (hrb : b.routine? n = some rb) (hy : ¬ ρ.PairedRight n y) :
    Matched ρ a (b.withInstr ⟨n, y⟩ rb op) :=
  ⟨h.fits.keeps (.refl a) (.withInstr (p := ⟨n, y⟩) hrb hy), h.left,
    Assembly.Distinct.steps.withInstr (p := ⟨n, y⟩) hrb h.right⟩

theorem unpaired_left (h : Matched ρ a b) (hx : a.code? ⟨n, x⟩ = none) : ¬ ρ.PairedLeft n x := by
  intro hpaired
  have hsome := h.fits.pairedLeft_isSome n x hpaired
  rw [hx] at hsome
  cases hsome

theorem unpaired_right (h : Matched ρ a b) (hy : b.code? ⟨n, y⟩ = none) : ¬ ρ.PairedRight n y := by
  intro hpaired
  have hsome := h.fits.pairedRight_isSome n y hpaired
  rw [hy] at hsome
  cases hsome

end Matched

structure Code.Assembly.Adds (a : Assembly) (q : Place) (b : Assembly) : Prop where
  grows : a.Grows b
  new : a.code? q = none
  code : ∀ q', b.code? q' = if q' = q then some [] else a.code? q'

theorem Code.Assembly.Adds.empty {a b : Assembly} {q : Place} (h : a.Adds q b) :
    b.code? q = some [] := by
  rw [h.code, if_pos rfl]

theorem Gen.addBlock_runs {s : Session} {n x : String} {is : List Instr} (hs : s.assembly.Sound)
    (hp : s.place = some ⟨n, x⟩) (hcode : s.assembly.code? ⟨n, x⟩ = some is) (name : String) :
    ∃ ra y, s.assembly.routine? ra.name = some ra ∧ ra.name = n ∧ ra.blocks ≠ [] ∧
      (Gen.addBlock name).run s = (.ok ⟨n, y⟩,
      { s with assembly := s.assembly.withBlock ra name }) ∧
      s.assembly.Adds ⟨n, y⟩ (s.assembly.withBlock ra name) := by
  obtain ⟨ra, hra, hblock⟩ := Option.bind_eq_some_iff.mp hcode
  obtain ⟨b, hb, -⟩ := Option.map_eq_some_iff.mp hblock
  have hname : ra.name = n := Assembly.routine?_name hra
  subst hname
  refine ⟨ra, (ra.addBlock name).1, hra, rfl, ?_, Gen.run_addBlock hp hra, ?_, ?_, ?_⟩
  · exact List.ne_nil_of_mem (List.mem_of_find?_eq_some hb)
  · exact Assembly.Grows.steps.withBlock hra
  · exact Assembly.code?_new hs hra
  · exact fun q' => Assembly.code?_withBlock hs hra

theorem Gen.addBlock_nowhere {s : Session} (hs : s.place = none) (name : String) :
    (Gen.addBlock name).run s = (.error .noBlockParent, s) := by
  rw [Gen.addBlock, Gen.run_bind, Gen.run_get]
  simp only [hs]
  rfl

theorem Gen.branchPlace_nowhere {s : Session} (hs : s.place = none) :
    Gen.branchPlace.run s = (.error .noBlockName, s) := by
  rw [Gen.branchPlace, Gen.run_bind, Gen.run_get]
  simp only [hs]
  rfl

section Blocks

variable {ρ : Pairing} {k : Known} {r : Option String} {s t : Session}

theorem addBlock_tandem (h : Alike ρ k r s t) (name name' : String) :
    Tandem ρ k r (Gen.addBlock name) (Gen.addBlock name') s t fun σ p q => σ.Spots r p q := by
  rcases h.here with ⟨hp, hq, -⟩ | ⟨n, x, y, -, -, is, js, hp, hq, hr, -, -, -, his, hjs, -⟩
  · exact .fail (Gen.addBlock_nowhere hp name) (Gen.addBlock_nowhere hq name')
  · obtain ⟨ra, x', hra, rfl, hblocks, hrun, hadds⟩ := Gen.addBlock_runs h.left.1 hp his name
    obtain ⟨rb, y', hrb, hname, hblocks', hrun', hadds'⟩ := Gen.addBlock_runs h.right.1 hq hjs name'
    have hright := h.toMatched.unpaired_right hadds'.new
    have hmatched := ((h.toMatched.blockLeft hra hblocks name).blockRight hrb hblocks' name').pair
      hadds.empty hadds'.empty (h.toMatched.unpaired_left hadds.new) hright
    have hsub : ρ.Sub (ρ.withBlocks ra.name x' y') := Pairing.sub_withBlocks ..
    have hjoined : Joined (ρ.withBlocks ra.name x' y')
        { s with assembly := s.assembly.withBlock ra name }
        { t with assembly := t.assembly.withBlock rb name' } :=
      ⟨hmatched, (h.settled.grows hadds'.grows).more hsub fun _ _ _ h => h, h.notes⟩
    exact .ok hrun hrun' ⟨_, hsub, .withBlocks hadds'.new,
      h.stays hsub hjoined ⟨rfl, rfl, rfl, hadds.grows⟩ ⟨rfl, rfl, rfl, hadds'.grows⟩,
      ⟨rfl, rfl, rfl, hadds.grows⟩, ⟨rfl, rfl, rfl, hadds'.grows⟩, hr, rfl, .inr ⟨rfl, rfl, rfl⟩⟩

theorem Alike.move (h : Alike ρ k r s t) (hpq : ρ.Spots r p q) :
    Alike ρ k r { s with place := some p } { t with place := some q } :=
  { h with
    toJoined := ⟨h.toMatched, h.settled, h.notes⟩
    routine := hpq.1.symm
    place := .some hpq.2 }

theorem moveToStart_lockstep (h : Alike ρ k r s t) (hpq : ρ.Spots r p q) :
    Lockstep (Gen.moveToStart p) (Gen.moveToStart q) s t fun _ _ s' t' =>
      s' = { s with place := some p } ∧ t' = { t with place := some q } := by
  obtain ⟨n, x⟩ := p
  obtain ⟨n', y⟩ := q
  obtain ⟨-, hn, hxy⟩ := hpq
  dsimp only at hn hxy
  subst hn
  obtain ⟨is, js, his, hjs, hcode⟩ := h.fits.code n x y hxy
  have hrun := Gen.run_moveToStart ⟨n, x⟩ s
  have hrun' := Gen.run_moveToStart ⟨n, y⟩ t
  rw [his] at hrun
  rw [hjs] at hrun'
  cases hcode with
  | nil => exact .ok (hrun.trans (if_pos rfl)) (hrun'.trans (if_pos rfl)) ⟨rfl, rfl⟩
  | cons _ _ => exact .fail (hrun.trans (if_neg (by simp))) (hrun'.trans (if_neg (by simp)))

theorem closeWith_tandem (h : Alike ρ k r s t) (hpq : ρ.Goals r p q) :
    Tandem ρ k r (Gen.closeWith p) (Gen.closeWith q) s t fun _ _ _ => True := by
  rcases h.here with ⟨hp, hq, -⟩ | ⟨n, x, y, -, -, is, js, hp, hq, -, -, -, -, his, hjs, hcode⟩
  · refine .get ?_
    rw [hp, hq]
    exact .pure h trivial
  · have hrun := Gen.run_closeWith (q := p) hp his
    have hrun' := Gen.run_closeWith (q := q) hq hjs
    rw [h.fits.any_isTerminator hcode] at hrun
    rw [Tandem, Lockstep, hrun, hrun']
    split_ifs
    · exact Tandem.pure (Q := fun _ _ _ => True) h trivial
    · exact branch_tandem h hpq

end Blocks

namespace Gen

variable {e : Edition} {c : Expr}

/-- A `while` loop up to where its body is entered. -/
def startWhile (e : Edition) (c : Expr) : Gen LoopBlocks := do
  let test ← value e c
  let n ← countUp
  let entry ← addBlock ("while_loop_entry_" ++ toString n)
  let exit ← addBlock ("while_loop_otherwise_" ++ toString n)
  branchOn test.value entry exit
  return ⟨entry, exit⟩

theorem openWhile_eq : openWhile e c = (do
    let l ← startWhile e c
    moveToStart l.entry
    return l) := by
  simp only [openWhile, startWhile, bind_assoc, pure_bind]

def forBlocks : Gen LoopBlocks := do
  let n ← countUp
  let entry ← addBlock ("for_loop_entry_" ++ toString n)
  let exit ← addBlock ("for_loop_otherwise_" ++ toString n)
  return ⟨entry, exit⟩

def enterFor (l : LoopBlocks) : Gen Unit := do
  modify fun s => { s with loops := s.loops.enter l.entry l.exit }
  branch l.entry
  moveToStart l.entry

theorem startFor_eq : startFor = (do
    let l ← forBlocks
    enterFor l
    return l) := by
  simp only [startFor, forBlocks, enterFor, bind_assoc, pure_bind]

/-- A conditional up to where its body is entered; gives the blocks of the body and behind it. -/
def startThen (e : Edition) (c : Expr) : Gen (Place × Place) := do
  let test ← value e c
  let p ← branchPlace
  let onTrue ← addBlock (suffixed p.block ".if")
  let after ← addBlock (suffixed p.block ".endif")
  branchOn test.value onTrue after
  return (onTrue, after)

theorem openThen_eq : openThen e c = (do
    let l ← startThen e c
    moveTo (some l.1)
    return l.2) := by
  simp only [openThen, startThen, bind_assoc, pure_bind]

/-- The same for a conditional with alternative; gives the blocks of both branches and behind
them. -/
def startElse (e : Edition) (c : Expr) : Gen (Place × Place × Place) := do
  let test ← value e c
  let p ← branchPlace
  let onTrue ← addBlock (suffixed p.block ".if")
  let onFalse ← addBlock (suffixed p.block ".else")
  let after ← addBlock (suffixed p.block ".endif")
  branchOn test.value onTrue onFalse
  return (onTrue, onFalse, after)

theorem openElse_eq : openElse e c = (do
    let l ← startElse e c
    moveTo (some l.1)
    return l.2) := by
  simp only [openElse, startElse, bind_assoc, pure_bind]

end Gen

structure LoopBlocks.Mates (ρ : Pairing) (r : Option String) (l l' : LoopBlocks) : Prop where
  entry : ρ.Spots r l.entry l'.entry
  exit : ρ.Spots r l.exit l'.exit

theorem LoopBlocks.Mates.mono {ρ σ : Pairing} {l l' : LoopBlocks} (h : l.Mates ρ r l')
    (hρ : ρ.Sub σ) : l.Mates σ r l' := ⟨h.entry.mono hρ, h.exit.mono hρ⟩

section Starting

variable {ρ : Pairing} {k : Known} {r : Option String} {s t : Session} {e : Edition} {c : Expr}

theorem branchPlace_tandem (h : Alike ρ k r s t) :
    Tandem ρ k r Gen.branchPlace Gen.branchPlace s t fun _ _ _ => True := by
  rcases h.here with ⟨hp, hq, -⟩ | ⟨n, x, y, -, -, -, -, hp, hq, -⟩
  · exact .fail (Gen.branchPlace_nowhere hp) (Gen.branchPlace_nowhere hq)
  · refine .get ?_
    rw [hp, hq]
    exact .pure h trivial

theorem startWhile_tandem (h : Alike ρ k r s t) (hc : c.isClear k = true) :
    Tandem ρ k r (Gen.startWhile e c) (Gen.startWhile e c) s t fun σ l l' => l.Mates σ r l' := by
  refine (value_tandem e c h hc).bind fun σ₁ test test' s₁ t₁ hσ₁ h₁ htest => ?_
  refine (countUp_tandem h₁).bind fun σ₂ n m s₂ t₂ hσ₂ h₂ _ => ?_
  refine (addBlock_tandem h₂ _ _).bind fun σ₃ entry entry' s₃ t₃ hσ₃ h₃ hentry => ?_
  refine (addBlock_tandem h₃ _ _).bind fun σ₄ exit exit' s₄ t₄ hσ₄ h₄ hexit => ?_
  have htest := htest.value.mono (hσ₂.trans (hσ₃.trans hσ₄))
  refine (branchOn_tandem h₄ htest (hentry.mono hσ₄).goals hexit.goals).bind
    fun σ₅ _ _ s₅ t₅ hσ₅ h₅ _ => ?_
  exact .pure h₅ ⟨hentry.mono (hσ₄.trans hσ₅), hexit.mono hσ₅⟩

theorem forBlocks_tandem (h : Alike ρ k r s t) :
    Tandem ρ k r Gen.forBlocks Gen.forBlocks s t fun σ l l' => l.Mates σ r l' := by
  refine (countUp_tandem h).bind fun σ₁ n m s₁ t₁ hσ₁ h₁ _ => ?_
  refine (addBlock_tandem h₁ _ _).bind fun σ₂ entry entry' s₂ t₂ hσ₂ h₂ hentry => ?_
  refine (addBlock_tandem h₂ _ _).bind fun σ₃ exit exit' s₃ t₃ hσ₃ h₃ hexit => ?_
  exact .pure h₃ ⟨hentry.mono hσ₃, hexit⟩

theorem startThen_tandem (h : Alike ρ k r s t) (hc : c.isClear k = true) :
    Tandem ρ k r (Gen.startThen e c) (Gen.startThen e c) s t fun σ l l' =>
      σ.Spots r l.1 l'.1 ∧ σ.Spots r l.2 l'.2 := by
  refine (value_tandem e c h hc).bind fun σ₁ test test' s₁ t₁ hσ₁ h₁ htest => ?_
  refine (branchPlace_tandem h₁).bind fun σ₂ p q s₂ t₂ hσ₂ h₂ _ => ?_
  refine (addBlock_tandem h₂ _ _).bind fun σ₃ on on' s₃ t₃ hσ₃ h₃ hon => ?_
  refine (addBlock_tandem h₃ _ _).bind fun σ₄ after after' s₄ t₄ hσ₄ h₄ hafter => ?_
  have htest := htest.value.mono (hσ₂.trans (hσ₃.trans hσ₄))
  refine (branchOn_tandem h₄ htest (hon.mono hσ₄).goals hafter.goals).bind
    fun σ₅ _ _ s₅ t₅ hσ₅ h₅ _ => ?_
  exact .pure h₅ ⟨hon.mono (hσ₄.trans hσ₅), hafter.mono hσ₅⟩

theorem startElse_tandem (h : Alike ρ k r s t) (hc : c.isClear k = true) :
    Tandem ρ k r (Gen.startElse e c) (Gen.startElse e c) s t fun σ l l' =>
      σ.Spots r l.1 l'.1 ∧ σ.Spots r l.2.1 l'.2.1 ∧ σ.Spots r l.2.2 l'.2.2 := by
  refine (value_tandem e c h hc).bind fun σ₁ test test' s₁ t₁ hσ₁ h₁ htest => ?_
  refine (branchPlace_tandem h₁).bind fun σ₂ p q s₂ t₂ hσ₂ h₂ _ => ?_
  refine (addBlock_tandem h₂ _ _).bind fun σ₃ on on' s₃ t₃ hσ₃ h₃ hon => ?_
  refine (addBlock_tandem h₃ _ _).bind fun σ₄ off off' s₄ t₄ hσ₄ h₄ hoff => ?_
  refine (addBlock_tandem h₄ _ _).bind fun σ₅ after after' s₅ t₅ hσ₅ h₅ hafter => ?_
  have htest := htest.value.mono (hσ₂.trans (hσ₃.trans (hσ₄.trans hσ₅)))
  have hon := hon.mono (hσ₄.trans hσ₅)
  have hoff := hoff.mono hσ₅
  refine (branchOn_tandem h₅ htest hon.goals hoff.goals).bind fun σ₆ _ _ s₆ t₆ hσ₆ h₆ _ => ?_
  exact .pure h₆ ⟨hon.mono hσ₆, hoff.mono hσ₆, hafter.mono hσ₆⟩

end Starting

section Bodies

variable {ρ : Pairing} {k k₁ k₂ k₃ : Known} {r : Option String} {s t : Session} {e : Edition}
  {c : Expr} {g g' f f' : Gen Unit}

theorem moveTo_lockstep (h : Alike ρ k r s t) (hpq : ρ.Spots r p q) :
    Lockstep (Gen.moveTo (some p)) (Gen.moveTo (some q)) s t fun _ _ => Reaches ρ k r s t :=
  .ok rfl rfl ⟨ρ, .of_eq ρ rfl rfl rfl rfl rfl rfl, h.move hpq⟩

theorem closeArm_lockstep (h : Alike ρ k r s t) {p p' q q' : Place} (hp : ρ.Spots r p p')
    (hq : ρ.Spots r q q') :
    Lockstep (Gen.closeArm p q) (Gen.closeArm p' q') s t fun _ _ => Reaches ρ k r s t :=
  (closeWith_tandem h hp.goals).after fun _ _ _ _ _ hret h₁ _ =>
    (moveTo_lockstep h₁ (hq.mono hret.sub)).since hret

theorem moveToStart_reaches (h : Alike ρ k r s t) (hpq : ρ.Spots r p q) :
    Lockstep (Gen.moveToStart p) (Gen.moveToStart q) s t fun _ _ => Reaches ρ k r s t := by
  refine (moveToStart_lockstep h hpq).mono ?_
  rintro _ _ _ _ - - ⟨rfl, rfl⟩
  exact ⟨ρ, .of_eq ρ rfl rfl rfl rfl rfl rfl, h.move hpq⟩

theorem closeWhile_lockstep (h : Alike ρ k r s t) (hc : c.isClear k = true) {l l' : LoopBlocks}
    (hl : l.Mates ρ r l') :
    Lockstep (Gen.closeWhile e c l) (Gen.closeWhile e c l') s t fun _ _ => Reaches ρ k r s t := by
  refine (value_tandem e c h hc).after fun σ₁ test test' s₁ t₁ hret₁ h₁ htest => ?_
  have hl₁ := hl.mono hret₁.sub
  refine (branchOn_tandem h₁ htest.value hl₁.entry.goals hl₁.exit.goals).after
    fun σ₂ _ _ s₂ t₂ hret₂ h₂ _ => ?_
  exact (moveToStart_reaches h₂ (hl₁.exit.mono hret₂.sub)).since (hret₁.trans hret₂)

theorem ifThen_agree (hc : c.isClear k = true) (hbody : Agree k k₁ g g') : Agree k (k.behind k₁)
    (do let after ← Gen.openThen e c; g; Gen.closeArm after after)
    (do let after ← Gen.openThen e c; g'; Gen.closeArm after after) where
  own _ h := h
  inLoop := rfl
  run ρ r s t h := by
    simp only [Gen.openThen_eq, bind_assoc, pure_bind]
    refine (startThen_tandem h hc).after fun σ₁ l l' s₁ t₁ hret₁ h₁ hl => ?_
    refine (moveTo_lockstep h₁ hl.1).bind ?_
    rintro _ _ s₂ t₂ - - ⟨σ₂, hret₂, h₂⟩
    refine (hbody.run σ₂ r s₂ t₂ h₂).bind ?_
    rintro _ _ s₃ t₃ - - ⟨σ₃, hret₃, h₃⟩
    have hafter := hl.2.mono (hret₂.sub.trans hret₃.sub)
    have h₃ : Alike σ₃ (k.behind k₁) r s₃ t₃ := h₃.behind hbody.own fun hk => hbody.inLoop.trans hk
    exact (closeArm_lockstep h₃ hafter hafter).since (hret₁.trans (hret₂.trans hret₃))

theorem ifElse_agree (hc : c.isClear k = true) (hbody : Agree k k₁ g g')
    (halternative : Agree (k.behind k₁) k₂ f f') : Agree k (k.behind k₂)
      (do let l ← Gen.openElse e c; g; Gen.closeArm l.2 l.1; f; Gen.closeArm l.2 l.2)
      (do let l ← Gen.openElse e c; g'; Gen.closeArm l.2 l.1; f'; Gen.closeArm l.2 l.2) where
  own _ h := h
  inLoop := rfl
  run ρ r s t h := by
    simp only [Gen.openElse_eq, bind_assoc, pure_bind]
    refine (startElse_tandem h hc).after fun σ₁ l l' s₁ t₁ hret₁ h₁ hl => ?_
    refine (moveTo_lockstep h₁ hl.1).bind ?_
    rintro _ _ s₂ t₂ - - ⟨σ₂, hret₂, h₂⟩
    refine (hbody.run σ₂ r s₂ t₂ h₂).bind ?_
    rintro _ _ s₃ t₃ - - ⟨σ₃, hret₃, h₃⟩
    have hsub₃ := hret₂.sub.trans hret₃.sub
    have h₃ : Alike σ₃ (k.behind k₁) r s₃ t₃ := h₃.behind hbody.own fun hk => hbody.inLoop.trans hk
    refine (closeArm_lockstep h₃ (hl.2.2.mono hsub₃) (hl.2.1.mono hsub₃)).bind ?_
    rintro _ _ s₄ t₄ - - ⟨σ₄, hret₄, h₄⟩
    refine (halternative.run σ₄ r s₄ t₄ h₄).bind ?_
    rintro _ _ s₅ t₅ - - ⟨σ₅, hret₅, h₅⟩
    have hafter := hl.2.2.mono (hsub₃.trans (hret₄.sub.trans hret₅.sub))
    have h₅ : Alike σ₅ (k.behind k₂) r s₅ t₅ := h₅.behind halternative.own fun hk =>
      halternative.inLoop.trans hk
    exact (closeArm_lockstep h₅ hafter hafter).since
      (hret₁.trans (hret₂.trans (hret₃.trans (hret₄.trans hret₅))))

theorem whileLoop_agree (hc : c.isClear k = true) (hbody : Agree k k₁ g g')
    (hc₁ : c.isClear k₁ = true) :
    Agree k (k.behind k₁) (do let l ← Gen.openWhile e c; g; Gen.closeWhile e c l)
      (do let l ← Gen.openWhile e c; g'; Gen.closeWhile e c l) where
  own _ h := h
  inLoop := rfl
  run ρ r s t h := by
    simp only [Gen.openWhile_eq, bind_assoc, pure_bind]
    refine (startWhile_tandem h hc).after fun σ₁ l l' s₁ t₁ hret₁ h₁ hl => ?_
    refine (moveToStart_reaches h₁ hl.entry).bind ?_
    rintro _ _ s₂ t₂ - - ⟨σ₂, hret₂, h₂⟩
    refine (hbody.run σ₂ r s₂ t₂ h₂).bind ?_
    rintro _ _ s₃ t₃ - - ⟨σ₃, hret₃, h₃⟩
    refine ((closeWhile_lockstep h₃ hc₁ (hl.mono (hret₂.sub.trans hret₃.sub))).mono ?_).since
      (hret₁.trans (hret₂.trans hret₃))
    rintro _ _ s₄ t₄ - - ⟨σ₄, hret₄, h₄⟩
    exact ⟨σ₄, hret₄, h₄.behind hbody.own fun hk => hbody.inLoop.trans hk⟩

def Gen.forBody (e : Edition) (c : Expr) (g : Gen Unit) : Gen Unit := do
  let l ← startFor
  g
  closeFor e c l

theorem forBody_agree (hbody : Agree { k with inLoop := true } k₁ g g') (hc : c.isClear k₁ = true) :
    Agree k (k.behind k₁) (Gen.forBody e c g) (Gen.forBody e c g') where
  own _ h := h
  inLoop := rfl
  run ρ r s t h := by
    simp only [Gen.forBody, Gen.startFor_eq, Gen.enterFor, Gen.closeFor, bind_assoc, pure_bind]
    refine (forBlocks_tandem h).after fun σ₁ l l' s₁ t₁ hret₁ h₁ hl => ?_
    have h₁' : Alike σ₁ { k with inLoop := true } r
        { s₁ with loops := s₁.loops.enter l.entry l.exit }
        { t₁ with loops := t₁.loops.enter l'.entry l'.exit } :=
      { h₁ with
        toJoined := ⟨h₁.toMatched, h₁.settled, h₁.notes⟩
        loops := fun _ => ⟨_, _, _, _, _, _, rfl, rfl, hl.entry.goals, hl.exit.goals⟩ }
    refine Lockstep.left rfl (Lockstep.right rfl ?_)
    refine (branch_tandem h₁' hl.entry.goals).after fun σ₂ _ _ s₂ t₂ hret₂ h₂ _ => ?_
    refine (moveToStart_reaches h₂ (hl.entry.mono hret₂.sub)).bind ?_
    rintro _ _ s₃ t₃ - - ⟨σ₃, hret₃, h₃⟩
    refine (hbody.run σ₃ r s₃ t₃ h₃).bind ?_
    rintro _ _ s₄ t₄ - - ⟨σ₄, hret₄, h₄⟩
    have hret := hret₂.trans (hret₃.trans hret₄)
    refine (closeWhile_lockstep h₄ hc (hl.mono hret.sub)).bind ?_
    rintro _ _ s₅ t₅ - - ⟨σ₅, hret₅, h₅⟩
    have hret := hret.trans hret₅
    -- leaving the loop uncovers the ones that were noted before it
    have hleave : s₅.loops.leave = s.loops := by
      rw [hret.loops]
      exact hret₁.loops
    have hleave' : t₅.loops.leave = t.loops := by
      rw [hret.loops']
      exact hret₁.loops'
    have hlater : Later ρ s t σ₅ s₅ t₅ := hret₁.toLater.trans ⟨hret.sub, hret.fresh,
      ⟨hret.left.outer, hret.left.grows⟩, ⟨hret.right.outer, hret.right.grows⟩⟩
    refine .ok rfl rfl ⟨σ₅, ⟨⟨hlater.sub, hlater.fresh, ⟨hlater.left.outer, hlater.left.grows⟩,
      ⟨hlater.right.outer, hlater.right.grows⟩⟩, hleave, hleave'⟩, ?_⟩
    have hview : Alike σ₅ { k.behind k₁ with inLoop := false } r s₅ t₅ :=
      h₅.weaken (fun _ => Known.admits_behind hbody.own) (fun _ h => h) (fun h => by cases h)
    exact { hview with
      toJoined := ⟨hview.toMatched, hview.settled, hview.notes⟩
      loops := fun hk => by
        dsimp only
        rw [hleave, hleave']
        exact (h.loops hk).mono hlater.sub }

end Bodies

section Names

variable {ρ : Pairing} {k : Known} {r : Option String} {s t : Session} {e : Edition}

theorem Session.Goes.define (s : Session) (name : Literal) (b : Binding) :
    s.Goes { s with scopes := s.scopes.define name b } :=
  ⟨(Chain.tail_define ..).symm ▸ List.suffix_rfl, .refl _⟩

theorem letVar_agree (he : e.has .functions = true) {name type : String} {x : Expr}
    (hx : x.isClear k = true) (hname : k.admits (.text name) = true) :
    Agree k (k.declare (.text name))
      (Gen.statement e importer (.letVar name x type))
        (Gen.statement e importer (.letVar name x type)) where
  own n h := by
    rw [Known.owns, Known.declare, List.any_cons, Bool.or_eq_true]
    exact .inr h
  inLoop := rfl
  run ρ r s t h := by
    rw [Gen.statement]
    refine (value_tandem e x h hx).after fun σ₁ v v' s₁ t₁ hret₁ h₁ hv => ?_
    refine (lookup_tandem h₁ hname).after fun σ₂ b b' s₂ t₂ hret₂ h₂ hb => ?_
    have hv₂ := hv.mono hret₂.sub
    have hret := hret₁.trans hret₂
    cases hb with
    | some hb =>
      refine ((storeValue_tandem h₂ hv₂.value hb.value).reaches.mono ?_).since hret
      rintro _ _ s₃ t₃ - - ⟨σ₃, hret₃, h₃⟩
      exact ⟨σ₃, hret₃, h₃.redeclare hname⟩
    | none =>
      simp only [hv.ty, he, if_true]
      refine (alloca_tandem h₂ _).after fun σ₃ slot slot' s₃ t₃ hret₃ h₃ hslot => ?_
      refine (storeValue_tandem h₃ (hv₂.value.mono hret₃.sub) hslot).after
        fun σ₄ _ _ s₄ t₄ hret₄ h₄ _ => ?_
      have hret := hret.trans (hret₃.trans hret₄)
      have hmates : Binding.Mates σ₄ r ⟨slot, v'.ty.getD .void⟩ ⟨slot', v'.ty.getD .void⟩ :=
        ⟨rfl, hslot.mono hret₄.sub⟩
      exact .ok rfl rfl ⟨σ₄, ⟨⟨hret.sub, hret.fresh, hret.left.trans (.define s₄ _ _),
        hret.right.trans (.define t₄ _ _)⟩, hret.loops, hret.loops'⟩, h₄.define hmates _⟩

theorem breakLoop_agree (hk : k.inLoop = true) : Agree k k
    (Gen.statement e importer .breakLoop) (Gen.statement e importer .breakLoop) := by
  rw [Gen.statement]
  refine .of_tandem fun ρ r s t h => .get ?_
  obtain ⟨entry, exit, outer, entry', exit', outer', hl, hl', -, hexit⟩ := h.loops hk
  rw [hl, hl']
  exact branch_tandem h hexit

theorem continueLoop_agree (hk : k.inLoop = true) : Agree k k
    (Gen.statement e importer .continueLoop) (Gen.statement e importer .continueLoop) := by
  rw [Gen.statement]
  refine .of_tandem fun ρ r s t h => .get ?_
  obtain ⟨entry, exit, outer, entry', exit', outer', hl, hl', hentry, -⟩ := h.loops hk
  rw [hl, hl']
  exact branch_tandem h hentry

end Names

section Routines

variable {ρ : Pairing} {k k₁ : Known} {r : Option String} {s t : Session} {e : Edition}
  {g g' : Gen Unit}

theorem Code.Routine.declare_used (name : String) (result : Ty) (types : List Ty)
    (variadic : Bool) :
    ∀ p ∈ (declare name result types variadic).params,
      p.1 ∈ (declare name result types variadic).names.used := by
  intro p hp
  rw [declare, Names.register_used, takeNames_used]
  exact List.mem_cons_of_mem _ (List.mem_append_left
    _ (List.mem_reverse.mpr (List.mem_map_of_mem hp)))

/-- A new routine and its first block, where writing goes on. -/
def Gen.startRoutine (f : Routine) (entry : String) : Gen Unit := do
  addItem (.routine f)
  startBuilder (← addBlockTo f.name entry)

theorem Gen.openRoutine_eq (name : String) (params : List Param) (type : Literal) :
    Gen.openRoutine e name params type = (do
      let types ← typesNamed e (params.map Param.type)
      let result ← typeNamed e type
      let f := Routine.declare name result types false
      startRoutine f (name ++ "_entry")
      let ptrs ← slots f.params
      enterScope
      defineParams ((params.map Param.name).zip (ptrs.zip types))
      define (.text name) ⟨f.operand, result⟩
      return ⟨f.operand, result⟩) := by
  simp only [openRoutine, startRoutine, bind_assoc]
  rfl

theorem typeNamed_lockstep (l : Literal) :
    Lockstep (Gen.typeNamed e l) (Gen.typeNamed e l) s t fun ty ty' s' t' =>
    ty = ty' ∧ s = s' ∧ t = t' := by
  rw [Gen.typeNamed]
  split
  · exact .ok rfl rfl ⟨rfl, rfl, rfl⟩
  · exact .fail rfl rfl

theorem typesNamed_lockstep (ls : List Literal) :
    Lockstep (Gen.typesNamed e ls) (Gen.typesNamed e ls) s t
    fun ts ts' s' t' => ts = ts' ∧ ts.length = ls.length ∧ s = s' ∧ t = t' := by
  induction ls with
  | nil => exact .ok rfl rfl ⟨rfl, rfl, rfl, rfl⟩
  | cons l ls ih =>
    refine (typeNamed_lockstep l).bind ?_
    rintro ty _ _ _ - - ⟨rfl, rfl, rfl⟩
    refine ih.bind ?_
    rintro ts _ _ _ - - ⟨rfl, hlength, rfl, rfl⟩
    exact .ok rfl rfl ⟨rfl, congrArg (· + 1) hlength, rfl, rfl⟩

/-- A name that may be used in every routine stands for a global. -/
theorem Alike.names_elsewhere (h : Alike ρ k r s t) {name : Literal} (hname : k.knows name = false)
    (r' : Option String) :
    Option.Rel (fun b b' => b.Mates ρ r' b') (s.scopes.find? name) (t.scopes.find? name) := by
  have hadmits : k.admits name = true := by
    rw [Known.admits, show k.all.any (·.same name) = false from hname]
    exact Bool.or_true _
  have hnames := h.names name hadmits
  cases hb : s.scopes.find? name with
  | none =>
    rw [hb] at hnames
    cases hb' : t.scopes.find? name with
    | none => exact .none
    | some b' =>
      rw [hb'] at hnames
      cases hnames
  | some b =>
    rw [hb] at hnames
    cases hb' : t.scopes.find? name with
    | none =>
      rw [hb'] at hnames
      cases hnames
    | some b' =>
      rw [hb'] at hnames
      cases hnames with
      | some hmates =>
        refine .some ⟨hmates.ty, hmates.value.elsewhere (fun n ty hv => ?_) r'⟩
        rw [h.known name b n ty hb hv] at hname
        cases hname

theorem Code.Assembly.Grows.startRoutine {a : Assembly} {f : Routine} (ha : a.item? f.name = none)
    (name : String) : a.Grows ((a.add (.routine f)).withBlock f name) :=
  (Assembly.Grows.add (i := .routine f) ha).trans
    (Assembly.Grows.steps.withBlock (Assembly.routine?_add_self ha))

theorem Matched.startRoutine {a b : Assembly} (h : Matched ρ a b) {f : Routine}
    (hblocks : f.blocks = [])
    (hparams : ∀ p ∈ f.params, p.1 ∈ f.names.used) (ha : a.item? f.name = none)
      (hb : b.item? f.name = none)
    (name : String) :
    Matched ((ρ.withParams f.name (f.params.map Prod.fst)).withBlocks f.name (f.addBlock name).1
        (f.addBlock name).1)
      ((a.add (.routine f)).withBlock f name) ((b.add (.routine f)).withBlock f name) := by
  have hra := Assembly.routine?_add_self ha
  have hrb := Assembly.routine?_add_self hb
  have hnew : ∀ f', Item.routine f = .routine f' →
    f'.blocks = [] := fun f' hf' => Item.routine.inj hf' ▸ hblocks
  have hleft := Assembly.Distinct.steps.add (i := .routine f) ha hnew h.left
  have hright := Assembly.Distinct.steps.add (i := .routine f) hb hnew h.right
  exact ⟨(h.fits.addRoutine ha hb hblocks hparams).withEntry hleft.1 hright.1 hra hrb rfl hblocks,
    Assembly.Distinct.steps.withBlock hra hleft, Assembly.Distinct.steps.withBlock hrb hright⟩

/-- A routine is begun on both sides. Of the names from before, it may use those that stand for
globals. -/
theorem startRoutine_lockstep (h : Alike ρ k r s t) {f : Routine} (hblocks : f.blocks = [])
    (hparams : ∀ p ∈ f.params, p.1 ∈ f.names.used) (name : String) :
    Lockstep (Gen.startRoutine f name) (Gen.startRoutine f name) s t fun _ _ s' t' =>
      s'.scopes = s.scopes ∧ t'.scopes = t.scopes ∧ ∃ σ, Returns ρ s t σ s' t' ∧
        Alike σ ⟨[], k.all, false⟩ (some f.name) s' t' ∧ ∀ p ∈ f.params, σ.params f.name p.1 := by
  refine (addItem_lockstep h.fits (.routine f)).bind ?_
  rintro _ _ _ _ - - ⟨rfl, rfl, ha, hb⟩
  have hmatched := h.toMatched.startRoutine hblocks hparams ha hb name
  have hsub : ρ.Sub ((ρ.withParams f.name (f.params.map Prod.fst)).withBlocks f.name
      (f.addBlock name).1
      (f.addBlock name).1) := (Pairing.sub_withParams ..).trans (Pairing.sub_withBlocks ..)
  have hga : s.assembly.Grows ((s.assembly.add (.routine f)).withBlock f name) :=
    .startRoutine ha name
  have hgb : t.assembly.Grows ((t.assembly.add (.routine f)).withBlock f name) :=
    .startRoutine hb name
  have hfresh : ρ.Fresh (ρ.withParams f.name (f.params.map Prod.fst)) t.assembly := .of_blocks rfl _
  have hnone : t.assembly.code? ⟨f.name, (f.addBlock name).1⟩ = none := by
    rw [Assembly.code?, Assembly.routine?, show t.assembly.item? f.name = none from hb]
    rfl
  refine Lockstep.left (Gen.run_addBlockTo (Assembly.routine?_add_self ha))
    (Lockstep.right (Gen.run_addBlockTo (Assembly.routine?_add_self hb)) ?_)
  refine .ok rfl rfl ⟨rfl, rfl, _, ⟨⟨hsub, hfresh.trans (.withBlocks hnone) (.refl _),
    ⟨List.suffix_rfl, hga⟩, ⟨List.suffix_rfl, hgb⟩⟩, rfl, rfl⟩, ?_, ?_⟩
  · refine ⟨⟨hmatched, (h.settled.grows hgb).more hsub fun _ _ _ h => h, h.notes⟩, rfl,
      .some ⟨rfl, .inr ⟨rfl, rfl, rfl⟩⟩, fun n hn => ?_, h.known, fun h => by cases h⟩
    -- a name that may be used here stands for a global, which is the same from within any routine
    have hknows : k.knows n = false := by simpa [Known.admits, Known.knows] using hn
    exact optionRel_mono (fun _ _ h => h.mono hsub) (h.names_elsewhere hknows (some f.name))
  · exact fun p hp => .inr ⟨rfl, List.mem_map_of_mem hp⟩

theorem slots_tandem {n : String} {ps : List (String × Ty)} (h : Alike ρ k (some n) s t)
    (hps : ∀ p ∈ ps, ρ.params n p.1) :
      Tandem ρ k (some n) (Gen.slots ps) (Gen.slots ps) s t fun σ xs ys =>
      xs.length = ps.length ∧ List.Forall₂ (fun x y => x.Mates σ (some n) y) xs ys := by
  induction ps generalizing ρ s t with
  | nil => exact .pure h ⟨rfl, .nil⟩
  | cons p ps ih =>
    obtain ⟨hp, hps⟩ := List.forall_mem_cons.mp hps
    refine (alloca_tandem h _).bind fun σ₁ slot slot' s₁ t₁ hσ₁ h₁ hslot => ?_
    have hstore : ∀ m, some n = some m → (Op.store (.result p.1 p.2) slot).Mates σ₁ m
        (.store (.result p.1 p.2) slot') := by
      rintro _ ⟨⟩
      exact .storeParam p.2 (hσ₁.params n p.1 hp) hslot
    refine (store_tandem h₁ (.some ⟨rfl, hstore⟩) hslot.ty_eq).bind fun σ₂ _ _ s₂ t₂ hσ₂ h₂ _ => ?_
    have hps₂ : ∀ p ∈ ps, σ₂.params n p.1 :=
      fun p hp => hσ₂.params n p.1 (hσ₁.params n p.1 (hps p hp))
    refine (ih h₂ hps₂).bind fun σ₃ xs ys s₃ t₃ hσ₃ h₃ hxs => ?_
    exact .pure h₃ ⟨congrArg (· + 1) hxs.1, .cons (hslot.mono (hσ₂.trans hσ₃)) hxs.2⟩

/-- The parameters of a routine, with their slots on both sides. -/
def Pairing.Slots (ρ : Pairing) (r : Option String) (p q : Literal × Operand × Ty) : Prop :=
  q.1 = p.1 ∧ Binding.Mates ρ r ⟨p.2.1, p.2.2⟩ ⟨q.2.1, q.2.2⟩

theorem Pairing.slots_zip {xs ys : List Operand} (h : List.Forall₂ (fun x y => x.Mates ρ r y) xs ys)
    (names : List Literal) (types : List Ty) :
    List.Forall₂ (ρ.Slots r) (names.zip (xs.zip types)) (names.zip (ys.zip types)) := by
  induction h generalizing names types with
  | nil =>
    rw [List.zip_nil_left, List.zip_nil_right]
    exact .nil
  | cons hxy _ ih =>
    cases names with
    | nil => exact .nil
    | cons name names =>
      cases types with
      | nil => exact .nil
      | cons ty types => exact .cons ⟨rfl, rfl, hxy⟩ (ih names types)

theorem Alike.defineParams {ps qs : List (Literal × Operand × Ty)} (h : Alike ρ k r s t)
    (hpq : List.Forall₂ (ρ.Slots r) ps qs) :
    Lockstep (Gen.defineParams ps) (Gen.defineParams qs) s t fun _ _ s' t' =>
      (∃ c, s' = { s with scopes := c } ∧ c.tail = s.scopes.tail) ∧
      (∃ d, t' = { t with scopes := d } ∧ d.tail = t.scopes.tail) ∧
      Alike ρ ⟨(ps.map Prod.fst).reverse ++ k.own, (ps.map Prod.fst).reverse ++ k.all, k.inLoop⟩ r
        s' t' := by
  induction hpq generalizing s t k with
  | nil => exact .ok rfl rfl ⟨⟨_, rfl, rfl⟩, ⟨_, rfl, rfl⟩, h⟩
  | @cons p q ps qs hpq _ ih =>
    have hdefined := h.define hpq.2 p.1
    refine Lockstep.left rfl (Lockstep.right rfl ?_)
    rw [hpq.1]
    refine (ih hdefined).mono ?_
    rintro _ _ _ _ - - ⟨⟨c, rfl, hc⟩, ⟨d, rfl, hd⟩, h'⟩
    refine ⟨⟨c, rfl, hc.trans (Chain.tail_define ..)⟩, ⟨d, rfl, hd.trans (Chain.tail_define ..)⟩,
      ?_⟩
    simpa [Known.declare] using h'

theorem openRoutine_lockstep (h : Alike ρ k r s t) (name : String) (params : List Param)
    (type : Literal) :
    Lockstep (Gen.openRoutine e name params type) (Gen.openRoutine e name params type) s t
      fun b b' s' t' =>
      b = b' ∧ (∃ m ty, b.value = .global m ty) ∧ s'.scopes.tail = s.scopes ∧
        t'.scopes.tail = t.scopes ∧ Reaches ρ (k.inside params) (some name) s t s' t' := by
  rw [Gen.openRoutine_eq]
  refine (typesNamed_lockstep _).bind ?_
  rintro types _ _ _ - - ⟨rfl, hlength, rfl, rfl⟩
  refine (typeNamed_lockstep type).bind ?_
  rintro result _ _ _ - - ⟨rfl, rfl, rfl⟩
  refine (startRoutine_lockstep h rfl (Routine.declare_used name result types false) _).bind ?_
  rintro _ _ s₁ t₁ - - ⟨hs₁, ht₁, σ₁, hret₁, h₁, hparams⟩
  refine Lockstep.bind (slots_tandem h₁ hparams) ?_
  rintro xs ys s₂ t₂ - - ⟨σ₂, hσ₂, hfresh₂, h₂, hstays, hstays', hxs, hxys⟩
  have hret := hret₁.trans ⟨⟨hσ₂, hfresh₂, hstays.goes, hstays'.goes⟩, hstays.loops, hstays'.loops⟩
  have hs₂ : s₂.scopes = s.scopes := hstays.scopes.trans hs₁
  have ht₂ : t₂.scopes = t.scopes := hstays'.scopes.trans ht₁
  refine Lockstep.left rfl (Lockstep.right rfl ?_)
  have hentered := h₂.enterLeft.enterRight
  refine (hentered.defineParams (Pairing.slots_zip hxys (params.map Param.name) types)).bind ?_
  rintro _ _ _ _ - - ⟨⟨c, rfl, hc⟩, ⟨d, rfl, hd⟩, h₃⟩
  have hnames : ((params.map Param.name).zip (xs.zip types)).map Prod.fst = params.map
      Param.name := by
    have hparams : (Routine.declare name result types false).params.length = types.length := by
      have htypes := congrArg List.length (Routine.takeNames_types .initial types)
      rwa [List.length_map] at htypes
    rw [List.length_map] at hlength
    refine List.map_fst_zip ?_
    simp only [List.length_map, List.length_zip]
    omega
  rw [hnames] at h₃
  have h₄ := h₃.defineGlobal (b := ⟨(Routine.declare name result types false).operand, result⟩)
    rfl (.text name)
  have hs₄ : (c.define (.text name) ⟨(Routine.declare name result types false).operand,
      result⟩).tail = s.scopes :=
    (Chain.tail_define ..).trans (hc.trans hs₂)
  have ht₄ : (d.define (.text name) ⟨(Routine.declare name result types false).operand,
      result⟩).tail = t.scopes :=
    (Chain.tail_define ..).trans (hd.trans ht₂)
  refine .ok rfl rfl ⟨rfl, ⟨_, _, rfl⟩, hs₄, ht₄, σ₂, ⟨⟨hret.sub, hret.fresh, ⟨?_, hret.left.grows⟩,
    ⟨?_, hret.right.grows⟩⟩, hret.loops, hret.loops'⟩, h₄.weaken (fun _ h => ?_) (fun _ h => ?_) id⟩
  · exact (List.tail_suffix _).trans (hs₄ ▸ List.suffix_rfl)
  · exact (List.tail_suffix _).trans (ht₄ ▸ List.suffix_rfl)
  · simpa [Known.admits, Known.inside] using h
  · simpa [Known.knows, Known.inside] using h

/-- Behind a routine, writing goes on where it was interrupted, with the names from before. -/
theorem Gen.run_closeRoutine {s t : Session} (h : s.scopes <:+ t.scopes) (name : String)
    (b : Binding) : (Gen.closeRoutine name b s).run t =
      (.ok (), { t with
        scopes := s.scopes.define (.text name) b
        builder := s.builder
        place := s.place }) := by
  have hrun : (Gen.closeRoutine name b s).run t = (.ok (), { t with
      scopes := (t.scopes.leaveTo s.scopes.length).define (.text name) b
      builder := s.builder
      place := s.place }) := rfl
  rw [hrun, Chain.leaveTo_suffix h]

theorem fn_agree {name : String} {params : List Param} {type : Literal} {body body' : List Stmt}
    (hbody : Agree (k.inside params) k₁ (Gen.statements e importer body)
      (Gen.statements e importer body')) :
    Agree k k (Gen.statement e importer (.fn name (some params) type body))
      (Gen.statement e importer (.fn name (some params) type body')) where
  own _ h := h
  inLoop := rfl
  run ρ r s t h := by
    rw [Gen.statement_fn, Gen.statement_fn]
    refine Lockstep.left rfl (Lockstep.right rfl ?_)
    refine (openRoutine_lockstep h name params type).bind ?_
    rintro b _ s₁ t₁ - - ⟨rfl, ⟨m, ty, hb⟩, hs₁, ht₁, σ₁, hret₁, h₁⟩
    refine (hbody.run σ₁ (some name) s₁ t₁ h₁).bind ?_
    rintro _ _ s₂ t₂ - - ⟨σ₂, hret₂, h₂⟩
    have hret := hret₁.trans hret₂
    have hs : s.scopes <:+ s₂.scopes := hs₁ ▸ hret₂.left.outer.trans (List.tail_suffix _)
    have ht : t.scopes <:+ t₂.scopes := ht₁ ▸ hret₂.right.outer.trans (List.tail_suffix _)
    have hback : Alike σ₂ k r { s₂ with scopes := s.scopes, builder := s.builder, place := s.place }
        { t₂ with scopes := t.scopes, builder := t.builder, place := t.place } :=
      h.stays hret.sub ⟨h₂.toMatched, h₂.settled, h₂.notes⟩ ⟨rfl, rfl, hret.loops, hret.left.grows⟩
        ⟨rfl, rfl, hret.loops', hret.right.grows⟩
    have hdefine := fun s => (Session.Goes.define s (.text name) b).outer
    exact .ok (Gen.run_closeRoutine hs name b) (Gen.run_closeRoutine ht name b)
      ⟨σ₂, ⟨⟨hret.sub, hret.fresh,
      ⟨hdefine s, hret.left.grows⟩, ⟨hdefine t, hret.right.grows⟩⟩, hret.loops, hret.loops'⟩,
      hback.defineGlobal hb (.text name)⟩

end Routines

end LimeLang
