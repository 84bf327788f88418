import LimeLang.Proofs.NameTracking

/-! Programs whose names are used in scope compile to code in which every value is computed before
it is used. -/

namespace LimeLang

open Code

variable {f : Dataflow} {s t : Session}

section Statements

variable {e : Edition} {importer : String → Gen Unit} {k k₁ k₂ k₃ : Known} {c : Expr}
  {body alternative : List Stmt}

/-- Two blocks, neither of them of a `for` loop, and a test that decides between them. -/
theorem Dataflow.fork_prepares {name name' : String} {test : Option Operand}
    {rest : Place → Place → Gen Unit} (hs : f.Suits s) (htest : ∀ x ∈ test, f.AtHand s x)
    (hname : ∀ k, ¬ ForLoop.HasName k name) (hname' : ∀ k, ¬ ForLoop.HasName k name')
    (hrun : (do
      let q ← Gen.addBlock name
      let q' ← Gen.addBlock name'
      Gen.branchOn test q q'
      rest q q' : Gen Unit).run s = (.ok (), t)) :
    ∃ f' u q q', f'.Suits u ∧ f.Onward s f' u ∧ f.Prepares s f' u q ∧ f.Prepares s f' u q' ∧
      u.scopes = s.scopes ∧ (rest q q').run u = (.ok (), t) := by
  obtain ⟨q, s₁, h₁, hrun⟩ := Gen.bind_ok hrun
  obtain ⟨f₁, hf₁, hon₁, hq, hscopes₁, -⟩ := Dataflow.addBlock_prepares hs (.refl f s) hs
    (fun k hk => absurd hk (hname k)) h₁
  obtain ⟨q', s₂, h₂, hrun⟩ := Gen.bind_ok hrun
  obtain ⟨f₂, hf₂, hon₂, hq', hscopes₂, -⟩ := Dataflow.addBlock_prepares hs hon₁ hf₁
    (fun k hk => absurd hk (hname' k)) h₂
  have hon := hon₁.trans hon₂
  have hq := hq.onward hon₂
  obtain ⟨_, s₃, h₃, hrun⟩ := Gen.bind_ok hrun
  obtain ⟨hquiet, hf₃, -⟩ := Dataflow.branchOn_follows hf₂ (fun x hx => (htest x hx).onward hs hon)
    (hq.mayJump hon) (hq'.mayJump hon) () s₃ h₃
  have hon₃ : f₂.Onward s₂ f₂ s₃ := .of_quiet hquiet
  exact ⟨f₂, s₃, q, q', hf₃, hon.trans hon₃, hq.onward hon₃, hq'.onward hon₃,
    hquiet.scopes.trans (hscopes₂.trans hscopes₁), hrun⟩

theorem ifThen_tracks (hc : c.isClear k = true)
    (hbody : Tracks (Gen.statements e importer body) k k₁) :
    Tracks (Gen.effect e importer (.ifThen c body)) k (k.behind k₁) := by
  intro f s t hs hrun
  rw [Gen.effect] at hrun
  obtain ⟨test, s₁, h₁, hrun⟩ := Gen.bind_ok hrun
  obtain ⟨hq₁, hf₁, htest⟩ := value_follows e c hs.suits hs.admits hc test s₁ h₁
  have hk₁ := hs.quiet hq₁ hf₁
  obtain ⟨p, hrun⟩ := Gen.branchPlace_ok hrun
  obtain ⟨f₂, s₂, onTrue, after, hf₂, hon₂, htrue, hafter, hscopes, hrun⟩ :=
    Dataflow.fork_prepares hf₁ htest.atHand (fun _ => not_hasName_suffixed _ _ (by decide))
      (fun _ => not_hasName_suffixed _ _ (by decide)) hrun
  obtain ⟨f₃, s₃, hk₃, hon₃, hprepared, hrun⟩ :=
    hbody.arm hk₁ hon₂ hf₂ htrue hafter (hk₁.all_known hscopes) hrun
  obtain ⟨-, rfl⟩ := Prod.mk.inj hrun
  have hafter₃ := hprepared after hafter
  have hend := hon₃.move hafter₃
  exact ⟨f₃, hk₁.onward hend (hk₃.suits.move hafter₃.1) hk₃.known,
    (Dataflow.Onward.of_quiet hq₁).trans hend⟩

theorem ifElse_tracks (hc : c.isClear k = true)
    (hbody : Tracks (Gen.statements e importer body) k k₁)
    (halternative : Tracks (Gen.statements e importer alternative) (k.behind k₁) k₂) :
    Tracks (Gen.effect e importer (.ifElse c body alternative)) k (k.behind k₂) := by
  intro f s t hs hrun
  rw [Gen.effect] at hrun
  obtain ⟨test, s₁, h₁, hrun⟩ := Gen.bind_ok hrun
  obtain ⟨hq₁, hf₁, htest⟩ := value_follows e c hs.suits hs.admits hc test s₁ h₁
  have hk₁ := hs.quiet hq₁ hf₁
  obtain ⟨p, hrun⟩ := Gen.branchPlace_ok hrun
  obtain ⟨onTrue, s₂, h₂, hrun⟩ := Gen.bind_ok hrun
  obtain ⟨f₂, hf₂, hon₂, htrue, hscopes₂, -⟩ := Dataflow.addBlock_prepares hf₁ (.refl f s₁) hf₁
    (fun k hk => absurd hk (not_hasName_suffixed _ _ (by decide))) h₂
  obtain ⟨onFalse, s₃, h₃, hrun⟩ := Gen.bind_ok hrun
  obtain ⟨f₃, hf₃, hon₃, hfalse, hscopes₃, -⟩ := Dataflow.addBlock_prepares hf₁ hon₂ hf₂
    (fun k hk => absurd hk (not_hasName_suffixed _ _ (by decide))) h₃
  obtain ⟨after, s₄, h₄, hrun⟩ := Gen.bind_ok hrun
  obtain ⟨f₄, hf₄, hon₄, hafter, hscopes₄, -⟩ :=
    Dataflow.addBlock_prepares hf₁ (hon₂.trans hon₃) hf₃
    (fun k hk => absurd hk (not_hasName_suffixed _ _ (by decide))) h₄
  have hon := (hon₂.trans hon₃).trans hon₄
  have htrue := (htrue.onward hon₃).onward hon₄
  have hfalse := hfalse.onward hon₄
  obtain ⟨_, s₅, h₅, hrun⟩ := Gen.bind_ok hrun
  obtain ⟨hq₅, hf₅, -⟩ := Dataflow.branchOn_follows hf₄
    (fun x hx => ((htest x hx).atHand).onward hf₁ hon)
    (htrue.mayJump hon) (hfalse.mayJump hon) () s₅ h₅
  have hquiet₅ : f₄.Onward s₄ f₄ s₅ := .of_quiet hq₅
  have hscopes : s₅.scopes = s₁.scopes := by rw [hq₅.scopes, hscopes₄, hscopes₃, hscopes₂]
  obtain ⟨f₆, s₆, hk₆, hon₆, hprepared₆, hrun⟩ := hbody.arm hk₁ (hon.trans hquiet₅) hf₅
    (htrue.onward hquiet₅) (hafter.onward hquiet₅) (hk₁.all_known hscopes) hrun
  obtain ⟨f₇, s₇, hk₇, hon₇, hprepared₇, hrun⟩ := halternative.arm hk₁ hon₆ hk₆.suits
    (hprepared₆ _ (hfalse.onward hquiet₅)) (hprepared₆ _ (hafter.onward hquiet₅)) hk₆.known hrun
  obtain ⟨-, rfl⟩ := Prod.mk.inj hrun
  have hafter₇ := hprepared₇ after (hprepared₆ after (hafter.onward hquiet₅))
  have hend := hon₇.move hafter₇
  exact ⟨f₇, hk₁.onward hend (hk₇.suits.move hafter₇.1) hk₇.known,
    (Dataflow.Onward.of_quiet hq₁).trans hend⟩

/-- At the end of its body a loop goes round or out, to blocks that start with what had been done
before. -/
theorem closeWhile_onward {f f₁ : Dataflow} {s t u : Session} {l : LoopBlocks} (ht : f₁.Knows k t)
    (hc : c.isClear k = true) (hon : f.Onward s f₁ t) (hentry : f.Prepares s f₁ t l.entry)
    (hexit : f.Prepares s f₁ t l.exit) (hrun : (Gen.closeWhile e c l).run t = (.ok (), u)) :
    f.Onward s f₁ u ∧ f₁.Suits u ∧ u.scopes = t.scopes := by
  obtain ⟨test, t₁, h₁, hrun⟩ := Gen.bind_ok hrun
  obtain ⟨hq₁, hf₁, htest⟩ := value_follows e c ht.suits ht.admits hc test t₁ h₁
  have hquiet₁ : f₁.Onward t f₁ t₁ := .of_quiet hq₁
  have hon₁ := hon.trans hquiet₁
  have hexit₁ := hexit.onward hquiet₁
  obtain ⟨_, t₂, h₂, hrun⟩ := Gen.bind_ok hrun
  obtain ⟨hq₂, hf₂, -⟩ := Dataflow.branchOn_follows hf₁ htest.atHand
    ((hentry.onward hquiet₁).mayJump hon₁) (hexit₁.mayJump hon₁) () t₂ h₂
  have hquiet₂ : f₁.Onward t₁ f₁ t₂ := .of_quiet hq₂
  have hexit₂ := hexit₁.onward hquiet₂
  obtain rfl := Gen.moveToStart_ok hrun
  exact ⟨(hon₁.trans hquiet₂).move hexit₂, hf₂.move hexit₂.1, hq₂.scopes.trans hq₁.scopes⟩

theorem whileLoop_tracks (hc : c.isClear k = true)
    (hbody : Tracks (Gen.statements e importer body) k k₁)
    (hc₁ : c.isClear k₁ = true) : Tracks (Gen.statement e importer (.whileLoop c body)) k
      (k.behind k₁) := by
  intro f s t hs hrun
  rw [Gen.statement] at hrun
  obtain ⟨test, s₁, h₁, hrun⟩ := Gen.bind_ok hrun
  obtain ⟨hq₁, hf₁, htest⟩ := value_follows e c hs.suits hs.admits hc test s₁ h₁
  obtain ⟨n, s₂, h₂, hrun⟩ := Gen.bind_ok hrun
  obtain ⟨hq₂, hf₂, -⟩ := countUp_follows hf₁ n s₂ h₂
  have hk₂ := hs.quiet (hq₁.trans hq₂) hf₂
  obtain ⟨f₃, s₃, entry, exit, hf₃, hon₃, hentry, hexit, hscopes, hrun⟩ :=
    Dataflow.fork_prepares hf₂ (htest.quiet hq₂).atHand (fun _ => not_hasName_while _ rfl n)
      (fun _ => not_hasName_while _ rfl n) hrun
  obtain ⟨_, _, hmove, hrun⟩ := Gen.bind_ok hrun
  obtain rfl := Gen.moveToStart_ok hmove
  obtain ⟨_, s₄, h₄, hrun⟩ := Gen.bind_ok hrun
  obtain ⟨f₄, hk₄, hon₄, hprepared⟩ := hbody.enter hk₂ hon₃ hf₃ hentry (hk₂.all_known hscopes) h₄
  obtain ⟨hend, hsuits, hsame⟩ := closeWhile_onward (l := ⟨entry, exit⟩) hk₄ hc₁ hon₄
    (hprepared entry hentry) (hprepared exit hexit) hrun
  exact ⟨f₄, hk₂.onward hend hsuits (hk₄.all_known hsame),
    (Dataflow.Onward.of_quiet (hq₁.trans hq₂)).trans hend⟩

theorem loopEntered_valid {s s₁ s₂ s₃ : Session} {n : Nat} {entry exit : Place} (hs : s.Valid)
    (h₁ : Gen.countUp.run s = (.ok n, s₁))
    (h₂ : (Gen.addBlock ("for_loop_entry_" ++ toString n)).run s₁ = (.ok entry, s₂))
    (h₃ : (Gen.addBlock ("for_loop_otherwise_" ++ toString n)).run s₂ = (.ok exit, s₃)) :
    { s₃ with loops := s₃.loops.enter entry exit }.Valid := by
  have hsecures : Secures (do
      let n ← Gen.countUp
      let entry ← Gen.addBlock ("for_loop_entry_" ++ toString n)
      let exit ← Gen.addBlock ("for_loop_otherwise_" ++ toString n)
      modify fun s => { s with loops := s.loops.enter entry exit }) s fun _ _ => True := by
    refine loopBlocks_secures hs fun l t ht hst _ _ hnumber hl => ?_
    exact (enterLoop_secures hs ht hst hnumber hl).mono fun _ _ _ _ => trivial
  refine (hsecures.of_run (a := ()) ?_).1
  rw [Gen.run_bind, h₁]
  dsimp only
  rw [Gen.run_bind, h₂]
  dsimp only
  rw [Gen.run_bind, h₃]
  rfl

/-- Both blocks of a loop are made before it is entered. No more has been done by then than before
they were made, so they start with all that has been done. -/
theorem Dataflow.Knows.enterLoop {f f₁ : Dataflow} {entry exit : Place} (hs : f.Knows k s)
    (hst : f.Onward s f₁ t) (ht : f₁.Suits t) (hscopes : t.scopes = s.scopes)
    (hdone : ∀ A i, f₁.DoneAt t A i → f.DoneAt s A i) (hentry : f.Prepares s f₁ t entry)
    (hexit : f.Prepares s f₁ t exit) (hvalid : { t with loops := t.loops.enter entry exit }.Valid) :
    f₁.Knows { k with inLoop := true } { t with loops := t.loops.enter entry exit } ∧
      ∀ q, f.Prepares s f₁ t q → f₁.Prepares { t with loops := t.loops.enter entry exit } f₁
        { t with loops := t.loops.enter entry exit } q := by
  have hk := hs.onward hst ht (hs.all_known hscopes)
  refine ⟨⟨⟨hvalid, ht.distinct, ht.certified⟩, hk.known, hk.owned, fun _ => ?_⟩, fun q hq =>
    ⟨hq.1, ?_⟩⟩
  · exact ⟨entry, exit, t.loops, rfl, hentry.mayJump hst, hexit.mayJump hst⟩
  · intro A i
    exact ⟨fun hi => hst.done A i ((hq.2 A i).mp hi), fun hi => (hq.2 A i).mpr (hdone A i hi)⟩

theorem forLoop_tracks {init next : Stmt} (hinit : Tracks (Gen.statement e importer init) k k₁)
    (hbody : Tracks (Gen.statements e importer body) { k₁ with inLoop := true } k₂)
    (hnext : Tracks (Gen.statement e importer next) k₂ k₃) (hc : c.isClear k₃ = true) :
    Tracks (Gen.statement e importer (.forLoop init c next body)) k (k₁.behind k₃) := by
  intro f s t hs hrun
  rw [Gen.statement_forLoop] at hrun
  simp only [Gen.openFor, Gen.startFor, bind_assoc, pure_bind] at hrun
  obtain ⟨_, s₁, h₁, hrun⟩ := Gen.bind_ok hrun
  obtain ⟨-, rfl⟩ := Prod.mk.inj h₁
  clear h₁
  obtain ⟨_, s₂, h₂, hrun⟩ := Gen.bind_ok hrun
  obtain ⟨f₂, hk₂, hon₂⟩ := hinit f _ s₂ hs.enterScope h₂
  obtain ⟨n, s₃, h₃, hrun⟩ := Gen.bind_ok hrun
  obtain ⟨hq₃, hf₃, hn⟩ := countUp_follows hk₂.suits n s₃ h₃
  have hk₃ := hk₂.quiet hq₃ hf₃
  obtain ⟨entry, s₄, h₄, hrun⟩ := Gen.bind_ok hrun
  obtain ⟨f₄, hf₄, hon₄, hentry, hscopes₄, hcounter₄, hdone₄⟩ :=
    Dataflow.addBlock_prepares hf₃ (.refl f₂ s₃) hf₃
      (fun k hk => Nat.le_of_eq ((hk.unique (.inl rfl)).trans hn)) h₄
  obtain ⟨exit, s₅, h₅, hrun⟩ := Gen.bind_ok hrun
  obtain ⟨f₅, hf₅, hon₅, hexit, hscopes₅, -, hdone₅⟩ := Dataflow.addBlock_prepares hf₃ hon₄ hf₄
    (fun k hk => Nat.le_of_eq ((hk.unique (.inr rfl)).trans (hn.trans hcounter₄.symm))) h₅
  have hon := hon₄.trans hon₅
  have hentry := hentry.onward hon₅
  have hscopes : s₅.scopes = s₃.scopes := hscopes₅.trans hscopes₄
  have hvalid := loopEntered_valid hk₂.suits.valid h₃ h₄ h₅
  obtain ⟨hk, hprepared⟩ := hk₃.enterLoop hon hf₅ hscopes
    (fun A i hi => (hdone₄ A i).mp ((hdone₅ A i).mp hi)) hentry hexit hvalid
  generalize hu : { s₅ with loops := s₅.loops.enter entry exit } = u at hk hprepared hvalid
  have hrun := Gen.modify_ok hrun
  simp only [hu] at hrun
  have hentry := hprepared entry hentry
  have hexit := hprepared exit hexit
  obtain ⟨_, s₇, h₇, hrun⟩ := Gen.bind_ok hrun
  obtain ⟨hq₇, hf₇, -⟩ := Dataflow.branch_follows hk.suits (hentry.mayJump (.refl _ _)) () s₇ h₇
  have hquiet₇ : f₅.Onward u f₅ s₇ := .of_quiet hq₇
  obtain ⟨_, _, hmove, hrun⟩ := Gen.bind_ok hrun
  obtain rfl := Gen.moveToStart_ok hmove
  obtain ⟨_, s₈, h₈, hrun⟩ := Gen.bind_ok hrun
  obtain ⟨f₈, hk₈, hon₈, hprepared₈⟩ := hbody.enter hk hquiet₇ hf₇ (hentry.onward hquiet₇)
    (hk.all_known hq₇.scopes) h₈
  have hentry₈ := hprepared₈ entry (hentry.onward hquiet₇)
  have hexit₈ := hprepared₈ exit (hexit.onward hquiet₇)
  obtain ⟨_, s₉, h₉, hrun⟩ := Gen.bind_ok hrun
  obtain ⟨f₉, hk₉, hon₉⟩ := hnext f₈ s₈ s₉ hk₈ h₉
  obtain ⟨_, s₁₀, h₁₀, hrun⟩ := Gen.bind_ok hrun
  obtain ⟨hend, hsuits, hsame⟩ := closeWhile_onward hk₉ hc (hon₈.trans hon₉) (hentry₈.onward hon₉)
    (hexit₈.onward hon₉) h₁₀
  obtain ⟨-, rfl⟩ := Prod.mk.inj hrun
  rw [← hu] at hend
  have hout : f₂.Onward s₃ f₉ _ := hon.trans hend.leaveLoop
  refine ⟨f₉, hk₃.onward hout ⟨(leaveLoop_secures hsuits.valid).1, hsuits.distinct,
    hsuits.certified⟩ (hk₉.all_known hsame), ?_⟩
  exact ((Dataflow.Onward.enterScope f s).trans hon₂).trans
    ((Dataflow.Onward.of_quiet hq₃).trans hout)

theorem letVar_tracks (he : e.has .functions = true) {name type : String} {x : Expr}
    (hx : x.isClear k = true) (hname : k.admits (.text name) = true) :
    Tracks (Gen.statement e importer (.letVar name x type)) k (k.declare (.text name)) := by
  intro f s t hs hrun
  rw [Gen.statement] at hrun
  obtain ⟨v, s₁, h₁, hrun⟩ := Gen.bind_ok hrun
  obtain ⟨hq₁, hf₁, hv⟩ := value_follows e x hs.suits hs.admits hx v s₁ h₁
  have hk₁ := hs.quiet hq₁ hf₁
  rw [Gen.letVar] at hrun
  obtain ⟨b, s₂, h₂, hrun⟩ := Gen.bind_ok hrun
  obtain ⟨-, -, hb, rfl⟩ := lookup_follows hf₁ (.text name) b s₂ h₂
  cases b with
  | some b =>
    have hslot := hk₁.admits (.text name) b hname hb.symm
    obtain ⟨hq₃, hf₃, -⟩ := store_follows hf₁ hv.atHand hslot () t hrun
    have hk₃ := hk₁.quiet hq₃ hf₃
    refine ⟨f, ⟨hf₃, fun name' b' n ty hb' hv' => ?_, fun name' hown => ?_, hk₃.loop⟩,
      (Dataflow.Onward.of_quiet hq₁).trans (.of_quiet hq₃)⟩
    · have hknown := hk₃.known name' b' n ty hb' hv'
      simp only [Known.knows, Known.declare, List.any_cons, Bool.or_eq_true] at hknown ⊢
      exact .inr hknown
    · simp only [Known.owns, Known.declare, List.any_cons, Bool.or_eq_true] at hown
      rcases hown with hsame | hown
      · refine ⟨b, ?_, hslot.quiet hf₁ hq₃⟩
        rw [← Chain.find?_congr _ hsame, hq₃.scopes, ← hb]
      · exact hk₃.owned name' hown
  | none =>
    obtain ⟨slot, s₃, h₃, hrun⟩ := Gen.bind_ok hrun
    obtain ⟨hq₃, hf₃, hslot⟩ := alloca_follows hf₁ v.ty slot s₃ h₃
    obtain ⟨-, -, ty, hty, htyped⟩ := (alloca_secures hf₁.valid v.ty).of_run h₃
    obtain ⟨_, s₄, h₄, hrun⟩ := Gen.bind_ok hrun
    obtain ⟨hq₄, hf₄, -⟩ := store_follows hf₃ (hv.quiet hq₃).atHand hslot.atHand () s₄ h₄
    simp only [he, if_true, hty, Option.getD_some] at hrun
    obtain ⟨-, rfl⟩ := Prod.mk.inj hrun
    have hk₄ := hk₁.quiet (hq₃.trans hq₄) hf₄
    refine ⟨f, hk₄.define (.inl (htyped.grows hq₄.grows)) (hslot.quiet hq₄).atHand, ?_⟩
    refine (Dataflow.Onward.of_quiet (hq₁.trans (hq₃.trans hq₄))).trans (.define fun b' hb' => ?_)
    rw [hq₄.scopes, hq₃.scopes, ← hb] at hb'
    cases hb'

theorem typeNamed_follows {s : Session} (hs : f.Suits s) (l : Literal) :
    f.Follows (Gen.typeNamed e l) s fun _ t => t = s := by
  rw [Gen.typeNamed]
  split
  · exact .pure hs rfl
  · exact .throw

theorem typesNamed_follow {s : Session} (hs : f.Suits s) (ls : List Literal) :
    f.Follows (Gen.typesNamed e ls) s fun ts t => ts.length = ls.length ∧ t = s := by
  induction ls with
  | nil => exact .pure hs ⟨rfl, rfl⟩
  | cons l ls ih =>
    refine (typeNamed_follows hs l).bind ?_
    rintro t _ - - rfl
    refine ih.bind ?_
    rintro ts _ - - ⟨hlen, rfl⟩
    exact .pure hs ⟨congrArg (· + 1) hlen, rfl⟩

theorem Dataflow.Knows.defineParams {ps : List (Literal × Operand × Ty)} (hs : f.Knows k s)
    (hps : ∀ p ∈ ps, (⟨p.2.1, p.2.2⟩ : Binding).IsTyped s.assembly ∧ f.AtHand s p.2.1)
    (hrun : (Gen.defineParams ps).run s = (.ok (), t)) :
    f.Knows ⟨(ps.map Prod.fst).reverse ++ k.own, (ps.map Prod.fst).reverse ++ k.all, k.inLoop⟩ t ∧
      t.assembly = s.assembly ∧ t.loops = s.loops ∧ t.scopes.tail = s.scopes.tail := by
  induction ps generalizing s k with
  | nil =>
    obtain ⟨-, rfl⟩ := Prod.mk.inj hrun
    exact ⟨hs, rfl, rfl, rfl⟩
  | cons p ps ih =>
    obtain ⟨hp, hps⟩ := List.forall_mem_cons.mp hps
    obtain ⟨ht, hassembly, hloops, hscopes⟩ := ih (hs.define hp.1 hp.2) hps (Gen.modify_ok hrun)
    refine ⟨?_, hassembly, hloops, hscopes.trans (Chain.tail_define _ _ _)⟩
    simpa [Known.declare] using ht

theorem addRoutine_suits {r : Routine} (hs : f.Suits s) (hblocks : r.blocks = [])
    (hnames : ∀ x ∈ r.names.used, x = "" ∨ '.' ∈ x.toList)
    (hrun : (Gen.addItem (.routine r)).run s = (.ok (), t)) :
    f.Suits t ∧ t.scopes = s.scopes ∧ s.assembly.KeepsConstants t.assembly ∧
      t.assembly.routine? r.name = some r := by
  obtain ⟨hvalid, -, -, hr⟩ := (addRoutine_secures hs.valid hblocks hnames).of_run hrun
  have hblocks' : ∀ r', Item.routine r = .routine r' → r'.blocks = [] :=
    fun r' hr' => Item.routine.inj hr' ▸ hblocks
  cases hi : s.assembly.item? (Item.routine r).name with
  | some j =>
    rw [Gen.run_addItem_taken hi] at hrun
    cases hrun
  | none =>
    rw [Gen.run_addItem hi] at hrun
    obtain ⟨-, rfl⟩ := Prod.mk.inj hrun
    refine ⟨⟨hvalid, ?_, hs.certified.add hi hblocks'⟩, rfl,
      Assembly.KeepsConstants.steps.add hi hblocks', hr⟩
    exact (Assembly.Distinct.steps.add hi hblocks' ⟨hs.valid.sound, hs.distinct⟩).2

theorem addEntry_suits {n name : String} {q : Place} (hs : f.Suits s)
    (hname : ∀ k, ForLoop.HasName k name → k ≤ s.counter)
    (hrun : (Gen.addBlockTo n name).run s = (.ok q, t)) :
    f.Suits t ∧ t.scopes = s.scopes ∧ s.assembly.KeepsConstants t.assembly ∧ q.routine = n ∧
      (t.assembly.code? q).isSome = true ∧ s.assembly.Grows t.assembly := by
  obtain ⟨hvalid, r, hr, rfl, rfl, hcode⟩ := (addBlockTo_secures hs.valid hname).of_run hrun
  obtain rfl := Assembly.routine?_name hr
  have hsame : f.extend ⟨r.name, (r.addBlock name).1⟩ (fun _ _ => False) = f := by
    funext q A i
    simp [Dataflow.extend]
  have hcertified : f.Certifies (s.assembly.withBlock r name) := by
    rw [← hsame]
    exact hs.certified.withBlock hs.valid.sound hr (fun _ _ h => h.elim) fun _ _ _ h => h
  refine ⟨⟨hvalid, ?_, hcertified⟩, rfl, Assembly.KeepsConstants.steps.withBlock hr, rfl, hcode,
    Assembly.Grows.steps.withBlock hr⟩
  exact (Assembly.Distinct.steps.withBlock hr ⟨hs.valid.sound, hs.distinct⟩).2

/-- Before the body of a routine its parameters are known, and nothing else that stands for a slot
may be used. -/
theorem openRoutine_knows {name : String} {params : List Param} {type : Literal} {b : Binding}
    (hs : f.Knows k s) (hrun : (Gen.openRoutine e name params type).run s = (.ok b, t)) :
    f.Knows (k.inside params) t ∧ s.assembly.KeepsConstants t.assembly ∧
      t.scopes.tail = s.scopes := by
  rw [Gen.openRoutine] at hrun
  obtain ⟨types, s₁, h₁, hrun₁⟩ := Gen.bind_ok hrun
  obtain ⟨-, -, hlength, hs₁⟩ := typesNamed_follow hs.suits _ types s₁ h₁
  subst s₁
  obtain ⟨result, s₂, h₂, hrun₂⟩ := Gen.bind_ok hrun₁
  obtain ⟨-, -, hs₂⟩ := typeNamed_follows hs.suits _ result s₂ h₂
  subst s₂
  obtain ⟨_, s₃, h₃, hrun₃⟩ := Gen.bind_ok hrun₂
  obtain ⟨hf₃, hscopes₃, hc₃, hr₃⟩ :=
    addRoutine_suits hs.suits rfl (Routine.declare_dotted _ _ _ _) h₃
  obtain ⟨entry, s₄, h₄, hrun₄⟩ := Gen.bind_ok hrun₃
  obtain ⟨hf₄, hscopes₄, hc₄, hentry, hcode₄, hg₄⟩ :=
    addEntry_suits hf₃ (fun k hk => absurd hk (not_hasName_entry _)) h₄
  obtain ⟨r, hr, hgrow⟩ := hg₄ _ _ hr₃
  have hrun₅ := Gen.modify_ok hrun₄
  have hf₅ : f.Suits
      { s₄ with builder := s₄.builders, builders := s₄.builders + 1, place := some entry } :=
    ⟨(startBuilder_secures hf₄.valid hcode₄).1, hf₄.distinct, hf₄.certified⟩
  obtain ⟨ptrs, s₆, h₆, hrun₆⟩ := Gen.bind_ok hrun₅
  obtain ⟨hq₆, hf₆, hlength₆, hptrs⟩ := slots_follow hf₅ rfl (hentry ▸ hr)
    (hgrow.params ▸ List.Subset.refl _) ptrs s₆ h₆
  obtain ⟨-, -, htyped⟩ := (slots_secures hf₅.valid _).of_run h₆
  have hscopes₆ : s₆.scopes = s.scopes := hq₆.scopes.trans (hscopes₄.trans hscopes₃)
  -- what is known where the body of the routine starts: names of slots that are not its own
  have hk₆ : f.Knows ⟨[], k.all, false⟩ s₆ := by
    refine ⟨hf₆, fun name' b' n ty hb' hv' => ?_, fun name' hname => by simp [Known.owns] at hname,
      fun h => by cases h⟩
    rw [hscopes₆] at hb'
    exact hs.known name' b' n ty hb' hv'
  obtain ⟨_, s₇, h₇, hrun₇⟩ := Gen.bind_ok (Gen.modify_ok hrun₆)
  have htypes : (Routine.declare name result types false).params.map Prod.snd = types :=
    Routine.takeNames_types _ _
  obtain ⟨hk₇, hassembly₇, -, hscopes₇⟩ := hk₆.enterScope.defineParams (fun p hp => by
    have hmem := (List.of_mem_zip hp).2
    exact ⟨htyped p.2 (by rwa [htypes]), (hptrs p.2.1 (List.of_mem_zip hmem).1).atHand⟩) h₇
  have hb : Binding.IsRoutine s₇.assembly ⟨(Routine.declare name result types false).operand,
      result⟩ := by
    rw [hassembly₇]
    exact Binding.IsRoutine.grows ⟨_, hr₃, rfl, rfl⟩ (hg₄.trans hq₆.grows)
  have hrun₈ := Gen.modify_ok hrun₇
  obtain ⟨-, rfl⟩ := Prod.mk.inj hrun₈
  have hnames : ((params.map Param.name).zip (ptrs.zip types)).map Prod.fst = params.map
      Param.name := by
    have hparams := congrArg List.length htypes
    rw [List.length_map] at hlength hparams
    refine List.map_fst_zip ?_
    simp only [List.length_map, List.length_zip]
    omega
  rw [hnames] at hk₇
  refine ⟨(hk₇.defineRoutine hb).weaken (fun _ h => ?_) (fun _ h => ?_) id, ?_, ?_⟩
  · simpa [Known.owns, Known.inside] using h
  · simpa [Known.knows, Known.inside] using h
  · intro n c hc
    rw [show _ = s₆.assembly from hassembly₇]
    exact hq₆.constants n c (hc₄ n c (hc₃ n c hc))
  · rw [Chain.tail_define, hscopes₇]
    exact hscopes₆

theorem Chain.leaveTo_suffix {β : Type} {c d : Chain β} (h : c <:+ d) : d.leaveTo c.length = c :=
  (List.suffix_iff_eq_drop.mp h).symm

theorem fn_tracks {name : String} {params : List Param} {type : Literal}
    (hbody : Tracks (Gen.statements e importer body) (k.inside params) k₁) :
    Tracks (Gen.statement e importer (.fn name (some params) type body)) k k := by
  intro f s t hs hrun
  rw [Gen.statement_fn, Gen.run_bind, Gen.run_get] at hrun
  obtain ⟨b, s₁, h₁, hrun⟩ := Gen.bind_ok hrun
  obtain ⟨hk₁, hc₁, hscopes₁⟩ := openRoutine_knows hs h₁
  obtain ⟨-, hl₁, hg₁, hb₁⟩ := (openRoutine_secures e hs.suits.valid name params type).of_run h₁
  obtain ⟨_, s₂, h₂, hrun⟩ := Gen.bind_ok hrun
  obtain ⟨f₂, hk₂, hon₂⟩ := hbody f s₁ s₂ hk₁ h₂
  have hrun := Gen.modify_ok (Gen.modify_ok hrun)
  obtain ⟨-, rfl⟩ := Prod.mk.inj hrun
  have hg := hg₁.trans hon₂.frames.grows
  have hb := hb₁.grows hon₂.frames.grows
  have houter : s.scopes <:+ s₂.scopes := by
    rw [← hscopes₁]
    exact hon₂.outer.trans (List.tail_suffix _)
  have hscopes := Chain.leaveTo_suffix houter
  -- the session behind the body, back in the routine around it but before its name is defined there
  have hback : f.Onward s f₂
      { s₂ with scopes := s.scopes, builder := s.builder, place := s.place } := by
    refine ⟨⟨hon₂.frames.loops.trans hl₁, rfl, rfl, hg⟩, fun n c hc =>
      hon₂.constants n c (hc₁ n c hc),
      fun q hq => hon₂.agree q (hg₁.code_isSome hq), ?_, fun _ b' hb' => ⟨b', hb', .inl rfl⟩,
        List.suffix_rfl⟩
    rintro A i ⟨p, is, hp, his, hi⟩
    obtain ⟨js, hjs⟩ := hg.code his
    refine ⟨p, is ++ js, hp, hjs, hi.imp (fun hi => ⟨hi.1, List.mem_append_left _ hi.2⟩) ?_⟩
    exact (hon₂.agree p (hg₁.code_isSome (by rw [his]; rfl)) A i).mpr
  have hvalid : { s₂ with scopes := s.scopes, builder := s.builder, place := s.place }.Valid := by
    have hleft := (leaveScopes_secures hk₂.suits.valid s.scopes.length).1
    simp only [hscopes] at hleft
    exact (resumeBuilder_secures hleft fun p hp => hg.code_isSome (hs.suits.valid.placed p hp)).1
  simp only [hscopes]
  have hk := hs.onward hback ⟨hvalid, hk₂.suits.distinct, hk₂.suits.certified⟩ (hs.all_known rfl)
  exact ⟨f₂, hk.defineRoutine hb, hback.trans (.define fun _ _ => hb)⟩

mutual

theorem effect_tracks {imports : Imports} (he : e.has .functions = true)
    (himport : ∀ path k k', imports path k = some k' → Tracks (importer path) k k') :
    ∀ (x : Expr) {k k' : Known}, x.scope? imports k = some k' →
      Tracks (Gen.effect e importer x) k k'
  | .missing, _, _, _ => by
    rw [Gen.effect]
    exact .fails
  | .int _, _, _, h | .float _, _, _, h | .ident _, _, _, h | .bool _, _, _, h | .str _, _, _, h
  | .prefixed .., _, _, h => by
    simp only [Expr.scope?, Option.ite_none_right_eq_some, Option.some.injEq] at h
    obtain ⟨-, rfl⟩ := h
    rw [Gen.effect]
    exact .of_follows fun f s hs => .pure hs.suits trivial
  | .infixed .., k, _, h | .call .., k, _, h | .openCall _, k, _, h => by
    simp only [Expr.scope?, Option.ite_none_right_eq_some, Option.some.injEq] at h
    obtain ⟨hclear, rfl⟩ := h
    rw [Gen.effect]
    exact .of_follows fun f s hs => (value_follows e _ hs.suits hs.admits hclear).bind
      fun _ t _ ht _ => .pure ht trivial
  | .stepped x op, k, _, h => by
    obtain ⟨hclear, rfl⟩ := Expr.scope?_stepped.mp h
    rw [Gen.effect]
    exact .of_follows fun f s hs => stepping_follows hs.suits hs.admits hclear
  | .ifThen c body, k, _, h => by
    obtain ⟨hclear, k₁, hk₁, rfl⟩ := Expr.scope?_ifThen.mp h
    exact ifThen_tracks hclear (statements_track he himport body hk₁)
  | .ifElse c body alternative, k, _, h => by
    obtain ⟨hclear, k₁, hk₁, k₂, hk₂, rfl⟩ := Expr.scope?_ifElse.mp h
    exact ifElse_tracks hclear (statements_track he himport body hk₁)
      (statements_track he himport alternative hk₂)

theorem statement_tracks {imports : Imports} (he : e.has .functions = true)
    (himport : ∀ path k k', imports path k = some k' → Tracks (importer path) k k') :
    ∀ (st : Stmt) {k k' : Known}, st.scope? imports k = some k' →
      Tracks (Gen.statement e importer st) k k'
  | .missing, _, _, _ => by
    rw [Gen.statement]
    exact .fails
  | .expr x, k, _, h | .bare x, k, _, h => by
    rw [Stmt.scope?] at h
    rw [Gen.statement]
    exact effect_tracks he himport x h
  | .letVar name x type, k, _, h => by
    obtain ⟨hclear, rfl⟩ := Stmt.scope?_letVar.mp h
    obtain ⟨hx, hname⟩ := Bool.and_eq_true_iff.mp hclear
    exact letVar_tracks he hx hname
  | .ret x, k, _, h => by
    obtain ⟨hclear, rfl⟩ := Stmt.scope?_ret.mp h
    rw [Gen.statement]
    exact .of_follows fun f s hs => (value_follows e x hs.suits hs.admits hclear).bind
      fun v t _ ht hv => Dataflow.ret_follows ht hv.atHand
  | .fn name none type body, _, _, _ => by
    rw [Gen.statement]
    exact .fails
  | .fn name (some params) type body, k, _, h => by
    obtain ⟨k₁, hk₁, rfl⟩ := Stmt.scope?_fn.mp h
    exact fn_tracks (statements_track he himport body hk₁)
  | .assign target op x, k, _, h => by
    obtain ⟨hclear, rfl⟩ := Stmt.scope?_assign.mp h
    obtain ⟨htarget, hx⟩ := Bool.and_eq_true_iff.mp hclear
    exact .of_follows fun f s hs => assignment_follows e importer hs.suits hs.admits htarget hx
  | .whileLoop c body, k, _, h => by
    obtain ⟨hclear, k₁, hk₁, hclear₁, rfl⟩ := Stmt.scope?_whileLoop.mp h
    exact whileLoop_tracks hclear (statements_track he himport body hk₁) hclear₁
  | .breakLoop, k, _, h | .continueLoop, k, _, h => by
    rw [Stmt.scope?] at h
    obtain ⟨hloop, h⟩ := Option.ite_none_right_eq_some.mp h
    obtain rfl := Option.some.inj h
    rw [Gen.statement]
    refine .of_follows fun f s hs => .get ?_
    obtain ⟨entry, exit, outer, hloops, hentry, hexit⟩ := hs.loop hloop
    rw [hloops]
    first
    | exact Dataflow.branch_follows hs.suits hexit
    | exact Dataflow.branch_follows hs.suits hentry
  | .forLoop init c next body, k, _, h => by
    obtain ⟨k₁, hk₁, k₂, hk₂, k₃, hk₃, hclear, rfl⟩ := Stmt.scope?_forLoop.mp h
    exact forLoop_tracks (statement_tracks he himport init hk₁)
      (statements_track he himport body hk₂) (statement_tracks he himport next hk₃) hclear
  | .importPallet path, k, k', h => by
    rw [Stmt.scope?] at h
    rw [Gen.statement]
    exact himport path k k' h

theorem statements_track {imports : Imports} (he : e.has .functions = true)
    (himport : ∀ path k k', imports path k = some k' → Tracks (importer path) k k') :
    ∀ (ss : List Stmt) {k k' : Known}, scopes? imports k ss = some k' →
      Tracks (Gen.statements e importer ss) k k'
  | [], k, _, h => by
    rw [scopes?] at h
    obtain rfl := Option.some.inj h
    rw [Gen.statements]
    exact .of_follows fun f s hs => .pure hs.suits trivial
  | st :: ss, k, k', h => by
    rw [scopes?] at h
    obtain ⟨k₁, hk₁, h⟩ := Option.bind_eq_some_iff.mp h
    rw [Gen.statements]
    exact (statement_tracks he himport st hk₁).seq (statements_track he himport ss h)

end

theorem importer_tracks (he : e.has .functions = true) (files : Files) (depth : Nat) (path : String)
    (k k' : Known) (h : files.scope? e depth path k = some k') :
    Tracks (Gen.importer e files depth path) k k' := by
  induction depth generalizing path k k' with
  | zero => exact .fails
  | succ depth ih =>
    have hprint : ∀ line, Tracks (Gen.print line) k k := fun line =>
      .of_follows fun f s hs => print_follows hs.suits line
    rw [Files.scope?] at h
    rw [Gen.importer]
    refine .get fun s => ?_
    cases hread : files.read (Files.normalize ("tests\\" ++ path).toList) with
    | error error =>
      simp only [hread] at h ⊢
      obtain rfl := Option.some.inj h
      exact .choice (hprint _) .fails
    | ok source =>
      simp only [hread] at h ⊢
      obtain ⟨k₁, hk₁, rfl⟩ := Option.map_eq_some_iff.mp h
      refine .choice ((hprint _).more _) ?_
      have hnotices :
          Tracks ((Scan.ofSource e source).notices.forM fun n => Gen.print n.message) k k :=
        .forM (fun n => hprint _) _
      have hopen : Tracks (modify fun s => { s with opened := s.opened ++ [path] }) k k :=
        .of_follows fun f s hs => openFile_follows hs.suits path
      refine hopen.seq (hnotices.seq ?_)
      cases (Scan.ofSource e source).failure with
      | some failure => exact .fails
      | none =>
        refine .choice ?_ ?_
        · rw [Gen.program, if_pos he]
          intro f s t hs hrun
          obtain ⟨_, u, hbody, hrun⟩ := Gen.bind_ok hrun
          obtain ⟨-, rfl⟩ := Prod.mk.inj hrun
          obtain ⟨f', hu, hsu⟩ := statements_track he ih _ hk₁ f s u hs hbody
          exact ⟨f', ((hs.onward hsu hu.suits hu.known).more k.all).finishImport _,
            hsu.trans (.finishImport f' u _)⟩
        · have hlist : ∀ errors : List ParseError,
              Tracks (errors.forM fun error => Gen.print error.message) k k :=
            .forM fun error => hprint _
          exact (hprint _).seq ((hlist _).seq .fails)

theorem knows_start (e : Edition) :
    Dataflow.Knows (fun _ _ _ => False) .empty (Session.start e) := by
  have hcode := Session.code?_start e
  have hvalid := Session.valid_start e
  refine ⟨⟨hvalid, ⟨by simp [hcode], by simp [hcode]⟩, ?_⟩, fun name b n ty hb hv => ?_,
    by simp [Known.owns, Known.empty], by simp [Known.empty]⟩
  · exact ⟨by simp, by simp, by simp [hcode], by simp, by simp [hcode]⟩
  -- names of a new session stand for globals
  rcases hvalid.typed.find? hb with ⟨q, is, _, hq, -⟩ | ⟨r, -, hr, -⟩ | ⟨i, hi, -, hi', -⟩
  · simp [hcode] at hq
  · rw [hr] at hv
    cases hv
  · rw [hi'] at hv
    rcases List.mem_pair.mp hi with rfl | rfl
    · cases hv
    · cases hv

/-- What a scoped program computes is there where it is used: no way through a routine leads to an
instruction before all that it uses has been executed. -/
theorem compiled_operands_provided {files : Files} {p : Program} (he : e.has .functions = true)
    (hscoped : p.isScoped e files = true) (hok : ((Session.start e).compile e files p).1 = .ok ()) :
    let a := ((Session.start e).compile e files p).2.assembly
    ∀ r, .routine r ∈ a.items → ∀ b ∈ r.blocks, ∀ before i behind, b.instrs = before ++ i ::
      behind → ∀ x ∈ i.op.operands, a.Provides r b.name before x := by
  rw [Program.isScoped] at hscoped
  obtain ⟨k', hk'⟩ := Option.isSome_iff_exists.mp hscoped
  have htracks := statements_track he (importer_tracks he files Gen.maxImportDepth) p hk'
  have hrun : (Gen.statements e (Gen.importer e files Gen.maxImportDepth) p).run (Session.start e) =
      (.ok (), ((Session.start e).compile e files p).2) := by
    rw [Session.compile, Gen.program, if_pos he] at hok ⊢
    exact Prod.ext hok rfl
  obtain ⟨f, ht, -⟩ := htracks _ _ _ (knows_start e) hrun
  intro a r hr b hb before i behind hsplit x hx
  exact ht.suits.certified.provides ht.suits.valid.sound hr hb hsplit hx

end Statements

/-- A routine inside of a routine, and variables that are declared in a branch and in a loop. -/
theorem compiled_operands_provided_nested :
    let p : Program := [.fn "main" (some []) (.text "int")
      [.letVar "a" (.int 1) "int",
       .fn "double" (some [⟨.text "a", .text "int"⟩]) (.text "int")
         [.letVar "b" (.infixed (.ident "a") .mul (.int 2)) "int", .ret (.ident "b")],
       .expr (.ifThen (.infixed (.ident "a") .eq (.int 1))
         [.letVar "c" (.call (.ident "double") [.ident "a"]) "int",
          .assign (.text "a") (.text "=") (.ident "c")]),
       .forLoop (.letVar "i" (.int 0) "int") (.infixed (.ident "i") .lt (.int 9))
         (.bare (.stepped (.ident "i") .increment))
         [.letVar "d" (.ident "i") "int",
          .expr (.ifElse (.infixed (.ident "d") .eq (.ident "a")) [.breakLoop] [.continueLoop])],
       .ret (.ident "i")]]
    let a := ((Session.start .latest).compile .latest ⟨[], []⟩ p).2.assembly
    (a.routine? "main").map (·.blocks.length) = some 8 ∧
    ∀ r, .routine r ∈ a.items → ∀ b ∈ r.blocks, ∀ before i behind, b.instrs = before ++ i ::
      behind → ∀ x ∈ i.op.operands, a.Provides r b.name before x := by
  intro p a
  have hscoped : p.isScoped .latest ⟨[], []⟩ = true := by decide +kernel
  have hok : ((Session.start .latest).compile .latest ⟨[], []⟩ p).1 = .ok () := by decide +kernel
  have hblocks : (a.routine? "main").map (·.blocks.length) = some 8 := by decide +kernel
  exact ⟨hblocks, compiled_operands_provided (by decide) hscoped hok⟩

/-- A variable that is declared in a branch can be used behind it, and then its slot need not be
there. -/
theorem operand_not_provided_behind_branch :
    let p : Program := [.fn "main" (some []) (.text "int")
      [.expr (.ifThen (.infixed (.int 1) .eq (.int 1)) [.letVar "a" (.int 7) "int"]),
      .ret (.ident "a")]]
    let result := (Session.start .latest).compile .latest ⟨[], []⟩ p
    let a := result.2.assembly
    result.1 = .ok () ∧ result.2.errors = [] ∧
    ∃ r b before i behind x, .routine r ∈ a.items ∧ b ∈ r.blocks ∧
      b.instrs = before ++ i :: behind ∧ x ∈ i.op.operands ∧ ¬ a.Provides r b.name before x := by
  intro p result a
  let test : Instr := ⟨".2", .icmp .eq (.int .i32 1) (some (.int .i32 1))⟩
  let choose : Instr := ⟨".3", .condBr (some (.result ".2" .i1)) "main_entry.if" "main_entry.endif"⟩
  let inner : Block := ⟨"main_entry.if", [⟨".4", .alloca .i32⟩,
    ⟨".5", .store (.int .i32 7) (.result ".4" (.pointer .i32))⟩, ⟨".6", .br "main_entry.endif"⟩]⟩
  let after : Block := ⟨"main_entry.endif", [⟨".7", .load (.result ".4" (.pointer .i32))⟩,
    ⟨".8", .ret (some (.result ".7" .i32))⟩]⟩
  have hrun : (a.routine? "main").map (fun r => (r.params, r.blocks)) =
      some ([], [⟨"main_entry", [test, choose]⟩, inner, after]) := by decide +kernel
  obtain ⟨r, hr, hbody⟩ := Option.map_eq_some_iff.mp hrun
  obtain ⟨hparams, hblocks⟩ := Prod.mk.inj hbody
  have hafter : after ∈ r.blocks := by
    rw [hblocks]
    simp
  have hok : result.1 = .ok () := by decide +kernel
  have herrors : result.2.errors = [] := by decide +kernel
  have hmem := Assembly.mem_of_routine? hr
  clear_value a
  refine ⟨hok, herrors, r, after, [], _, _, .result ".4" (.pointer .i32), hmem, hafter, rfl,
    by simp [Op.operands], fun h => ?_⟩
  -- the test can lead past the branch, so the slot is missing there
  have hmisses : ∀ i, r.Misses inner.name i after.name := fun i =>
    .jump (by rw [hblocks]; exact List.mem_cons_self) (.entry hblocks)
      (show [test, choose] = [test] ++ choose :: [] from rfl) (by simp [choose, after, Op.targets])
      (by simp [inner])
  have hslot : ∀ A ∈ r.blocks, ∀ i ∈ A.instrs, i.name = ".4" → A.name = inner.name := by
    rw [hblocks]
    decide
  generalize hx : Operand.result ".4" (.pointer .i32) = x at h
  cases h with
  | int | float => cases hx
  | item =>
    rename_i i _
    cases i <;> cases hx
  | param hparam =>
    rw [hparams] at hparam
    cases hparam
  | result hA hi hprecedes =>
    rw [hslot _ hA _ hi (Operand.result.inj hx).1.symm] at hprecedes
    exact hprecedes.elim (fun h => absurd h.2 List.not_mem_nil) fun h => h (hmisses _)

end LimeLang
