import LimeLang.Proofs.ScopedPrograms

/-! What statements do to the scopes around them. A routine gives back the scopes that it found and
only defines its name. A `for` statement leaves its scope open, so there is one more scope for each
of them. -/

namespace LimeLang

open Code

variable {s : Session} {name : String}

/-- The program in a file that can be imported. -/
def Files.pallet? (files : Files) (e : Edition) (path : String) : Option Program :=
  match files.read (Files.normalize ("tests\\" ++ path).toList) with
  | .error _ => none
  | .ok source =>
    let scan := Scan.ofSource e source
    let parsed := Parsed.ofLexemes e scan.lexemes
    if scan.failure = none ∧ parsed.errors = [] then some parsed.program else none

def Expr.isSimple : Expr → Bool
  | .ifThen .. | .ifElse .. => false
  | _ => true

def Stmt.isSimple : Stmt → Bool
  | .letVar .. | .ret _ | .assign .. | .breakLoop | .continueLoop => true
  | _ => false

/-- What a scope gets to see of the statements in it. -/
inductive Visit
  | loop
  | routine (name : String)
deriving DecidableEq

/-- The loops and routines of a node, in order and with those of the files that it imports. What is
inside of a routine is not seen. The lists of files are those that have been imported before and
after. -/
inductive Visits (e : Edition) (files : Files) : List String → Node → List Visit → List String →
    Prop
  | simpleExpr {done x} (hx : x.isSimple = true) : Visits e files done (.expr x) [] done
  | simpleStmt {done st} (hst : st.isSimple = true) : Visits e files done (.stmt st) [] done
  | ifThen {done done' vs c body} (hbody : Visits e files done (.block body) vs done') :
      Visits e files done (.expr (.ifThen c body)) vs done'
  | ifElse {done done₁ done' vs ws c body alternative}
      (hbody : Visits e files done (.block body) vs done₁)
      (halternative : Visits e files done₁ (.block alternative) ws done') :
      Visits e files done (.expr (.ifElse c body alternative)) (vs ++ ws) done'
  | expr {done done' vs x} (hx : Visits e files done (.expr x) vs done') :
      Visits e files done (.stmt (.expr x)) vs done'
  | bare {done done' vs x} (hx : Visits e files done (.expr x) vs done') :
      Visits e files done (.stmt (.bare x)) vs done'
  | whileLoop {done done' vs c body} (hbody : Visits e files done (.block body) vs done') :
      Visits e files done (.stmt (.whileLoop c body)) vs done'
  | forLoop {done done₁ done₂ done' us vs ws init c next body}
      (hinit : Visits e files done (.stmt init) us done₁)
      (hbody : Visits e files done₁ (.block body) vs done₂)
      (hnext : Visits e files done₂ (.stmt next) ws done') :
      Visits e files done (.stmt (.forLoop init c next body)) (.loop :: (us ++ vs ++ ws)) done'
  | fn {done done' vs name params type body} (hbody : Visits e files done (.block body) vs done') :
      Visits e files done (.stmt (.fn name params type body)) [.routine name] done'
  | known {done path} (hpath : path ∈ done) :
      Visits e files done (.stmt (.importPallet path)) [] done
  | pallet {done done' vs path p} (hpath : path ∉ done) (hp : files.pallet? e path = some p)
      (hvisits : Visits e files done (.block p) vs done') :
      Visits e files done (.stmt (.importPallet path)) vs (done' ++ [path])
  | nil {done} : Visits e files done (.block []) [] done
  | cons {done done₁ done' vs ws st ss} (hst : Visits e files done (.stmt st) vs done₁)
      (hss : Visits e files done₁ (.block ss) ws done') :
      Visits e files done (.block (st :: ss)) (vs ++ ws) done'
  | program {done done' vs p} (hp : Visits e files done (.block p) vs done') :
      Visits e files done (.program p) vs done'

/-- There is one way only to go through a node. -/
theorem Visits.unique {e : Edition} {files : Files} {done done₁ done₂ : List String} {node : Node}
    {vs ws : List Visit} (h : Visits e files done node vs done₁)
    (h' : Visits e files done node ws done₂) : ws = vs ∧ done₂ = done₁ := by
  induction h generalizing ws done₂ with
  | simpleExpr hx =>
    cases h' with
    | simpleExpr => exact ⟨rfl, rfl⟩
    | ifThen => cases hx
    | ifElse => cases hx
  | simpleStmt hst =>
    cases h' with
    | simpleStmt => exact ⟨rfl, rfl⟩
    | _ => cases hst
  | ifThen _ ih =>
    cases h' with
    | simpleExpr hx => cases hx
    | ifThen hbody => exact ih hbody
  | ifElse _ _ ih ih' =>
    cases h' with
    | simpleExpr hx => cases hx
    | ifElse hbody halternative =>
      obtain ⟨rfl, rfl⟩ := ih hbody
      obtain ⟨rfl, rfl⟩ := ih' halternative
      exact ⟨rfl, rfl⟩
  | expr _ ih =>
    cases h' with
    | simpleStmt hst => cases hst
    | expr hx => exact ih hx
  | bare _ ih =>
    cases h' with
    | simpleStmt hst => cases hst
    | bare hx => exact ih hx
  | whileLoop _ ih =>
    cases h' with
    | simpleStmt hst => cases hst
    | whileLoop hbody => exact ih hbody
  | forLoop _ _ _ ih ih' ih'' =>
    cases h' with
    | simpleStmt hst => cases hst
    | forLoop hinit hbody hnext =>
      obtain ⟨rfl, rfl⟩ := ih hinit
      obtain ⟨rfl, rfl⟩ := ih' hbody
      obtain ⟨rfl, rfl⟩ := ih'' hnext
      exact ⟨rfl, rfl⟩
  | fn _ ih =>
    cases h' with
    | simpleStmt hst => cases hst
    | fn hbody => exact ⟨rfl, (ih hbody).2⟩
  | known hpath =>
    cases h' with
    | simpleStmt hst => cases hst
    | known => exact ⟨rfl, rfl⟩
    | pallet hnew => exact absurd hpath hnew
  | pallet hnew hp _ ih =>
    cases h' with
    | simpleStmt hst => cases hst
    | known hpath => exact absurd hpath hnew
    | pallet _ hp' hvisits =>
      obtain rfl := Option.some.inj (hp.symm.trans hp')
      obtain ⟨rfl, rfl⟩ := ih hvisits
      exact ⟨rfl, rfl⟩
  | nil =>
    cases h' with
    | nil => exact ⟨rfl, rfl⟩
  | cons _ _ ih ih' =>
    cases h' with
    | cons hst hss =>
      obtain ⟨rfl, rfl⟩ := ih hst
      obtain ⟨rfl, rfl⟩ := ih' hss
      exact ⟨rfl, rfl⟩
  | program _ ih =>
    cases h' with
    | program hp => exact ih hp

section Chains

variable {β : Type} {c d f : Chain β} {k l : Nat}

theorem Table.names_define_prefix (t : Table β) (n : Literal) (b : β) :
    t.names <+: (t.define n b).names := by
  rw [Table.names_define]
  split
  · exact List.prefix_rfl
  · exact List.prefix_append _ _

/-- There are `k` new scopes. Of the old ones only the innermost has changed, and it keeps its
names. -/
def Chain.Gains (k : Nat) (c d : Chain β) : Prop :=
  ∃ (opened : Chain β) (scope scope' : Table β) (parents : Chain β), c = scope :: parents ∧
    d = opened ++ scope' :: parents ∧ opened.length = k ∧ scope.names <+: scope'.names

namespace Chain.Gains

theorem refl (hc : c ≠ []) : Gains 0 c c := by
  cases c with
  | nil => exact absurd rfl hc
  | cons t ts => exact ⟨[], t, t, ts, rfl, rfl, rfl, List.prefix_rfl⟩

theorem define (hc : c ≠ []) (n : Literal) (b : β) : Gains 0 c (c.define n b) := by
  cases c with
  | nil => exact absurd rfl hc
  | cons t ts => exact ⟨[], t, t.define n b, ts, rfl, rfl, rfl, t.names_define_prefix n b⟩

theorem enter (hc : c ≠ []) : Gains 1 c c.enter := by
  cases c with
  | nil => exact absurd rfl hc
  | cons t ts => exact ⟨[[]], t, t, ts, rfl, rfl, rfl, List.prefix_rfl⟩

theorem ne_nil (h : Gains k c d) : d ≠ [] := by
  obtain ⟨opened, scope, scope', parents, -, rfl, -⟩ := h
  simp

theorem trans (h : Gains k c d) (h' : Gains l d f) : Gains (k + l) c f := by
  obtain ⟨opened, scope, scope', parents, rfl, rfl, hk, hnames⟩ := h
  obtain ⟨opened', top, top', rest, htop, rfl, hl, hnames'⟩ := h'
  cases opened with
  | nil =>
    obtain ⟨rfl, rfl⟩ := List.cons.inj htop
    refine ⟨opened', scope, top', parents, rfl, rfl, ?_, hnames.trans hnames'⟩
    rw [← hk, hl]
    simp
  | cons t ts =>
    obtain ⟨rfl, rfl⟩ := List.cons.inj htop
    refine ⟨opened' ++ top' :: ts, scope, scope', parents, rfl, by simp, ?_, hnames⟩
    simp only [List.length_append, List.length_cons] at hk ⊢
    omega

/-- The scopes outside of the one that is entered stay as they are. -/
theorem suffix {t : Table β} (h : Gains k (t :: c) d) : c <:+ d := by
  obtain ⟨opened, scope, scope', parents, hc, rfl, -⟩ := h
  obtain ⟨rfl, rfl⟩ := List.cons.inj hc
  exact ⟨opened ++ [scope'], by simp⟩

end Chain.Gains

end Chains

namespace Session

variable {s t u : Session}

/-- The scopes and the list of imported files are as they were. -/
structure Aside (s t : Session) : Prop where
  scopes : t.scopes = s.scopes
  pallets : t.pallets = s.pallets

/-- Writing also goes on where it was. -/
structure Still (s t : Session) : Prop extends Aside s t where
  place : t.place = s.place

theorem Aside.refl (s : Session) : s.Aside s := ⟨rfl, rfl⟩

theorem Aside.trans (h : s.Aside t) (h' : t.Aside u) : s.Aside u :=
  ⟨h'.scopes.trans h.scopes, h'.pallets.trans h.pallets⟩

theorem Still.refl (s : Session) : s.Still s := ⟨.refl s, rfl⟩

theorem Still.trans (h : s.Still t) (h' : t.Still u) : s.Still u :=
  ⟨h.toAside.trans h'.toAside, h'.place.trans h.place⟩

theorem Aside.ne_nil (h : s.Aside t) (hs : s.scopes ≠ []) : t.scopes ≠ [] := h.scopes ▸ hs

end Session

theorem still_emit (op : Op) : Obeys Session.Still (Gen.emit op) :=
  .emit .refl (fun _ _ _ _ _ => ⟨⟨rfl, rfl⟩, rfl⟩) fun _ _ _ _ _ => ⟨⟨rfl, rfl⟩, rfl⟩

theorem still_print (line : String) : Obeys Session.Still (Gen.print line) :=
  fun _ => ⟨⟨rfl, rfl⟩, rfl⟩

theorem still : ClosedEmits (Obeys Session.Still) where
  pure := .pure .refl
  throw _ := .throw .refl _
  bind := .bind fun _ _ _ => .trans
  get hf _ := .get hf
  print _ := still_print _
  record _ _ := ⟨⟨rfl, rfl⟩, rfl⟩
  countUp _ := ⟨⟨rfl, rfl⟩, rfl⟩
  emit _ := still_emit _
  terminate _ := still_emit _
  addConstant _ := .addItem .refl fun _ _ => ⟨⟨rfl, rfl⟩, rfl⟩

/-- The computation ends with `Q`, or it fails and leaves a scope to go on in. -/
def Ends {α : Type} (g : Gen α) (s : Session) (Q : α → Session → Prop) : Prop :=
  Leads g s Q fun _ t => t.scopes ≠ []

namespace Ends

variable {α β : Type} {g : Gen α} {s : Session} {Q R : α → Session → Prop}

theorem bind {f : α → Gen β} {R : β → Session → Prop} (h : Ends g s Q)
    (hf : ∀ a t, Q a t → Ends (f a) t R) : Ends (g >>= f) s R := Leads.bind h hf

theorem get {f : Session → Gen β} {R : β → Session → Prop} (h : Ends (f s) s R) :
    Ends (MonadState.get >>= f) s R := h

theorem mono (h : Ends g s Q) (hQR : ∀ a t, Q a t → R a t) : Ends g s R := Leads.mono h hQR

theorem still (hg : Obeys Session.Still g) (hs : s.scopes ≠ []) : Ends g s fun _ t => s.Still t :=
  .of_run (fun _ _ hrun => hg.of_run hrun) fun _ _ hrun => (hg.of_run hrun).ne_nil hs

theorem aside (hg : Obeys Session.Aside g) (hs : s.scopes ≠ []) : Ends g s fun _ t => s.Aside t :=
  .of_run (fun _ _ hrun => hg.of_run hrun) fun _ _ hrun => (hg.of_run hrun).ne_nil hs

theorem and_obeys {R : Session → Session → Prop} (h : Ends g s Q) (hg : Obeys R g) :
    Ends g s fun a t => Q a t ∧ R s t :=
  .of_run (fun _ _ hrun => ⟨h.ok hrun, hg.of_run hrun⟩) fun _ _ hrun => h.error hrun

theorem ne_nil (h : Ends g s Q) (hQ : ∀ a t, Q a t → t.scopes ≠ []) : (g.run s).2.scopes ≠ [] := by
  cases hrun : g.run s with
  | mk r t =>
    cases r with
    | error f => exact h.error hrun
    | ok a => exact hQ a t (h.ok hrun)

end Ends

/-- What is there stays there, under its name. -/
def Code.Assembly.Retains (a b : Assembly) : Prop := a.Grows b ∧ a.KeepsConstants b

theorem Code.Assembly.Retains.steps : AssemblySteps Assembly.Retains where
  refl a := ⟨Assembly.Grows.steps.refl a, Assembly.KeepsConstants.steps.refl a⟩
  trans h h' := ⟨Assembly.Grows.steps.trans h.1 h'.1, Assembly.KeepsConstants.steps.trans h.2 h'.2⟩
  takeName hr := ⟨Assembly.Grows.steps.takeName hr, Assembly.KeepsConstants.steps.takeName hr⟩
  withInstr hr := ⟨Assembly.Grows.steps.withInstr hr, Assembly.KeepsConstants.steps.withInstr hr⟩
  withBlock hr := ⟨Assembly.Grows.steps.withBlock hr, Assembly.KeepsConstants.steps.withBlock hr⟩
  add hi hblocks := ⟨Assembly.Grows.steps.add hi hblocks, Assembly.KeepsConstants.steps.add hi
    hblocks⟩

theorem Code.Assembly.Retains.item?_none {a b : Assembly} (h : a.Retains b) {n : String}
    (hn : b.item? n = none) : a.item? n = none := by
  cases hi : a.item? n with
  | none => rfl
  | some i =>
    cases i with
    | constant c => rw [h.2 n c hi] at hn; cases hn
    | routine r =>
      obtain ⟨r', hr', -⟩ := h.1 n r (Assembly.routine?_eq_some.mpr hi)
      rw [Assembly.routine?_eq_some.mp hr'] at hn
      cases hn

/-- The binding of a routine: itself and the type that it gives. -/
def Binding.OfRoutine (a : Assembly) (name : String) (b : Binding) : Prop :=
  ∃ r, a.routine? name = some r ∧ b = ⟨r.operand, r.result⟩

theorem Binding.OfRoutine.retains {a a' : Assembly} {b : Binding} (h : b.OfRoutine a name)
    (haa' : a.Retains a') : b.OfRoutine a' name := by
  obtain ⟨r, hr, rfl⟩ := h
  obtain ⟨r', hr', hgrow⟩ := haa'.1 name r hr
  refine ⟨r', hr', ?_⟩
  rw [Routine.operand, Routine.operand, Routine.ty, Routine.ty, Assembly.routine?_name hr,
    Assembly.routine?_name hr', hgrow.result, hgrow.params, hgrow.variadic]

namespace Session

variable {s t u : Session} {e : Edition} {files : Files} {node : Node} {vs : List Visit}

/-- Outside of all routines nothing happens but that new routines are defined. -/
structure Declares (fs : List (String × Binding)) (s t : Session) : Prop where
  place : t.place = none
  scopes : t.scopes = fs.foldl (fun c f => c.define (.text f.1) f.2) s.scopes
  routines : ∀ f ∈ fs, f.2.OfRoutine t.assembly f.1
  new : ∀ f ∈ fs, s.assembly.item? f.1 = none
  distinct : (fs.map Prod.fst).Nodup

theorem Declares.nil (h : s.Still t) (hs : s.place = none) : Declares [] s t :=
  ⟨h.place.trans hs, h.scopes, by simp, by simp, by simp⟩

theorem Declares.append {fs gs : List (String × Binding)} (h : Declares fs s t)
    (h' : Declares gs t u)
    (hst : s.assembly.Retains t.assembly) (htu : t.assembly.Retains u.assembly) :
    Declares (fs ++ gs) s u where
  place := h'.place
  scopes := by rw [h'.scopes, h.scopes, List.foldl_append]
  routines := by
    intro f hf
    rcases List.mem_append.mp hf with hf | hf
    · exact (h.routines f hf).retains htu
    · exact h'.routines f hf
  new := by
    intro f hf
    rcases List.mem_append.mp hf with hf | hf
    · exact h.new f hf
    · exact hst.item?_none (h'.new f hf)
  distinct := by
    rw [List.map_append, List.nodup_append]
    refine ⟨h.distinct, h'.distinct, fun n hn m hm heq => ?_⟩
    obtain ⟨f, hf, rfl⟩ := List.mem_map.mp hn
    obtain ⟨g, hg, rfl⟩ := List.mem_map.mp hm
    obtain ⟨r, hr, -⟩ := h.routines f hf
    have hnew := h'.new g hg
    rw [← heq, Assembly.routine?_eq_some.mp hr] at hnew
    cases hnew

theorem Declares.importing {fs : List (String × Binding)} (h : Declares fs t u) (hst : s.Still t)
    (hk : s.assembly.Retains t.assembly) (paths : List String) :
    Declares fs s { u with pallets := paths } where
  place := h.place
  scopes := hst.scopes ▸ h.scopes
  routines := h.routines
  new f hf := hk.item?_none (h.new f hf)
  distinct := h.distinct

/-- The way of a node through the loops and routines that it shows. -/
structure Travels (e : Edition) (files : Files) (node : Node) (vs : List Visit) (s t : Session) :
    Prop where
  visits : Visits e files s.pallets node vs t.pallets
  gains : s.scopes.Gains (vs.count .loop) t.scopes

def Completes (e : Edition) (files : Files) (node : Node) (s t : Session) : Prop :=
  ∃ vs, Travels e files node vs s t ∧
    (s.place = none → ∃ fs : List (String × Binding), vs = fs.map (fun f => .routine f.1) ∧
      Declares fs s t)

theorem Travels.aside (h : Travels e files node vs t u) (hst : s.Aside t) {v : Session}
    (huv : u.Aside v) : Travels e files node vs s v := by
  constructor
  · rw [← hst.pallets, huv.pallets]
    exact h.visits
  · rw [← hst.scopes, huv.scopes]
    exact h.gains

theorem Completes.simple (hvisits : Visits e files s.pallets node [] s.pallets) (hs : s.scopes ≠ [])
    (h : s.Still t) : s.Completes e files node t := by
  refine ⟨[], ⟨?_, ?_⟩, fun hp => ⟨[], rfl, .nil h hp⟩⟩
  · rw [h.pallets]
    exact hvisits
  · rw [h.scopes]
    exact .refl hs

theorem Completes.inside (h : Travels e files node vs s t) (hs : s.place ≠ none) :
    s.Completes e files node t := ⟨vs, h, fun hp => absurd hp hs⟩

theorem Completes.cons {st : Stmt} {ss : List Stmt} (h : s.Completes e files (.stmt st) t)
    (h' : t.Completes e files (.block ss) u) (hst : s.assembly.Retains t.assembly)
    (htu : t.assembly.Retains u.assembly) : s.Completes e files (.block (st :: ss)) u := by
  obtain ⟨vs, htravels, houtside⟩ := h
  obtain ⟨ws, htravels', houtside'⟩ := h'
  refine ⟨vs ++ ws, ⟨.cons htravels.visits htravels'.visits, ?_⟩, fun hp => ?_⟩
  · rw [List.count_append]
    exact htravels.gains.trans htravels'.gains
  · obtain ⟨fs, hfs, hdeclares⟩ := houtside hp
    obtain ⟨gs, hgs, hdeclares'⟩ := houtside' hdeclares.place
    exact ⟨fs ++ gs, by rw [hfs, hgs, List.map_append], hdeclares.append hdeclares' hst htu⟩

theorem Completes.ne_nil (h : s.Completes e files node t) : t.scopes ≠ [] := by
  obtain ⟨vs, htravels, -⟩ := h
  exact htravels.gains.ne_nil

end Session

/-- The code for a node completes, from wherever there is a scope. -/
def Completing (e : Edition) (files : Files) (node : Node) (g : Gen Unit) : Prop :=
  ∀ s : Session, s.scopes ≠ [] → Ends g s fun _ t => s.Completes e files node t

section Blocks

variable {s : Session}

theorem emit_ends (op : Op) (hs : s.scopes ≠ []) : Ends (Gen.emit op) s fun _ t => s.Still t ∧
    s.place ≠ none := by
  by_cases hp : s.place = none
  · rw [Ends, Leads, Gen.run_emit_nowhere hp]
    exact hs
  · exact (Ends.still (still_emit op) hs).mono fun _ _ ht => ⟨ht, hp⟩

theorem branchPlace_ends (hs : s.scopes ≠ []) :
    Ends Gen.branchPlace s fun _ t => s.Still t ∧ s.place ≠ none := by
  refine .get ?_
  cases hp : s.place with
  | none => exact hs
  | some p => exact ⟨.refl s, by simp⟩

theorem addBlockTo_aside (n name : String) : Obeys Session.Aside (Gen.addBlockTo n name) := by
  intro s
  cases hr : s.assembly.routine? n with
  | none =>
    rw [Gen.run_addBlockTo_unknown hr]
    exact .refl s
  | some r =>
    rw [Gen.run_addBlockTo hr]
    exact ⟨rfl, rfl⟩

theorem addBlock_ends (name : String) (hs : s.scopes ≠ []) :
    Ends (Gen.addBlock name) s fun _ t => s.Aside t ∧ s.place ≠ none := by
  refine .get ?_
  cases hp : s.place with
  | none => exact hs
  | some p => exact (Ends.aside (addBlockTo_aside _ _) hs).mono fun _ _ ht => ⟨ht, by simp⟩

theorem moveTo_aside (p : Option Place) : Obeys Session.Aside (Gen.moveTo p) := fun _ => ⟨rfl, rfl⟩

theorem moveToStart_aside (q : Place) : Obeys Session.Aside (Gen.moveToStart q) := by
  intro s
  rw [Gen.run_moveToStart]
  split_ifs
  · exact ⟨rfl, rfl⟩
  · exact .refl s

theorem changeLoops_aside (f : Loops → Loops) :
    Obeys Session.Aside (modify fun s => { s with loops := f s.loops } : Gen Unit) :=
    fun _ => ⟨rfl, rfl⟩

theorem aside_bind {α β : Type} {x : Gen α} {f : α → Gen β} (hx : Obeys Session.Aside x)
    (hf : ∀ a, Obeys Session.Aside (f a)) : Obeys Session.Aside (x >>= f) :=
  .bind (fun _ _ _ => .trans) hx hf

theorem Obeys.aside {α : Type} {g : Gen α} (hg : Obeys Session.Still g) : Obeys Session.Aside g :=
  fun s => (hg s).toAside

theorem addBlock_aside (name : String) : Obeys Session.Aside (Gen.addBlock name) := by
  refine .get fun s => ?_
  cases s.place with
  | none => exact .throw .refl _
  | some p => exact addBlockTo_aside _ _

end Blocks

section Statements

variable {e : Edition} {files : Files} {importer : String →
  Gen Unit} {c : Expr} {body alternative : List Stmt}

theorem Completing.travels {node : Node} {g : Gen Unit} (hg : Completing e files node g)
    (hs : s.scopes ≠ []) : Ends g s fun _ t => ∃ vs, s.Travels e files node vs t := by
  refine (hg s hs).mono ?_
  rintro _ t ⟨vs, h, -⟩
  exact ⟨vs, h⟩

section Openings

variable {s : Session} {c : Expr}

/-- A conditional can be begun in a routine only. -/
theorem branching_ends {α : Type} {k : Typed → Place → Gen α} (hs : s.scopes ≠ [])
    (hk : ∀ x p, Obeys Session.Aside (k x p)) : Ends (do
      let test ← Gen.value e c
      let p ← Gen.branchPlace
      k test p) s fun _ t => s.Aside t ∧ s.place ≠ none := by
  refine (Ends.still (still.value e c) hs).bind fun test s₁ h₁ => ?_
  refine (branchPlace_ends (h₁.ne_nil hs)).bind ?_
  rintro p s₂ ⟨h₂, hplace⟩
  have h₂ := h₁.trans h₂
  exact (Ends.aside (hk test p) (h₂.ne_nil hs)).mono fun _ t ht =>
    ⟨h₂.toAside.trans ht, h₁.place ▸ hplace⟩

theorem openThen_ends (hs : s.scopes ≠ []) :
    Ends (Gen.openThen e c) s fun _ t => s.Aside t ∧ s.place ≠ none :=
  branching_ends hs fun _ _ => aside_bind (addBlock_aside _) fun _ =>
      aside_bind (addBlock_aside _) fun _ =>
    aside_bind (still.branchOn _ _ _).aside fun _ => aside_bind (moveTo_aside _) fun _ =>
      .pure .refl _

theorem openElse_ends (hs : s.scopes ≠ []) :
    Ends (Gen.openElse e c) s fun _ t => s.Aside t ∧ s.place ≠ none :=
  branching_ends hs fun _ _ => aside_bind (addBlock_aside _) fun _ =>
      aside_bind (addBlock_aside _) fun _ =>
    aside_bind (addBlock_aside _) fun _ => aside_bind (still.branchOn _ _ _).aside fun _ =>
      aside_bind (moveTo_aside _) fun _ => .pure .refl _

theorem closeArm_aside (after next : Place) : Obeys Session.Aside (Gen.closeArm after next) :=
  aside_bind (still.closeWith after).aside fun _ => moveTo_aside _

/-- And so can a loop. -/
theorem looping_ends {α : Type} {k : Place → Gen α} (hs : s.scopes ≠ [])
    (hk : ∀ q, Obeys Session.Aside (k q)) :
    Ends (Gen.addBlock name >>= k) s fun _ t => s.Aside t ∧ s.place ≠ none := by
  refine (addBlock_ends name hs).bind ?_
  rintro q s₁ ⟨h₁, hplace⟩
  exact (Ends.aside (hk q) (h₁.ne_nil hs)).mono fun _ t ht => ⟨h₁.trans ht, hplace⟩

theorem openWhile_ends (hs : s.scopes ≠ []) :
    Ends (Gen.openWhile e c) s fun _ t => s.Aside t ∧ s.place ≠ none := by
  refine (Ends.still (still.value e c) hs).bind fun test s₁ h₁ => ?_
  refine (Ends.still still.countUp (h₁.ne_nil hs)).bind fun n s₂ h₂ => ?_
  have h₂ := h₁.trans h₂
  refine (looping_ends (h₂.ne_nil hs) fun _ => aside_bind (addBlock_aside _) fun _ =>
    aside_bind (still.branchOn _ _ _).aside fun _ => aside_bind (moveToStart_aside _) fun _ =>
      .pure .refl _).mono ?_
  rintro _ t ⟨ht, hplace⟩
  exact ⟨h₂.toAside.trans ht, h₂.place ▸ hplace⟩

theorem closeWhile_aside (l : LoopBlocks) : Obeys Session.Aside (Gen.closeWhile e c l) :=
  aside_bind (still.value e c).aside fun _ => aside_bind (still.branchOn _ _ _).aside fun _ =>
    moveToStart_aside _

theorem startFor_ends (hs : s.scopes ≠ []) :
    Ends Gen.startFor s fun _ t => s.Aside t ∧ s.place ≠ none := by
  refine (Ends.still still.countUp hs).bind fun n s₁ h₁ => ?_
  refine (looping_ends (h₁.ne_nil hs) fun entry => aside_bind (addBlock_aside _) fun exit =>
    aside_bind (changeLoops_aside fun l => l.enter entry exit) fun _ =>
        aside_bind (still.branch _).aside fun _ =>
      aside_bind (moveToStart_aside _) fun _ => .pure .refl _).mono ?_
  rintro _ t ⟨ht, hplace⟩
  exact ⟨h₁.toAside.trans ht, h₁.place ▸ hplace⟩

theorem closeFor_aside (l : LoopBlocks) : Obeys Session.Aside (Gen.closeFor e c l) :=
  aside_bind (closeWhile_aside l) fun _ => changeLoops_aside Loops.leave

end Openings

theorem ifThen_completing (hbody : Completing e files (.block body)
    (Gen.statements e importer body)) :
    Completing e files (.expr (.ifThen c body)) (Gen.effect e importer (.ifThen c body)) := by
  intro s hs
  rw [Gen.effect_ifThen]
  refine (openThen_ends hs).bind ?_
  rintro after s₁ ⟨h₁, hplace⟩
  refine (hbody.travels (h₁.ne_nil hs)).bind ?_
  rintro _ s₂ ⟨vs, h₂⟩
  refine (Ends.aside (closeArm_aside after after) h₂.gains.ne_nil).mono fun _ s₃ h₃ => ?_
  have hbody := h₂.aside h₁ h₃
  exact .inside ⟨.ifThen hbody.visits, hbody.gains⟩ hplace

theorem Session.Travels.ifElse {s t u : Session} {vs ws : List Visit}
    (h : s.Travels e files (.block body) vs t) (h' : t.Travels e files (.block alternative) ws u) :
    s.Travels e files (.expr (.ifElse c body alternative)) (vs ++ ws) u := by
  refine ⟨.ifElse h.visits h'.visits, ?_⟩
  rw [List.count_append]
  exact h.gains.trans h'.gains

theorem ifElse_completing (hbody : Completing e files (.block body)
    (Gen.statements e importer body))
    (halternative : Completing e files (.block alternative)
      (Gen.statements e importer alternative)) :
    Completing e files (.expr (.ifElse c body alternative))
      (Gen.effect e importer (.ifElse c body alternative)) := by
  intro s hs
  rw [Gen.effect_ifElse]
  refine (openElse_ends hs).bind ?_
  rintro l s₁ ⟨h₁, hplace⟩
  refine (hbody.travels (h₁.ne_nil hs)).bind ?_
  rintro _ s₂ ⟨vs, h₂⟩
  refine (Ends.aside (closeArm_aside l.2 l.1) h₂.gains.ne_nil).bind fun _ s₃ h₃ => ?_
  have hbody := h₂.aside h₁ h₃
  refine (halternative.travels hbody.gains.ne_nil).bind ?_
  rintro _ s₄ ⟨ws, h₄⟩
  refine (Ends.aside (closeArm_aside l.2 l.2) h₄.gains.ne_nil).mono fun _ s₅ h₅ => ?_
  exact .inside (hbody.ifElse (h₄.aside (.refl _) h₅)) hplace

theorem whileLoop_completing (hbody : Completing e files (.block body)
    (Gen.statements e importer body)) :
    Completing e files (.stmt (.whileLoop c body))
      (Gen.statement e importer (.whileLoop c body)) := by
  intro s hs
  rw [Gen.statement_whileLoop]
  refine (openWhile_ends hs).bind ?_
  rintro l s₁ ⟨h₁, hplace⟩
  refine (hbody.travels (h₁.ne_nil hs)).bind ?_
  rintro _ s₂ ⟨vs, h₂⟩
  refine (Ends.aside (closeWhile_aside l) h₂.gains.ne_nil).mono fun _ s₃ h₃ => ?_
  have hbody := h₂.aside h₁ h₃
  exact .inside ⟨.whileLoop hbody.visits, hbody.gains⟩ hplace

theorem Session.Travels.forLoop {s t u v : Session} {us vs ws : List Visit} {init next : Stmt}
    (hs : s.scopes ≠ [])
    (hinit : Travels e files (.stmt init) us { s with scopes := s.scopes.enter } t)
    (hbody : t.Travels e files (.block body) vs u) (hnext : u.Travels e files (.stmt next) ws v) :
    s.Travels e files (.stmt (.forLoop init c next body)) (.loop :: (us ++ vs ++ ws)) v := by
  refine ⟨.forLoop hinit.visits hbody.visits hnext.visits, ?_⟩
  have hgains := (Chain.Gains.enter hs).trans ((hinit.gains.trans hbody.gains).trans hnext.gains)
  rw [List.count_cons_self, List.count_append, List.count_append, Nat.add_comm]
  exact hgains

theorem forLoop_completing {init next : Stmt}
    (hinit : Completing e files (.stmt init) (Gen.statement e importer init))
    (hbody : Completing e files (.block body) (Gen.statements e importer body))
    (hnext : Completing e files (.stmt next) (Gen.statement e importer next)) :
    Completing e files (.stmt (.forLoop init c next body))
      (Gen.statement e importer (.forLoop init c next body)) := by
  intro s hs
  rw [Gen.statement_forLoop]
  simp only [Gen.openFor, bind_assoc]
  have henter : Ends Gen.enterScope s fun _ t => t = { s with scopes := s.scopes.enter } := rfl
  refine henter.bind ?_
  rintro _ s₁ rfl
  refine (hinit _ (by simp [Chain.enter])).bind ?_
  rintro _ s₂ ⟨us, h₂, houtside⟩
  refine (startFor_ends h₂.gains.ne_nil).bind ?_
  rintro l s₃ ⟨h₃, hplace₂⟩
  have hplace : s.place ≠ none := by
    intro hp
    obtain ⟨fs, -, hdeclares⟩ := houtside hp
    exact hplace₂ hdeclares.place
  have h₃ := h₂.aside (.refl _) h₃
  refine (hbody.travels h₃.gains.ne_nil).bind ?_
  rintro _ s₄ ⟨vs, h₄⟩
  refine (hnext.travels h₄.gains.ne_nil).bind ?_
  rintro _ s₅ ⟨ws, h₅⟩
  refine (Ends.aside (closeFor_aside l) h₅.gains.ne_nil).mono fun _ s₆ h₆ => ?_
  exact .inside (h₃.forLoop hs h₄ (h₅.aside (.refl _) h₆)) hplace

theorem store_ends (hs : s.scopes ≠ []) (x : Option Operand) (pointer : Operand) :
    Ends (Gen.store x pointer) s fun _ t => s.Still t ∧ s.place ≠ none := by
  rw [Gen.store]
  split
  · refine (Ends.still (still.need x) hs).bind fun v s₁ h₁ => ?_
    split
    · refine (emit_ends _ (h₁.ne_nil hs)).bind ?_
      rintro _ s₂ ⟨h₂, hp⟩
      exact ⟨h₁.trans h₂, h₁.place ▸ hp⟩
    · exact h₁.ne_nil hs
  · exact (Ends.still (still.describe _) hs).bind fun _ s₁ h₁ => h₁.ne_nil hs

theorem letVar_ends (hs : s.scopes ≠ []) (name : String) (x : Typed) :
    Ends (Gen.letVar e name x) s fun _ t =>
      s.place ≠ none ∧ t.pallets = s.pallets ∧ s.scopes.Gains 0 t.scopes := by
  refine (Ends.still (still.lookup _) hs).bind fun b s₁ h₁ => ?_
  have hs₁ := h₁.ne_nil hs
  cases b with
  | some b =>
    refine (store_ends hs₁ _ _).mono ?_
    rintro _ s₂ ⟨h₂, hp⟩
    have h₂ := h₁.trans h₂
    refine ⟨h₁.place ▸ hp, h₂.pallets, ?_⟩
    rw [h₂.scopes]
    exact .refl hs
  | none =>
    refine (Ends.still (still.alloca _) hs₁).bind fun slot s₂ h₂ => ?_
    refine (store_ends (h₂.ne_nil hs₁) _ _).bind ?_
    rintro _ s₃ ⟨h₃, hp⟩
    have h₂ := h₁.trans h₂
    have h₃ := h₂.trans h₃
    refine ⟨h₂.place ▸ hp, h₃.pallets, ?_⟩
    dsimp only
    rw [h₃.scopes]
    exact .define hs _ _

theorem letVar_completing (name type : String) (x : Expr) :
    Completing e files (.stmt (.letVar name x type))
      (Gen.statement e importer (.letVar name x type)) := by
  intro s hs
  rw [Gen.statement]
  refine (Ends.still (still.value e x) hs).bind fun v s₁ h₁ => ?_
  refine (letVar_ends (h₁.ne_nil hs) name v).mono ?_
  rintro _ s₂ ⟨hp, hpallets, hgains⟩
  have hvisits : Visits e files s.pallets (.stmt (.letVar name x type)) [] s₂.pallets := by
    rw [hpallets, h₁.pallets]
    exact .simpleStmt rfl
  exact .inside ⟨hvisits, h₁.scopes ▸ hgains⟩ (h₁.place ▸ hp)

theorem run_defineParams (ps : List (Literal × Operand × Ty)) (s : Session) :
    (Gen.defineParams ps).run s =
      (.ok (), { s with
        scopes := ps.foldl (fun c p => c.define p.1 ⟨p.2.1, p.2.2⟩) s.scopes }) := by
  induction ps generalizing s with
  | nil => rfl
  | cons p ps ih =>
    rw [Gen.defineParams, Gen.run_bind]
    exact ih _

theorem Chain.foldl_define {β γ : Type} (name : γ → Literal) (b : γ →
    β) (ps : List γ) (table : Table β)
    (parents : Chain β) : ∃ table', ps.foldl (fun c p => Chain.define c (name p) (b p))
      (table :: parents) = table' :: parents := by
  induction ps generalizing table with
  | nil => exact ⟨table, rfl⟩
  | cons p ps ih => exact ih _

theorem typeNamed_ends (hs : s.scopes ≠ []) (l : Literal) :
    Ends (Gen.typeNamed e l) s fun ty t => e.type? l = some ty ∧ t = s := by
  rw [Gen.typeNamed]
  split
  · rename_i ty hty
    exact ⟨hty, rfl⟩
  · exact hs

theorem addRoutine_ends (hs : s.scopes ≠ []) (r : Routine) :
    Ends (Gen.addItem (.routine r)) s fun _ t =>
      s.Still t ∧ s.assembly.item? r.name = none ∧ t.assembly.routine? r.name = some r := by
  cases hi : s.assembly.item? (Item.routine r).name with
  | some j =>
    rw [Ends, Leads, Gen.run_addItem_taken hi]
    exact hs
  | none =>
    rw [Ends, Leads, Gen.run_addItem hi]
    exact ⟨⟨⟨rfl, rfl⟩, rfl⟩, hi, Assembly.routine?_add_self hi⟩

theorem openRoutine_ends (hs : s.scopes ≠ []) (name : String) (params : List Param)
    (type : Literal) : Ends (Gen.openRoutine e name params type) s fun b t =>
      (∃ table, t.scopes = table :: s.scopes) ∧ t.pallets = s.pallets ∧
        s.assembly.item? name = none ∧ e.type? type = some b.ty ∧ b.OfRoutine t.assembly name := by
  have hkeeps := Assembly.Retains.steps.closed
  refine (Ends.still (still.typesNamed e _) hs |>.and_obeys (hkeeps.typesNamed e _)).bind ?_
  rintro types s₁ ⟨h₁, hk₁⟩
  refine (typeNamed_ends (h₁.ne_nil hs) type).bind ?_
  rintro result _ ⟨hresult, rfl⟩
  refine (addRoutine_ends (h₁.ne_nil hs) _).bind ?_
  rintro _ s₃ ⟨h₃, hnew, hr⟩
  have h₃ := h₁.toAside.trans h₃.toAside
  refine (Ends.aside (addBlockTo_aside _ _) (h₃.ne_nil hs) |>.and_obeys
    (hkeeps.addBlockTo _ _)).bind ?_
  rintro entry s₄ ⟨h₄, hk₄⟩
  have h₄ := h₃.trans h₄
  have hstart : Ends (Gen.startBuilder entry) s₄ fun _ t => s₄.Aside t ∧ t.assembly = s₄.assembly :=
    ⟨⟨rfl, rfl⟩, rfl⟩
  refine hstart.bind ?_
  rintro _ s₅ ⟨h₅, ha₅⟩
  have h₅ := h₄.trans h₅
  refine (Ends.still (still.slots _) (h₅.ne_nil hs) |>.and_obeys (hkeeps.slots _)).bind ?_
  rintro ptrs s₆ ⟨h₆, hk₆⟩
  have h₆ := h₅.trans h₆.toAside
  let b : Binding := ⟨(Routine.declare name result types false).operand, result⟩
  have hb : b.OfRoutine s₆.assembly name :=
    Binding.OfRoutine.retains ⟨_, hr, rfl⟩ (Assembly.Retains.steps.trans hk₄ (ha₅ ▸ hk₆))
  rw [Ends, Leads, Gen.run_bind, Gen.enterScope, Gen.run_modify]
  dsimp only
  rw [Gen.run_bind, run_defineParams]
  dsimp only
  obtain ⟨table, htable⟩ := Chain.foldl_define (Prod.fst (α := Literal) (β := Operand × Ty))
    (fun p => (⟨p.2.1, p.2.2⟩ : Binding)) ((params.map Param.name).zip (ptrs.zip types)) [] s.scopes
  refine ⟨⟨table.define (.text name) b, ?_⟩, h₆.pallets, hk₁.item?_none hnew, hresult, hb⟩
  dsimp only
  rw [h₆.scopes, Chain.enter, htable, Chain.define]

/-- Whatever its body does, a routine changes nothing in the scopes around it but its own name. -/
theorem fn_ends
    (hgrows : ∀ path, Obeys (fun s t => s.assembly.Retains t.assembly) (importer path))
    (hs : s.scopes ≠ []) {params : List Param} {type : Literal}
    (hbody : Completing e files (.block body) (Gen.statements e importer body)) :
    Ends (Gen.statement e importer (.fn name (some params) type body)) s fun _ t =>
      ∃ b vs, t.scopes = s.scopes.define (.text name) b ∧
        Visits e files s.pallets (.block body) vs t.pallets ∧
        t.place = s.place ∧ s.assembly.item? name = none ∧ e.type? type = some b.ty ∧
        b.OfRoutine t.assembly name := by
  rw [Gen.statement]
  refine .get (.get (.get ?_))
  refine (openRoutine_ends hs name params type).bind ?_
  rintro b s₁ ⟨⟨table, hscopes₁⟩, hpallets₁, hnew, htype, hb⟩
  have hkeeps := Assembly.Retains.steps.closed.statements (e := e) body fun path _ => hgrows path
  refine ((hbody.travels (by simp [hscopes₁])).and_obeys hkeeps).bind ?_
  rintro _ s₂ ⟨⟨vs, h₂⟩, hk₂⟩
  have hsuffix : s.scopes <:+ s₂.scopes := by
    have hgains := h₂.gains
    rw [hscopes₁] at hgains
    exact hgains.suffix
  refine ⟨b, vs, ?_, hpallets₁ ▸ h₂.visits, rfl, hnew, htype, hb.retains hk₂⟩
  dsimp only
  rw [Chain.leaveTo_suffix hsuffix]

theorem fn_completing
    (hgrows : ∀ path, Obeys (fun s t => s.assembly.Retains t.assembly) (importer path))
    {params : List Param} {type : Literal}
    (hbody : Completing e files (.block body) (Gen.statements e importer body)) :
    Completing e files (.stmt (.fn name (some params) type body))
      (Gen.statement e importer (.fn name (some params) type body)) := by
  intro s hs
  refine (fn_ends hgrows hs hbody).mono ?_
  rintro _ t ⟨b, vs, hscopes, hvisits, hplace, hnew, -, hb⟩
  refine ⟨[.routine name], ⟨.fn hvisits, hscopes ▸ .define hs _ _⟩, fun hp =>
    ⟨[(name, b)], rfl, ?_⟩⟩
  exact ⟨hplace.trans hp, hscopes, by simpa using hb, by simpa using hnew, by simp⟩

mutual

theorem effect_completing (hgrows : ∀ path, Obeys (fun s t => s.assembly.Retains t.assembly)
    (importer path))
    (himport : ∀ path, Completing e files (.stmt (.importPallet path)) (importer path)) :
    ∀ x : Expr, Completing e files (.expr x) (Gen.effect e importer x)
  | .missing => by
    intro s hs
    rw [Gen.effect]
    exact hs
  | .int _ | .float _ | .ident _ | .bool _ | .str _ | .prefixed .. => by
    intro s hs
    rw [Gen.effect]
    exact .simple (.simpleExpr rfl) hs (.refl s)
  | .infixed .. | .call .. | .openCall _ => by
    intro s hs
    rw [Gen.effect]
    exact (Ends.still (still.value _ _) hs).bind fun _ t h => .simple (.simpleExpr rfl) hs h
  | .stepped .. => by
    intro s hs
    rw [Gen.effect]
    exact (Ends.still (still.step _ _) hs).mono fun _ t h => .simple (.simpleExpr rfl) hs h
  | .ifThen c body => ifThen_completing (statements_completing hgrows himport body)
  | .ifElse c body alternative =>
    ifElse_completing (statements_completing hgrows himport body)
      (statements_completing hgrows himport alternative)

theorem statement_completing (hgrows : ∀ path, Obeys (fun s t => s.assembly.Retains t.assembly)
    (importer path))
    (himport : ∀ path, Completing e files (.stmt (.importPallet path)) (importer path)) :
    ∀ st : Stmt, Completing e files (.stmt st) (Gen.statement e importer st)
  | .missing => by
    intro s hs
    rw [Gen.statement]
    exact hs
  | .expr x => by
    intro s hs
    rw [Gen.statement]
    refine (effect_completing hgrows himport x s hs).mono ?_
    rintro _ t ⟨vs, h, houtside⟩
    exact ⟨vs, ⟨.expr h.visits, h.gains⟩, houtside⟩
  | .bare x => by
    intro s hs
    rw [Gen.statement]
    refine (effect_completing hgrows himport x s hs).mono ?_
    rintro _ t ⟨vs, h, houtside⟩
    exact ⟨vs, ⟨.bare h.visits, h.gains⟩, houtside⟩
  | .letVar name x type => letVar_completing name type x
  | .ret x => by
    intro s hs
    rw [Gen.statement]
    have hret := still.bind (still.value e x) fun v => still.ret v.value
    exact (Ends.still hret hs).mono fun _ t h => .simple (.simpleStmt rfl) hs h
  | .fn name none type body => by
    intro s hs
    rw [Gen.statement]
    exact hs
  | .fn name (some params) type body =>
      fn_completing hgrows (statements_completing hgrows himport body)
  | .assign target op x => by
    intro s hs
    exact (Ends.still (still.assignment e importer target op x) hs).mono fun _ t h =>
      .simple (.simpleStmt rfl) hs h
  | .whileLoop c body => whileLoop_completing (statements_completing hgrows himport body)
  | .breakLoop => by
    intro s hs
    rw [Gen.statement]
    refine .get ?_
    cases s.loops.breakpoints with
    | nil => exact hs
    | cons q qs =>
      exact (Ends.still (still.branch q) hs).mono fun _ t h => .simple (.simpleStmt rfl) hs h
  | .continueLoop => by
    intro s hs
    rw [Gen.statement]
    refine .get ?_
    cases s.loops.continues with
    | nil => exact hs
    | cons q qs =>
      exact (Ends.still (still.branch q) hs).mono fun _ t h => .simple (.simpleStmt rfl) hs h
  | .forLoop init c next body =>
    forLoop_completing (statement_completing hgrows himport init)
      (statements_completing hgrows himport body) (statement_completing hgrows himport next)
  | .importPallet path => by
    rw [Gen.statement]
    exact himport path

theorem statements_completing (hgrows : ∀ path, Obeys (fun s t => s.assembly.Retains t.assembly)
    (importer path))
    (himport : ∀ path, Completing e files (.stmt (.importPallet path)) (importer path)) :
    ∀ ss : List Stmt, Completing e files (.block ss) (Gen.statements e importer ss)
  | [] => by
    intro s hs
    rw [Gen.statements]
    exact .simple .nil hs (.refl s)
  | st :: ss => by
    intro s hs
    rw [Gen.statements]
    have hkeeps := Assembly.Retains.steps.closed.statement (e := e) st fun path _ => hgrows path
    refine ((statement_completing hgrows himport st s hs).and_obeys hkeeps).bind ?_
    rintro _ s₁ ⟨h₁, hk₁⟩
    have hkeeps' := Assembly.Retains.steps.closed.statements (e := e) ss fun path _ => hgrows path
    refine ((statements_completing hgrows himport ss s₁ h₁.ne_nil).and_obeys hkeeps').mono ?_
    rintro _ s₂ ⟨h₂, hk₂⟩
    exact h₁.cons h₂ hk₁ hk₂

end

end Statements

theorem Files.pallet?_eq {e : Edition} {files : Files} {path source : String} {parsed : Parsed}
    (hread : files.read (Files.normalize ("tests\\" ++ path).toList) = .ok source)
    (hscan : (Scan.ofSource e source).failure = none)
    (hparse : Parsed.ofLexemes e (Scan.ofSource e source).lexemes = parsed)
    (herrors : parsed.errors.isEmpty = true) : files.pallet? e path = some parsed.program := by
  rw [Files.pallet?, hread]
  dsimp only
  rw [hparse, if_pos ⟨hscan, List.isEmpty_iff.mp herrors⟩]

section Nodes

variable {e : Edition} (he : e.has .functions = true)

include he

theorem importer_completing (files : Files) (depth : Nat) (path : String) :
    Completing e files (.stmt (.importPallet path)) (Gen.importer e files depth path) := by
  induction depth generalizing path with
  | zero => exact fun s hs => hs
  | succ depth ih =>
    intro s hs
    rw [Gen.importer]
    refine .get ?_
    by_cases hknown : s.pallets.contains path = true
    · rw [if_pos hknown]
      refine (Ends.still (still_print _) hs).mono fun _ t h => .simple (.known ?_) hs h
      exact List.contains_iff_mem.mp hknown
    rw [if_neg hknown]
    have hnew : path ∉ s.pallets := fun hmem => hknown (List.contains_iff_mem.mpr hmem)
    cases hread : files.read (Files.normalize ("tests\\" ++ path).toList) with
    | error error => exact hs
    | ok source =>
      dsimp only
      have hkeeps := Assembly.Retains.steps.closed
      have hopen : Obeys Session.Still (modify fun s =>
          { s with opened := s.opened ++ [path] } : Gen Unit) :=
        fun _ => ⟨⟨rfl, rfl⟩, rfl⟩
      refine ((Ends.still hopen hs).and_obeys (hkeeps.openFile path)).bind ?_
      rintro _ s₀ ⟨h₀, hk₀⟩
      refine ((Ends.still (still.forM (fun _ => still_print _) _) (h₀.ne_nil hs)).and_obeys
        (hkeeps.forM (fun _ => hkeeps.announce _) _)).bind ?_
      rintro _ s₁ ⟨h₁, hk₁⟩
      replace h₁ := h₀.trans h₁
      replace hk₁ := Assembly.Retains.steps.trans hk₀ hk₁
      have hs₁ := h₁.ne_nil hs
      cases hscan : (Scan.ofSource e source).failure with
      | some failure => exact hs₁
      | none =>
        dsimp only
        generalize hparse : Parsed.ofLexemes e (Scan.ofSource e source).lexemes = parsed
        by_cases herrors : parsed.errors.isEmpty = true
        · have hpallet := Files.pallet?_eq hread hscan hparse herrors
          rw [if_pos herrors, Gen.program, if_pos he]
          refine (statements_completing (hkeeps.importer e files depth) ih _ s₁ hs₁).bind ?_
          rintro _ s₂ ⟨vs, h₂, houtside⟩
          have hfile := h₂.aside h₁.toAside (.refl s₂)
          refine ⟨vs, ⟨.pallet hnew hpallet hfile.visits, hfile.gains⟩, fun hp => ?_⟩
          obtain ⟨fs, hfs, hdeclares⟩ := houtside (h₁.place.trans hp)
          exact ⟨fs, hfs, hdeclares.importing h₁ hk₁ _⟩
        · rw [if_neg herrors]
          refine (Ends.still (still_print _) hs₁).bind fun _ s₂ h₂ => ?_
          refine (Ends.still (still.forM (fun _ => still_print _) _) (h₂.ne_nil hs₁)).bind
            fun _ s₃ h₃ => ?_
          exact (h₂.trans h₃).ne_nil hs₁

theorem node_completing (files : Files) (depth : Nat) (node : Node) :
    Completing e files node (Gen.node e (Gen.importer e files depth) node) := by
  have hgrows := Assembly.Retains.steps.closed.importer e files depth
  have himport := importer_completing he files depth
  cases node with
  | program p =>
    intro s hs
    rw [Gen.node, Gen.program, if_pos he]
    refine (statements_completing hgrows himport p s hs).mono ?_
    rintro _ t ⟨vs, h, houtside⟩
    exact ⟨vs, ⟨.program h.visits, h.gains⟩, houtside⟩
  | block body => exact statements_completing hgrows himport body
  | stmt st => exact statement_completing hgrows himport st
  | expr x => exact effect_completing hgrows himport x

theorem Reachable.scopes_ne_nil (h : Reachable e s) : s.scopes ≠ [] := by
  induction h with
  | start => simp [Session.start]
  | compile files depth node _ ih =>
    exact (node_completing he files depth node _ ih).ne_nil fun _ _ ht => ht.ne_nil

/-- A statement that compiles leaves the scopes that it found. But it leaves them under one more
scope for each `for` statement that was compiled outside of routines, imported files included, so
the current scope is the same as before just if there was none. The scopes further out stay as they
are, and the one that was current keeps its names and their order. -/
theorem statement_leaves_scopes {s : Session} (hs : Reachable e s) (files : Files) (depth : Nat)
    (st : Stmt) (hok : ((Gen.statement e (Gen.importer e files depth) st).run s).1 = .ok ()) :
    let t := ((Gen.statement e (Gen.importer e files depth) st).run s).2
    ∃ vs, (∀ ws done, Visits e files s.pallets (.stmt st) ws done ↔ ws = vs ∧ done = t.pallets) ∧
      ∃ (opened : Chain Binding) (scope scope' : Table Binding) (parents : Chain Binding),
        s.scopes = scope :: parents ∧ t.scopes = opened ++ scope' :: parents ∧
        opened.length = vs.count .loop ∧ scope.names <+: scope'.names ∧
        (t.scopes.tail = s.scopes.tail ↔ .loop ∉ vs) := by
  intro t
  have hrun : (Gen.node e (Gen.importer e files depth) (.stmt st)).run s = (.ok (), t) :=
    Prod.ext hok rfl
  clear_value t
  have hends := node_completing he files depth (.stmt st) s (hs.scopes_ne_nil he)
  obtain ⟨vs, ⟨hvisits, opened, scope, scope', parents, hs, ht, hopened, hnames⟩, -⟩ :=
    hends.ok hrun
  refine ⟨vs, fun ws done => ⟨hvisits.unique, ?_⟩, opened, scope, scope', parents, hs, ht, hopened,
    hnames, ?_⟩
  · rintro ⟨rfl, rfl⟩
    exact hvisits
  · rw [← List.count_eq_zero, ← hopened, hs, ht]
    cases opened with
    | nil => simp
    | cons t ts =>
      constructor
      · intro htail
        have hlength := congrArg List.length htail
        simp only [List.cons_append, List.tail_cons, List.length_append, List.length_cons]
          at hlength
        omega
      · intro hempty
        cases hempty

omit he

/-- The loop inside of the routine does not count, and the loop around the routine does. -/
theorem statement_leaves_scopes_nested :
    let start : Session := .start .latest
    let broken : Node := .stmt (.fn "main" (some []) (.text "int")
      [.letVar "x" (.int 1) "int", .missing])
    let s := ((Gen.node .latest (Gen.importer .latest ⟨[], []⟩ 1) broken).run start).2
    let loop := fun name body => Stmt.forLoop (.letVar name (.int 0) "int")
      (.infixed (.ident name) .lt (.int 9)) (.bare (.stepped (.ident name) .increment)) body
    let st := loop "i" [.fn "inner" (some []) (.text "int") [loop "k" [], .ret (.int 1)],
      loop "j" []]
    let t := ((Gen.statement .latest (Gen.importer .latest ⟨[], []⟩ 1) st).run s).2
    ∃ (opened : Chain Binding) (scope scope' : Table Binding) (parents : Chain Binding),
      s.scopes = scope :: parents ∧ t.scopes = opened ++ scope' :: parents ∧ opened.length = 2 ∧
      scope.names <+: scope'.names := by
  intro start broken s loop st t
  have hs : Reachable .latest s := .compile _ _ _ .start
  obtain ⟨vs, hvisits, opened, scope, scope', parents, hscopes, ht, hopened, hnames, -⟩ :=
    statement_leaves_scopes (by decide) hs ⟨[], []⟩ 1 st (by decide +kernel)
  have hloop : ∀ {name done vs body}, Visits .latest ⟨[], []⟩ done (.block body) vs done →
      Visits .latest ⟨[], []⟩ done (.stmt (loop name body)) (.loop :: ([] ++ vs ++ [])) done :=
    fun hbody => .forLoop (.simpleStmt rfl) hbody (.bare (.simpleExpr rfl))
  have hinner : Visits .latest ⟨[], []⟩ s.pallets (.block [loop "k" [], .ret (.int 1)]) [.loop]
      s.pallets :=
    .cons (hloop .nil) (.cons (.simpleStmt rfl) .nil)
  have hst : Visits .latest ⟨[], []⟩ s.pallets (.stmt st) [.loop, .routine "inner", .loop]
      s.pallets :=
    hloop (.cons (.fn hinner) (.cons (hloop .nil) .nil))
  obtain ⟨hvs, -⟩ := (hvisits _ _).mp hst
  refine ⟨opened, scope, scope', parents, hscopes, ht, ?_, hnames⟩
  rw [hopened, ← hvs]
  decide

/-- A statement need not give back the current scope: the one of a `for` statement stays open, and
its variable can be seen from behind it. -/
theorem for_scope_left_open :
    let start : Session := .start .latest
    let broken : Node := .stmt (.fn "main" (some []) (.text "int") [.missing])
    let s := ((Gen.node .latest (Gen.importer .latest ⟨[], []⟩ 1) broken).run start).2
    let st : Stmt := .forLoop (.letVar "i" (.int 0) "int") (.infixed (.ident "i") .lt (.int 3))
      (.bare (.stepped (.ident "i") .increment)) []
    let result := (Gen.statement .latest (Gen.importer .latest ⟨[], []⟩ 1) st).run s
    Reachable .latest s ∧ result.1 = .ok () ∧ s.scopes.length = 2 ∧ result.2.scopes.length = 3 ∧
      s.scopes.find? (.text "i") = none ∧ (result.2.scopes.find? (.text "i")).isSome = true := by
  intro start broken s st result
  exact ⟨.compile _ _ _ .start, by decide +kernel⟩

end Nodes

end LimeLang
