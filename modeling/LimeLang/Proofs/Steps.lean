import LimeLang.Proofs.Generation
import LimeLang.Proofs.StatementParts
import LimeLang.Tree.Imports

/-! Code generation is made of a few kinds of steps. What holds of each of them, of failing and of
going on, holds of the code for every node, imported files included. -/

namespace LimeLang

open Code

namespace Gen

variable {s : Session} {p q : Place}

theorem run_addItem {i : Item} (hfree : s.assembly.item? i.name = none) :
    (addItem i).run s = (.ok (), { s with assembly := s.assembly.add i }) := by
  rw [addItem, run_bind, run_get]
  simp only [hfree]
  rfl

theorem run_addItem_taken {i j : Item} (hi : s.assembly.item? i.name = some j) :
    (addItem i).run s = (.error (.duplicateName i.name), s) := by
  rw [addItem, run_bind, run_get]
  simp only [hi]
  rfl

theorem run_addBlockTo {n name : String} {r : Routine} (hr : s.assembly.routine? n = some r) :
    (addBlockTo n name).run s =
      (.ok ⟨n, (r.addBlock name).1⟩, { s with assembly := s.assembly.withBlock r name }) := by
  have hname : r.name = n := Assembly.routine?_name hr
  subst hname
  rw [addBlockTo, run_bind, run_get]
  simp only [hr]
  rfl

theorem run_addBlockTo_unknown {n name : String} (hr : s.assembly.routine? n = none) :
    (addBlockTo n name).run s = (.error .noBlockParent, s) := by
  rw [addBlockTo, run_bind, run_get]
  simp only [hr]
  rfl

theorem run_addBlock {name : String} {r : Routine} (hp : s.place = some p)
    (hr : s.assembly.routine? p.routine = some r) : (addBlock name).run s =
      (.ok ⟨p.routine, (r.addBlock name).1⟩,
        { s with assembly := s.assembly.withBlock r name }) := by
  rw [addBlock, run_bind, run_get]
  simp only [hp]
  rw [run_addBlockTo hr, hp]

theorem run_moveToStart (q : Place) (s : Session) : (moveToStart q).run s =
    if s.assembly.code? q = some [] then (.ok (), { s with place := some q })
    else (.error .blockInUse, s) := by
  have hempty : ((s.assembly.routine? q.routine).bind (·.block? q.block)).any
      (·.instrs.isEmpty) = true ↔ s.assembly.code? q = some [] := by
    rw [Assembly.code?]
    cases s.assembly.routine? q.routine with
    | none => simp
    | some r => cases hb : r.block? q.block <;> simp [hb]
  rw [moveToStart, run_bind, run_get]
  dsimp only
  by_cases h : s.assembly.code? q = some []
  · rw [if_pos h, if_pos (hempty.mpr h)]
    rfl
  · rw [if_neg h, if_neg (mt hempty.mp h)]
    rfl

theorem run_branchPlace (hp : s.place = some p) : branchPlace.run s = (.ok p, s) := by
  rw [branchPlace, run_bind, run_get]
  simp only [hp]
  rfl

theorem run_closeWith {is : List Instr} (hp : s.place = some p)
    (hcode : s.assembly.code? p = some is) : (closeWith q).run s =
      if is.any (·.op.isTerminator) = true then (.ok (), s) else (branch q).run s := by
  rw [closeWith, run_bind, run_get]
  simp only [hp]
  rw [run_bind, run_isTerminated, hcode, Option.any_some]
  cases is.any (·.op.isTerminator) with
  | true => rfl
  | false => rfl

end Gen

/-- What code can be generated for. -/
inductive Node
  | program (p : Program)
  | block (body : List Stmt)
  | stmt (st : Stmt)
  | expr (x : Expr)

def Gen.node (e : Edition) (importer : String → Gen Unit) : Node → Gen Unit
  | .program p => program e importer p
  | .block body => statements e importer body
  | .stmt st => statement e importer st
  | .expr x => effect e importer x

/-- The sessions that one node after the other leads to. What a failure leaves behind stays. -/
inductive Reachable (e : Edition) : Session → Prop
  | start : Reachable e (Session.start e)
  | compile {s : Session} (files : Files) (depth : Nat) (node : Node) : Reachable e s →
      Reachable e ((Gen.node e (Gen.importer e files depth) node).run s).2

/-- A property of computations that may also end a block. -/
structure ClosedEmits (P : {α : Type} → Gen α → Prop) : Prop extends Closed P where
  terminate {op : Op} (hop : op.isTerminator = true) : P (Gen.emit op)

/-- A property of computations that holds of every single step and of everything made of them. -/
structure ClosedSteps (P : {α : Type} → Gen α → Prop) :
    Prop extends ClosedScopes P, ClosedEmits P where
  addRoutine {r : Routine} (hr : r.blocks = []) : P (Gen.addItem (.routine r))
  addBlockTo (routine name : String) : P (Gen.addBlockTo routine name)
  moveTo (p : Option Place) : P (Gen.moveTo p)
  moveToStart (p : Place) : P (Gen.moveToStart p)
  startBuilder (p : Place) : P (Gen.startBuilder p)
  resumeBuilder (builder : Nat) (p : Option Place) : P (Gen.resumeBuilder builder p)
  changeLoops (f : Loops → Loops) : P (modify fun s => { s with loops := f s.loops } : Gen Unit)

/-- The same for computations that also import files. -/
structure ClosedImports (P : {α : Type} → Gen α → Prop) : Prop extends ClosedSteps P where
  look {β : Type} {f : Session → Gen β} (hf : ∀ s, P (f s)) : P (MonadState.get >>= f)
  tooDeep : P (MonadExcept.throw .importsTooDeep : Gen Unit)
  announce (line : String) : P (Gen.print line)
  openFile (path : String) :
    P (modify fun s => { s with opened := s.opened ++ [path] } : Gen Unit)
  finishImport (path : String) :
    P (modify fun s => { s with pallets := s.pallets ++ [path] } : Gen Unit)

namespace Closed

variable {P : {α : Type} → Gen α → Prop} (h : Closed P)

include h

theorem branchPlace : P Gen.branchPlace := by
  refine h.get fun s => ?_
  cases s.place with
  | none => exact h.throw (by simp)
  | some p => exact h.pure p

theorem isTerminated (p : Place) : P (Gen.isTerminated p) := by
  refine h.get fun s => ?_
  split
  · exact h.pure _
  · exact h.pure _

theorem forM {α : Type} {f : α → Gen Unit} (hf : ∀ a, P (f a)) (as : List α) : P (as.forM f) := by
  induction as with
  | nil => exact h.pure _
  | cons a as ih => exact h.bind (hf a) fun _ => ih

end Closed

namespace ClosedEmits

variable {P : {α : Type} → Gen α → Prop} (h : ClosedEmits P)

include h

theorem ret (x : Option Operand) : P (Gen.ret x) := h.bind (h.terminate rfl) fun _ => h.pure _

theorem branch (q : Place) : P (Gen.branch q) := h.bind (h.terminate rfl) fun _ => h.pure _

theorem branchOn (c : Option Operand) (q q' : Place) : P (Gen.branchOn c q q') :=
  h.bind (h.terminate rfl) fun _ => h.pure _

theorem closeWith (q : Place) : P (Gen.closeWith q) := by
  refine h.get fun s => ?_
  cases s.place with
  | none => exact h.pure _
  | some p => exact h.bind (h.isTerminated p) fun _ => Closed.choice (h.branch q) (h.pure _)

end ClosedEmits

namespace ClosedSteps

variable {P : {α : Type} → Gen α → Prop} (h : ClosedSteps P)

include h

theorem addBlock (name : String) : P (Gen.addBlock name) := by
  refine h.get fun s => ?_
  cases s.place with
  | none => exact h.throw (by simp)
  | some p => exact h.addBlockTo _ _

theorem openRoutine (e : Edition) (name : String) (params : List Param) (type : Literal) :
    P (Gen.openRoutine e name params type) :=
  h.bind (h.typesNamed e _) fun _ => h.bind (h.typeNamed e _) fun _ =>
    h.bind (h.addRoutine rfl) fun _ => h.bind (h.addBlockTo _ _) fun _ =>
      h.bind (h.startBuilder _) fun _ => h.bind (h.slots _) fun _ => h.bind h.enterScope fun _ =>
        h.bind (h.defineParams _) fun _ => h.bind (h.define _ _) fun _ => h.pure _

theorem closeRoutine (name : String) (b : Binding) (s : Session) : P (Gen.closeRoutine name b s) :=
  h.bind (h.leaveScopes _) fun _ => h.bind (h.define _ _) fun _ => h.resumeBuilder _ _

theorem openWhile (e : Edition) (c : Expr) : P (Gen.openWhile e c) :=
  h.bind (h.value _ _) fun _ => h.bind h.countUp fun _ => h.bind (h.addBlock _) fun _ =>
    h.bind (h.addBlock _) fun _ => h.bind (h.branchOn _ _ _) fun _ =>
      h.bind (h.moveToStart _) fun _ => h.pure _

theorem closeWhile (e : Edition) (c : Expr) (l : LoopBlocks) : P (Gen.closeWhile e c l) :=
  h.bind (h.value _ _) fun _ => h.bind (h.branchOn _ _ _) fun _ => h.moveToStart _

theorem startFor : P Gen.startFor :=
  h.bind h.countUp fun _ => h.bind (h.addBlock _) fun _ => h.bind (h.addBlock _) fun _ =>
    h.bind (h.changeLoops fun l => l.enter _ _) fun _ => h.bind (h.branch _) fun _ =>
      h.bind (h.moveToStart _) fun _ => h.pure _

theorem closeFor (e : Edition) (c : Expr) (l : LoopBlocks) : P (Gen.closeFor e c l) :=
  h.bind (h.closeWhile e c l) fun _ => h.changeLoops Loops.leave

theorem openThen (e : Edition) (c : Expr) : P (Gen.openThen e c) :=
  h.bind (h.value _ _) fun _ => h.bind h.branchPlace fun _ => h.bind (h.addBlock _) fun _ =>
    h.bind (h.addBlock _) fun _ => h.bind (h.branchOn _ _ _) fun _ => h.bind (h.moveTo _) fun _ =>
      h.pure _

theorem openElse (e : Edition) (c : Expr) : P (Gen.openElse e c) :=
  h.bind (h.value _ _) fun _ => h.bind h.branchPlace fun _ => h.bind (h.addBlock _) fun _ =>
    h.bind (h.addBlock _) fun _ => h.bind (h.addBlock _) fun _ => h.bind (h.branchOn _ _ _) fun _ =>
      h.bind (h.moveTo _) fun _ => h.pure _

theorem closeArm (after next : Place) : P (Gen.closeArm after next) :=
  h.bind (h.closeWith _) fun _ => h.moveTo _

section

variable {e : Edition} {importer : String → Gen Unit}

mutual

theorem effect : ∀ x : Expr, (∀ path ∈ x.imports, P (importer path)) → P (Gen.effect e importer x)
  | .missing, _ => by
    rw [Gen.effect]
    exact h.throw (by simp)
  | .int _, _ | .float _, _ | .ident _, _ | .bool _, _ | .str _, _ | .prefixed .., _ => by
    rw [Gen.effect]
    exact h.pure _
  | .infixed .., _ | .call .., _ | .openCall _, _ => by
    rw [Gen.effect]
    exact h.bind (h.value _ _) fun _ => h.pure _
  | .stepped .., _ => by
    rw [Gen.effect]
    exact h.step _ _
  | .ifThen c body, himport => by
    rw [Gen.effect_ifThen]
    exact h.bind (h.openThen _ _) fun _ => h.bind (statements body himport) fun _ => h.closeArm _ _
  | .ifElse c body alternative, himport => by
    rw [Expr.imports] at himport
    obtain ⟨hbody, halternative⟩ := List.forall_mem_append.mp himport
    rw [Gen.effect_ifElse]
    exact h.bind (h.openElse _ _) fun _ => h.bind (statements body hbody) fun _ =>
      h.bind (h.closeArm _ _) fun _ => h.bind (statements alternative halternative) fun _ =>
        h.closeArm _ _

theorem statement : ∀ st : Stmt, (∀ path ∈ st.imports, P (importer path)) →
    P (Gen.statement e importer st)
  | .missing, _ => by
    rw [Gen.statement]
    exact h.throw (by simp)
  | .expr x, himport | .bare x, himport => by
    rw [Gen.statement]
    exact effect x himport
  | .letVar .., _ => by
    rw [Gen.statement]
    exact h.bind (h.value _ _) fun _ => h.letVar _ _ _
  | .ret x, _ => by
    rw [Gen.statement]
    exact h.bind (h.value _ _) fun _ => h.ret _
  | .fn name none type body, _ => by
    rw [Gen.statement]
    exact h.throw (by simp)
  | .fn name (some params) type body, himport => by
    rw [Gen.statement_fn]
    exact h.get fun _ => h.bind (h.openRoutine _ _ _ _) fun _ =>
      h.bind (statements body himport) fun _ =>
      h.closeRoutine _ _ _
  | .assign target op x, _ => h.assignment e importer target op x
  | .whileLoop c body, himport => by
    rw [Gen.statement_whileLoop]
    exact h.bind (h.openWhile _ _) fun _ => h.bind (statements body himport) fun _ =>
      h.closeWhile _ _ _
  | .breakLoop, _ => by
    rw [Gen.statement]
    refine h.get fun s => ?_
    cases s.loops.breakpoints with
    | nil => exact h.throw (by simp)
    | cons q qs => exact h.branch _
  | .continueLoop, _ => by
    rw [Gen.statement]
    refine h.get fun s => ?_
    cases s.loops.continues with
    | nil => exact h.throw (by simp)
    | cons q qs => exact h.branch _
  | .forLoop init c next body, himport => by
    rw [Stmt.imports] at himport
    obtain ⟨hfirst, hnext⟩ := List.forall_mem_append.mp himport
    obtain ⟨hinit, hbody⟩ := List.forall_mem_append.mp hfirst
    rw [Gen.statement_forLoop]
    exact h.bind (h.bind h.enterScope fun _ => h.bind (statement init hinit) fun _ => h.startFor)
      fun _ =>
      h.bind (statements body hbody) fun _ => h.bind (statement next hnext) fun _ =>
        h.closeFor _ _ _
  | .importPallet path, himport => by
    rw [Gen.statement]
    exact himport path (List.mem_singleton.mpr rfl)

theorem statements : ∀ ss : List Stmt, (∀ path ∈ imports ss, P (importer path)) →
    P (Gen.statements e importer ss)
  | [], _ => by
    rw [Gen.statements]
    exact h.pure _
  | s :: ss, himport => by
    rw [imports] at himport
    obtain ⟨hs, hss⟩ := List.forall_mem_append.mp himport
    rw [Gen.statements]
    exact h.bind (statement s hs) fun _ => statements ss hss

end

theorem program (p : Program) (himport : ∀ path ∈ imports p, P (importer path)) :
    P (Gen.program e importer p) := by
  refine Closed.choice (h.statements p himport) ?_
  exact h.bind (h.addRoutine rfl) fun _ => h.bind (h.addBlockTo _ _) fun _ =>
    h.bind (h.startBuilder _) fun _ => h.bind (h.statements p himport) fun _ => h.ret _

end

end ClosedSteps

theorem ClosedImports.importer {P : {α : Type} → Gen α → Prop} (h : ClosedImports P) (e : Edition)
    (files : Files) (depth : Nat) (path : String) : P (Gen.importer e files depth path) := by
  induction depth generalizing path with
  | zero => exact h.tooDeep
  | succ depth ih =>
    rw [Gen.importer]
    refine h.look fun s => Closed.choice (h.announce _) ?_
    split
    · exact h.throw (by simp)
    refine h.bind (h.openFile path) fun _ => h.bind (h.forM (fun _ => h.announce _) _) fun _ => ?_
    split
    · exact h.throw (by simp)
    refine Closed.choice ?_ ?_
    · exact h.bind (h.program _ fun path _ => ih path) fun _ => h.finishImport path
    · exact h.bind (h.announce _) fun _ => h.bind (h.forM (fun _ => h.announce _) _) fun _ =>
        h.throw (by simp)

/-- Whatever a computation does and however it ends, the sessions before and after it are
related. -/
def Obeys (R : Session → Session → Prop) {α : Type} (g : Gen α) : Prop := ∀ s, R s (g.run s).2

namespace Obeys

variable {R : Session → Session → Prop} {α β : Type}

theorem pure (hrefl : ∀ s, R s s) (a : α) : Obeys R (Pure.pure a : Gen α) := hrefl

theorem throw (hrefl : ∀ s, R s s) (f : Failure) : Obeys R (MonadExcept.throw f : Gen α) := hrefl

theorem bind (htrans : ∀ s t u, R s t → R t u → R s u) {x : Gen α} {f : α → Gen β}
    (hx : Obeys R x) (hf : ∀ a, Obeys R (f a)) : Obeys R (x >>= f) := by
  intro s
  have h := hx s
  rw [Gen.run_bind]
  generalize x.run s = result at h ⊢
  obtain ⟨r, t⟩ := result
  cases r with
  | error e => exact h
  | ok a => exact htrans _ _ _ h (hf a t)

theorem get {f : Session → Gen β} (hf : ∀ s, Obeys R (f s)) : Obeys R (MonadState.get >>= f) :=
  fun s => hf s s

theorem emit {op : Op} (hrefl : ∀ s, R s s)
    (htaken : ∀ s p r, s.place = some p → s.assembly.routine? p.routine = some r →
      R s { s with assembly := s.assembly.modifyRoutine p.routine fun _ => r.takeName.2 })
    (hwritten : ∀ s p r, s.place = some p → s.assembly.routine? p.routine = some r →
      R s { s with assembly := s.assembly.withInstr p r op }) : Obeys R (Gen.emit op) := by
  intro s
  cases hp : s.place with
  | none =>
    rw [Gen.run_emit_nowhere hp]
    exact hrefl s
  | some p =>
    cases hr : s.assembly.routine? p.routine with
    | none =>
      rw [Gen.run_emit_unknown hp hr]
      exact hrefl s
    | some r =>
      rw [Gen.run_emit_at hp hr]
      split_ifs
      · exact htaken s p r hp hr
      · exact hwritten s p r hp hr

theorem addItem {i : Item} (hrefl : ∀ s, R s s) (hadd : ∀ s, s.assembly.item? i.name = none →
    R s { s with assembly := s.assembly.add i }) : Obeys R (Gen.addItem i) := by
  intro s
  cases hi : s.assembly.item? i.name with
  | some j =>
    rw [Gen.run_addItem_taken hi]
    exact hrefl s
  | none =>
    rw [Gen.run_addItem hi]
    exact hadd s hi

end Obeys

theorem Obeys.of_run {R : Session → Session → Prop} {α : Type} {g : Gen α} (h : Obeys R g)
    {s t : Session} {r : Except Failure α} (hrun : g.run s = (r, t)) : R s t := by
  have hR := h s
  rwa [hrun] at hR

/-- Where the computation ends `Q` holds, and where it fails `F` holds. -/
def Leads {α : Type} (g : Gen α) (s : Session) (Q : α → Session → Prop) (F : Failure → Session →
    Prop) : Prop :=
  match g.run s with
  | (.ok a, t) => Q a t
  | (.error f, t) => F f t

namespace Leads

variable {α β : Type} {g : Gen α} {s t : Session} {Q R : α → Session → Prop} {F : Failure →
  Session → Prop}

theorem ok (h : Leads g s Q F) {a : α} (hrun : g.run s = (.ok a, t)) : Q a t := by
  rwa [Leads, hrun] at h

theorem error (h : Leads g s Q F) {f : Failure} (hrun : g.run s = (.error f, t)) : F f t := by
  rwa [Leads, hrun] at h

theorem of_run (hok : ∀ a t, g.run s = (.ok a, t) →
    Q a t) (herror : ∀ f t, g.run s = (.error f, t) → F f t) : Leads g s Q F := by
  rw [Leads]
  split
  · rename_i a t hrun
    exact hok a t hrun
  · rename_i f t hrun
    exact herror f t hrun

theorem mono (h : Leads g s Q F) (hQR : ∀ a t, Q a t → R a t) : Leads g s R F :=
  .of_run (fun a t hrun => hQR a t (h.ok hrun)) fun _ _ hrun => h.error hrun

theorem bind {k : α → Gen β} {R : β → Session → Prop} (h : Leads g s Q F)
    (hk : ∀ a t, Q a t → Leads (k a) t R F) : Leads (g >>= k) s R F := by
  rw [Leads, Gen.run_bind]
  rw [Leads] at h
  generalize g.run s = result at h ⊢
  obtain ⟨r, t⟩ := result
  cases r with
  | error f => exact h
  | ok a => exact hk a t h

end Leads

/-- A relation between assemblies that each single change of one is in. -/
structure AssemblySteps (S : Assembly → Assembly → Prop) : Prop where
  refl (a : Assembly) : S a a
  trans {a b c : Assembly} (h : S a b) (h' : S b c) : S a c
  takeName {a : Assembly} {n : String} {r : Routine} (hr : a.routine? n = some r) :
    S a (a.modifyRoutine n fun _ => r.takeName.2)
  withInstr {a : Assembly} {p : Place} {r : Routine} {op : Op}
    (hr : a.routine? p.routine = some r) : S a (a.withInstr p r op)
  withBlock {a : Assembly} {r : Routine} {name : String} (hr : a.routine? r.name = some r) :
    S a (a.withBlock r name)
  add {a : Assembly} {i : Item} (hi : a.item? i.name = none)
    (hblocks : ∀ r, i = .routine r → r.blocks = []) : S a (a.add i)

namespace AssemblySteps

variable {S : Assembly → Assembly → Prop} (h : AssemblySteps S)

include h

theorem same (s : Session) : S s.assembly s.assembly := h.refl _

theorem joined (s t u : Session) (hs : S s.assembly t.assembly) (ht : S t.assembly u.assembly) :
    S s.assembly u.assembly := h.trans hs ht

theorem emit (op : Op) : Obeys (fun s t => S s.assembly t.assembly) (Gen.emit op) :=
  .emit h.same (fun _ _ _ _ hr => h.takeName hr) fun _ _ _ _ hr => h.withInstr hr

theorem addItem {i : Item} (hblocks : ∀ r, i = .routine r → r.blocks = []) :
    Obeys (fun s t => S s.assembly t.assembly) (Gen.addItem i) :=
  .addItem h.same fun _ hi => h.add hi hblocks

theorem addBlockTo (n name : String) :
    Obeys (fun s t => S s.assembly t.assembly) (Gen.addBlockTo n name) := by
  intro s
  cases hr : s.assembly.routine? n with
  | none =>
    rw [Gen.run_addBlockTo_unknown hr]
    exact h.same s
  | some r =>
    rw [Gen.run_addBlockTo hr]
    obtain rfl := Assembly.routine?_name hr
    exact h.withBlock hr

/-- All of code generation obeys such a relation. -/
theorem closed : ClosedImports (Obeys fun s t => S s.assembly t.assembly) where
  pure := .pure h.same
  throw _ := .throw h.same _
  bind := .bind h.joined
  get hf _ := .get hf
  print _ := h.same
  record _ := h.same
  countUp := h.same
  emit _ := h.emit _
  addConstant _ := h.addItem (by simp)
  define _ _ := h.same
  enterScope := h.same
  leaveScopes _ := h.same
  terminate _ := h.emit _
  addRoutine hr := h.addItem fun r' hr' => by rwa [← Item.routine.inj hr']
  addBlockTo := h.addBlockTo
  moveTo _ := h.same
  moveToStart q s := by
    rw [Gen.run_moveToStart]
    split_ifs
    · exact h.same s
    · exact h.same s
  startBuilder _ := h.same
  resumeBuilder _ _ := h.same
  changeLoops _ := h.same
  look := .get
  tooDeep := .throw h.same _
  announce _ := h.same
  openFile _ := h.same
  finishImport _ := h.same

end AssemblySteps

end LimeLang
