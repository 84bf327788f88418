import LimeLang.Proofs.ScopeFrames
import LimeLang.Proofs.StatementParts

/-! Where `break` and `continue` lead. Only `for` loops are written down as loops: a jump leads to
the blocks of the innermost `for` around it, past any `while` and out of any routine that begins
inside. -/

namespace LimeLang

open Code

/-- What stands around a statement, with the blocks of a `for` loop and the name of a routine. -/
inductive Level
  | forLoop (l : LoopBlocks)
  | whileLoop
  | branch
  | routine (name : String)

inductive Enclosure
  | forLoop
  | whileLoop
  | branch
  | routine (name : String)
deriving DecidableEq

def Level.enclosure : Level → Enclosure
  | .forLoop _ => .forLoop
  | .whileLoop => .whileLoop
  | .branch => .branch
  | .routine name => .routine name

/-- The innermost `for` loop, of levels from the outside in. -/
def innermost : List Level → Option LoopBlocks
  | [] => none
  | .forLoop l :: levels => (innermost levels).or (some l)
  | _ :: levels => innermost levels

/-- The routine that is written to, of levels from the outside in. -/
def currentRoutine (start : Option String) : List Level → Option String
  | [] => start
  | .routine name :: levels => currentRoutine (some name) levels
  | _ :: levels => currentRoutine start levels

def Loops.inside (l : Loops) : List Level → Loops
  | [] => l
  | .forLoop b :: levels => (l.enter b.entry b.exit).inside levels
  | _ :: levels => l.inside levels

inductive Jump
  | breakLoop
  | continueLoop

namespace Jump

def stmt : Jump → Stmt
  | breakLoop => .breakLoop
  | continueLoop => .continueLoop

def target : Jump → LoopBlocks → Place
  | breakLoop, l => l.exit
  | continueLoop, l => l.entry

def stack : Jump → Loops → List Place
  | breakLoop, l => l.breakpoints
  | continueLoop, l => l.continues

/-- Where the jump leads: to the innermost `for` loop around it, or else to the one that was open
before. -/
def goal (j : Jump) (before : Loops) (levels : List Level) : Option Place :=
  ((innermost levels).map j.target).or (j.stack before).head?

theorem stack_enter (j : Jump) (l : Loops) (b : LoopBlocks) :
    j.stack (l.enter b.entry b.exit) = j.target b :: j.stack l := by
  cases j with
  | breakLoop => rfl
  | continueLoop => rfl

theorem head?_stack_inside (j : Jump) (l : Loops) (levels : List Level) :
    (j.stack (l.inside levels)).head? = j.goal l levels := by
  induction levels generalizing l with
  | nil => rfl
  | cons level levels ih =>
    cases level with
    | forLoop b =>
      rw [Loops.inside, ih, goal, goal, stack_enter, innermost]
      cases innermost levels with
      | none => rfl
      | some b' => rfl
    | whileLoop | branch | routine _ => exact ih l

end Jump

namespace Gen

def jump : Option Place → Gen Unit
  | none => throw .noLoop
  | some q => branch q

theorem run_jump (e : Edition) (importer : String → Gen Unit) (j : Jump) (s : Session) :
    (statement e importer j.stmt).run s = (jump (j.stack s.loops).head?).run s := by
  cases j with
  | breakLoop =>
    rw [Jump.stmt, statement, run_bind, run_get, Jump.stack]
    dsimp only
    cases s.loops.breakpoints with
    | nil => rfl
    | cons q qs => rfl
  | continueLoop =>
    rw [Jump.stmt, statement, run_bind, run_get, Jump.stack]
    dsimp only
    cases s.loops.continues with
    | nil => rfl
    | cons q qs => rfl

end Gen

/-- A statement holds the given statements as a body. The step of a `for` loop ends its body. -/
inductive Stmt.Holds : Stmt → Enclosure → List Stmt → Prop
  | whileLoop {c body} : Holds (.whileLoop c body) .whileLoop body
  | forLoop {init c next body} : Holds (.forLoop init c next body) .forLoop (body ++ [next])
  | thenBody {st c body} : st.effect? = some (.ifThen c body) → Holds st .branch body
  | ifBody {st c body alternative} : st.effect? = some (.ifElse c body alternative) →
      Holds st .branch body
  | elseBody {st c body alternative} : st.effect? = some (.ifElse c body alternative) →
      Holds st .branch alternative
  | fnBody {name params type body} : Holds (.fn name (some params) type body) (.routine name) body

/-- From one of the statements, or of those inside, to the end of its body. -/
inductive Nested : List Stmt → List Enclosure → List Stmt → Prop
  | here {ss} : Nested ss [] ss
  | past {st ss enclosures rest} : Nested ss enclosures rest → Nested (st :: ss) enclosures rest
  | into {st ss enclosure body enclosures rest} : st.Holds enclosure body →
      Nested body enclosures rest → Nested (st :: ss) (enclosure :: enclosures) rest

/-- Compiling a statement comes to a body of it. -/
inductive Enters (e : Edition) (importer : String → Gen Unit) :
    Stmt → Session → Level → List Stmt → Session → Prop
  | whileLoop {c body s l t} : (Gen.openWhile e c).run s = (.ok l, t) →
      Enters e importer (.whileLoop c body) s .whileLoop body t
  | forLoop {init c next body s l t} : (Gen.openFor e importer init).run s = (.ok l, t) →
      Enters e importer (.forLoop init c next body) s (.forLoop l) (body ++ [next]) t
  | thenBody {st c body s after t} : st.effect? = some (.ifThen c body) →
      (Gen.openThen e c).run s = (.ok after, t) → Enters e importer st s .branch body t
  | ifBody {st c body alternative s l t} : st.effect? = some (.ifElse c body alternative) →
      (Gen.openElse e c).run s = (.ok l, t) → Enters e importer st s .branch body t
  | elseBody {st c body alternative s t} : st.effect? = some (.ifElse c body alternative) →
      (do let l ← Gen.openElse e c
          Gen.statements e importer body
          Gen.closeArm l.2 l.1).run s = (.ok (), t) → Enters e importer st s .branch alternative t
  | fnBody {name params type body s b t} : (Gen.openRoutine e name params type).run s = (.ok b, t) →
      Enters e importer (.fn name (some params) type body) s (.routine name) body t

/-- Compiling the statements comes to one of those inside. -/
inductive ComesTo (e : Edition) (importer : String → Gen Unit) :
    List Stmt → Session → List Level → List Stmt → Session → Prop
  | here {ss s} : ComesTo e importer ss s [] ss s
  | past {st ss s t levels rest u} : (Gen.statement e importer st).run s = (.ok (), t) →
      ComesTo e importer ss t levels rest u → ComesTo e importer (st :: ss) s levels rest u
  | into {st ss s level body t levels rest u} : Enters e importer st s level body t →
      ComesTo e importer body t levels rest u →
      ComesTo e importer (st :: ss) s (level :: levels) rest u

section Openings

variable {e : Edition} {s t : Session} {name : String} {params : List Param} {type : Literal}
  {b : Binding}

theorem addItem_ok {i : Item} (h : (Gen.addItem i).run s = (.ok (), t)) :
    s.assembly.item? i.name = none := by
  cases hi : s.assembly.item? i.name with
  | none => rfl
  | some j =>
    rw [Gen.run_addItem_taken hi] at h
    cases h

theorem typeNamed_ok {l : Literal} {ty : Ty} (h : (Gen.typeNamed e l).run s = (.ok ty, t)) :
    s = t := by
  rw [Gen.typeNamed] at h
  split at h <;> cases h
  rfl

theorem typesNamed_ok {ls : List Literal} {ts : List Ty}
    (h : (Gen.typesNamed e ls).run s = (.ok ts, t)) : s = t := by
  induction ls generalizing ts with
  | nil =>
    cases h
    rfl
  | cons l ls ih =>
    obtain ⟨ty, s₁, h₁, h⟩ := Gen.bind_ok h
    obtain rfl := typeNamed_ok h₁
    obtain ⟨tys, s₂, h₂, h⟩ := Gen.bind_ok h
    cases h
    exact ih h₂

/-- A routine is added, and writing goes on in its first block. -/
def Session.withRoutine (s : Session) (r : Routine) (entry : String) : Session :=
  { s with
    assembly := (s.assembly.add (.routine r)).withBlock r entry
    builder := s.builders
    builders := s.builders + 1
    place := some ⟨r.name, (r.addBlock entry).1⟩ }

theorem openRoutine_ok (h : (Gen.openRoutine e name params type).run s = (.ok b, t)) :
    ∃ r entry ptrs u, r.name = name ∧ r.blocks = [] ∧ s.assembly.item? r.name = none ∧
      (Gen.slots r.params).run (s.withRoutine r entry) = (.ok ptrs, u) ∧ t.assembly = u.assembly ∧
      t.place = u.place ∧ t.pallets = u.pallets := by
  rw [Gen.openRoutine] at h
  obtain ⟨types, s₁, h₁, h⟩ := Gen.bind_ok h
  obtain rfl := typesNamed_ok h₁
  obtain ⟨result, s₂, h₂, h⟩ := Gen.bind_ok h
  obtain rfl := typeNamed_ok h₂
  obtain ⟨_, s₃, h₃, h⟩ := Gen.bind_ok h
  let r := Routine.declare name result types false
  have hnew : s.assembly.item? r.name = none := addItem_ok h₃
  rw [Gen.run_addItem hnew] at h₃
  cases h₃
  obtain ⟨q, s₄, h₄, h⟩ := Gen.bind_ok h
  rw [Gen.run_addBlockTo (Assembly.routine?_add_self hnew)] at h₄
  cases h₄
  obtain ⟨ptrs, s₅, h₅, h⟩ := Gen.bind_ok (Gen.modify_ok h)
  obtain ⟨_, s₆, h₆, h⟩ := Gen.bind_ok (Gen.modify_ok h)
  rw [run_defineParams] at h₆
  cases h₆
  cases h
  exact ⟨r, name ++ "_entry", ptrs, s₅, rfl, rfl, hnew, h₅, rfl, rfl, rfl⟩

theorem openRoutine_fresh (h : (Gen.openRoutine e name params type).run s = (.ok b, t)) :
    s.assembly.routine? name = none ∧ t.place.map Place.routine = some name := by
  obtain ⟨r, entry, ptrs, u, rfl, -, hnew, hslots, -, hplace, -⟩ := openRoutine_ok h
  refine ⟨by rw [Assembly.routine?, hnew], ?_⟩
  have hquiet := quiet.slots r.params (s.withRoutine r entry)
  rw [hslots] at hquiet
  rw [hplace, hquiet.place]
  rfl

end Openings

section Levels

variable {l : LoopBlocks} {outer inner : List Level}

theorem Loops.inside_append (before : Loops) (outer inner : List Level) :
    before.inside (outer ++ inner) = (before.inside outer).inside inner := by
  induction outer generalizing before with
  | nil => rfl
  | cons level outer ih =>
    cases level with
    | forLoop b => exact ih _
    | whileLoop | branch | routine _ => exact ih _

theorem currentRoutine_append (start : Option String) (outer inner : List Level) :
    currentRoutine start (outer ++ inner) = currentRoutine (currentRoutine start outer) inner := by
  induction outer generalizing start with
  | nil => rfl
  | cons level outer ih =>
    cases level with
    | routine _ => exact ih _
    | whileLoop | branch | forLoop _ => exact ih _

theorem currentRoutine_of_none (start : Option String) (h : ∀ name, .routine name ∉ inner) :
    currentRoutine start inner = start := by
  induction inner with
  | nil => rfl
  | cons level inner ih =>
    have hinner := ih fun name hname => h name (List.mem_cons_of_mem _ hname)
    cases level with
    | routine name => exact absurd (List.mem_cons_self ..) (h name)
    | whileLoop | branch | forLoop _ => exact hinner

theorem innermost_append (h : innermost inner = none) :
    innermost (outer ++ .forLoop l :: inner) = some l := by
  induction outer with
  | nil => rw [List.nil_append, innermost, h, Option.none_or]
  | cons level outer ih =>
    cases level with
    | forLoop b => rw [List.cons_append, innermost, ih, Option.some_or]
    | whileLoop | branch | routine _ => exact ih

theorem Loops.inside_suffix (before : Loops) (levels : List Level) :
    before.continues <:+ (before.inside levels).continues ∧
      before.breakpoints <:+ (before.inside levels).breakpoints := by
  induction levels generalizing before with
  | nil => exact ⟨List.suffix_rfl, List.suffix_rfl⟩
  | cons level levels ih =>
    cases level with
    | forLoop b =>
      obtain ⟨hcontinues, hbreakpoints⟩ := ih (before.enter b.entry b.exit)
      exact ⟨(List.suffix_cons _ _).trans hcontinues, (List.suffix_cons _ _).trans hbreakpoints⟩
    | whileLoop | branch | routine _ => exact ih before

theorem Loops.mem_inside (before : Loops) (h : .forLoop l ∈ outer) :
    l.entry ∈ (before.inside outer).continues ∧ l.exit ∈ (before.inside outer).breakpoints := by
  obtain ⟨outer, inner, rfl⟩ := List.append_of_mem h
  rw [inside_append, inside]
  obtain ⟨hcontinues, hbreakpoints⟩ :=
    inside_suffix ((before.inside outer).enter l.entry l.exit) inner
  exact ⟨hcontinues.subset (List.mem_cons_self ..), hbreakpoints.subset (List.mem_cons_self ..)⟩

end Levels

section Arrival

/-- What holds where compiling has come to, going in from a valid session. -/
structure Arrival (s : Session) (levels : List Level) (t : Session) : Prop where
  valid : t.Valid
  loops : t.loops = s.loops.inside levels
  routine : t.place.map Place.routine = currentRoutine (s.place.map Place.routine) levels
  grows : s.assembly.Grows t.assembly

theorem Arrival.of_frames {s t : Session} (ht : t.Valid) (h : s.Frames t) {level : Level}
    (hloops : s.loops.inside [level] = s.loops)
    (hroutine : currentRoutine (s.place.map Place.routine) [level] = s.place.map Place.routine) :
    Arrival s [level] t :=
  ⟨ht, h.loops.trans hloops.symm, h.routine.trans hroutine.symm, h.grows⟩

theorem Arrival.trans {s t u : Session} {outer inner : List Level} (h : Arrival s outer t)
    (h' : Arrival t inner u) : Arrival s (outer ++ inner) u where
  valid := h'.valid
  loops := by rw [h'.loops, h.loops, Loops.inside_append]
  routine := by rw [h'.routine, h.routine, currentRoutine_append]
  grows := h.grows.trans h'.grows

variable {e : Edition} {importer : String → Gen Unit} (he : e.has .functions = true)
  (himport : ∀ path, Disciplined (importer path))

include he himport

variable {s t : Session}

theorem Enters.arrival {st : Stmt} {level : Level} {body : List Stmt}
    (h : Enters e importer st s level body t) (hs : s.Valid) : Arrival s [level] t := by
  cases h with
  | whileLoop h =>
    obtain ⟨ht, hst, -⟩ := (openWhile_secures hs _).of_run h
    exact .of_frames ht hst rfl rfl
  | forLoop h =>
    obtain ⟨ht, hst⟩ := (openFor_secures (statement_disciplined he himport _) hs).of_run h
    exact ⟨ht, hst.loops, hst.routine, hst.grows⟩
  | thenBody _ h =>
    obtain ⟨ht, hst, -⟩ := (openThen_secures hs _).of_run h
    exact .of_frames ht hst rfl rfl
  | ifBody _ h =>
    obtain ⟨ht, hst, -⟩ := (openElse_secures hs _).of_run h
    exact .of_frames ht hst rfl rfl
  | elseBody _ h =>
    obtain ⟨l, s₁, h₁, h⟩ := Gen.bind_ok h
    obtain ⟨hs₁, hst₁, hfalse, -⟩ := (openElse_secures hs _).of_run h₁
    obtain ⟨_, s₂, h₂, h⟩ := Gen.bind_ok h
    obtain ⟨hs₂, hst₂⟩ := (statements_disciplined he himport _ s₁ hs₁).of_run h₂
    obtain ⟨ht, hst₃⟩ := (closeArm_secures hs₂ _ (hfalse.frames hst₂)).of_run h
    exact .of_frames ht ((hst₁.trans hst₂).trans hst₃) rfl rfl
  | fnBody h =>
    obtain ⟨ht, hloops, hgrows, -⟩ := (openRoutine_secures e hs _ _ _).of_run h
    exact ⟨ht, hloops, (openRoutine_fresh h).2, hgrows⟩

theorem ComesTo.arrival {ss rest : List Stmt} {levels : List Level}
    (h : ComesTo e importer ss s levels rest t) (hs : s.Valid) : Arrival s levels t := by
  induction h with
  | here => exact ⟨hs, rfl, rfl, .refl _⟩
  | past hrun _ ih =>
    obtain ⟨ht, hst⟩ := (statement_disciplined he himport _ _ hs).of_run hrun
    have hstay : Arrival _ [] _ := ⟨ht, hst.loops, hst.routine, hst.grows⟩
    exact hstay.trans (ih ht)
  | into henters _ ih =>
    have h := henters.arrival he himport hs
    exact h.trans (ih h.valid)

omit he himport

theorem ComesTo.split {ss rest : List Stmt} {outer inner : List Level} {level : Level}
    (h : ComesTo e importer ss s (outer ++ level :: inner) rest t) :
    ∃ st more s' body t', ComesTo e importer ss s outer (st :: more) s' ∧
      Enters e importer st s' level body t' ∧ ComesTo e importer body t' inner rest t := by
  generalize hlevels : outer ++ level :: inner = levels at h
  induction h generalizing outer with
  | here => simp at hlevels
  | past hrun _ ih =>
    obtain ⟨st, more, s', body, t', h, hinto⟩ := ih hlevels
    exact ⟨st, more, s', body, t', .past hrun h, hinto⟩
  | into henters hrest ih =>
    cases outer with
    | nil =>
      obtain ⟨rfl, rfl⟩ := List.cons.inj hlevels
      exact ⟨_, _, _, _, _, .here, henters, hrest⟩
    | cons first outer =>
      obtain ⟨rfl, hrest⟩ := List.cons.inj hlevels
      obtain ⟨st, more, s', body, t', h, hinto⟩ := ih hrest
      exact ⟨st, more, s', body, t', .into henters h, hinto⟩

theorem Enters.fresh {st : Stmt} {name : String} {body : List Stmt}
    (h : Enters e importer st s (.routine name) body t) : s.assembly.routine? name = none := by
  cases h with
  | fnBody h => exact (openRoutine_fresh h).1

include he himport

theorem ComesTo.leaves_routine {ss rest : List Stmt} {levels : List Level} {q : Place}
    (h : ComesTo e importer ss s levels rest t) (hs : s.Valid)
    (hq : (s.assembly.code? q).isSome = true)
    (hout : s.place.map Place.routine ≠ some q.routine ∨ ∃ name, .routine name ∈ levels) :
    t.place.map Place.routine ≠ some q.routine := by
  induction h with
  | here => simpa using hout
  | past hrun _ ih =>
    obtain ⟨ht, hst⟩ := (statement_disciplined he himport _ _ hs).of_run hrun
    exact ih ht (hst.grows.code_isSome hq) (hst.routine ▸ hout)
  | @into _ _ _ level _ _ _ _ _ henters _ ih =>
    have h := henters.arrival he himport hs
    refine ih h.valid (h.grows.code_isSome hq) ?_
    rw [h.routine]
    cases level with
    | routine name =>
      refine .inl fun hname => ?_
      obtain ⟨r, hr, -⟩ := Option.bind_eq_some_iff.mp (Option.isSome_iff_exists.mp hq).choose_spec
      rw [← Option.some.inj hname, henters.fresh] at hr
      cases hr
    | forLoop _ | whileLoop | branch => simpa [currentRoutine] using hout

omit he himport

/-- The blocks of a loop are not those of the loops around it. -/
theorem Session.Valid.target_ne (ht : t.Valid) {outer : Loops} {l : LoopBlocks}
    (h : t.loops = outer.enter l.entry l.exit) (j : Jump) {q : Place}
    (hq : q ∈ outer.continues ∨ q ∈ outer.breakpoints) : j.target l ≠ q := by
  obtain ⟨loops, hcontinues, hbreakpoints, hsorted, -⟩ := ht.paired
  rw [h] at hcontinues hbreakpoints
  cases loops with
  | nil => cases hcontinues
  | cons first loops =>
    obtain ⟨hentry, hcontinues⟩ := List.cons.inj hcontinues
    obtain ⟨hexit, hbreakpoints⟩ := List.cons.inj hbreakpoints
    have hnew : ForLoop.HasName first.number (j.target l).block := by
      cases j with
      | breakLoop => exact .inr (congrArg Place.block hexit)
      | continueLoop => exact .inl (congrArg Place.block hentry)
    have hold : ∃ k ∈ loops, ForLoop.HasName k.number q.block := by
      rcases hq with hq | hq
      · rw [hcontinues] at hq
        obtain ⟨k, hk, rfl⟩ := List.mem_map.mp hq
        exact ⟨k, hk, .inl rfl⟩
      · rw [hbreakpoints] at hq
        obtain ⟨k, hk, rfl⟩ := List.mem_map.mp hq
        exact ⟨k, hk, .inr rfl⟩
    obtain ⟨k, hk, hname⟩ := hold
    rintro rfl
    have hlt := (List.pairwise_cons.mp hsorted).1 k hk
    rw [hnew.unique hname] at hlt
    exact Nat.lt_irrefl _ hlt

end Arrival

section Jumps

/-- The block that is written to has not ended. -/
def Session.IsOpen (s : Session) : Prop :=
  ∃ p is, s.place = some p ∧ s.assembly.code? p = some is ∧ ∀ i ∈ is, i.op.isTerminator = false

def Code.Assembly.EndsIn (a : Assembly) (p q : Place) : Prop :=
  ∃ is name js, a.code? p = some (is ++ ⟨name, .br q.block⟩ :: js) ∧
    ∀ i ∈ is, i.op.isTerminator = false

theorem Code.Assembly.EndsIn.grows {a b : Assembly} {p q : Place} (h : a.EndsIn p q)
    (hg : a.Grows b) : b.EndsIn p q := by
  obtain ⟨is, name, js, hcode, his⟩ := h
  obtain ⟨ks, hks⟩ := hg.code hcode
  exact ⟨is, name, js ++ ks, by rw [hks, List.append_assoc, List.cons_append], his⟩

variable {s t : Session} {q : Place}

theorem branch_of_isOpen (h : s.IsOpen) :
    ∃ p t, s.place = some p ∧ (Gen.branch q).run s = (.ok (), t) ∧ t.assembly.EndsIn p q := by
  obtain ⟨p, is, hp, hcode, his⟩ := h
  obtain ⟨r, hr, -⟩ := Option.bind_eq_some_iff.mp hcode
  refine ⟨p, { s with assembly := s.assembly.withInstr p r (.br q.block) }, hp, ?_, is,
    r.takeName.1, [], ?_, his⟩
  · rw [Gen.branch, Gen.run_bind, Gen.run_emit hp hr fun _ => ⟨is, hcode, his⟩]
    rfl
  · dsimp only
    rw [Assembly.code?_withInstr hr, if_pos rfl, hcode]
    rfl

theorem isOpen_of_branch (hs : s.Valid) (h : (Gen.branch q).run s = (.ok (), t)) : s.IsOpen := by
  obtain ⟨x, u, hx, -⟩ := Gen.bind_ok h
  cases hp : s.place with
  | none =>
    rw [Gen.run_emit_nowhere hp] at hx
    cases hx
  | some p =>
    obtain ⟨is, his⟩ := Option.isSome_iff_exists.mp (hs.placed p hp)
    obtain ⟨r, hr, -⟩ := Option.bind_eq_some_iff.mp his
    rw [Gen.run_emit_at hp hr, his, Option.any_some] at hx
    split_ifs at hx with hended
    · cases hx
    · refine ⟨p, is, hp, his, ?_⟩
      simpa [Op.isTerminator] using hended

theorem jump_ok_iff (hs : s.Valid) {goal : Option Place} :
    ((Gen.jump goal).run s).1 = .ok () ↔ s.IsOpen ∧ goal.isSome = true := by
  cases goal with
  | none => exact ⟨fun h => (by cases h), fun h => absurd h.2 (by decide)⟩
  | some q =>
    refine ⟨fun h => ⟨isOpen_of_branch hs (Prod.ext h rfl), rfl⟩, fun h => ?_⟩
    obtain ⟨p, t, -, hrun, -⟩ := branch_of_isOpen h.1
    exact congrArg Prod.fst hrun

theorem jump_ends (hs : s.Valid) {goal : Option Place} (h : (Gen.jump goal).run s = (.ok (), t)) :
    ∃ p q, s.place = some p ∧ goal = some q ∧ t.assembly.EndsIn p q := by
  cases goal with
  | none => cases h
  | some q =>
    obtain ⟨p, u, hp, hrun, hends⟩ := branch_of_isOpen (q := q) (isOpen_of_branch hs h)
    obtain ⟨-, rfl⟩ := Prod.mk.inj (hrun.symm.trans h)
    exact ⟨p, q, hp, rfl, hends⟩

end Jumps

section Completeness

variable {e : Edition} {importer : String → Gen Unit} {s t : Session}

theorem Appends.grows {α : Type} {g : Gen α} (hg : Appends g) {a : α} (h : g.run s = (.ok a, t)) :
    s.assembly.Grows t.assembly := by
  have hgrows := hg s
  rwa [h] at hgrows

theorem Stmt.Holds.enters (himport : ∀ path, Appends (importer path)) {st : Stmt}
    {enclosure : Enclosure}
    {body : List Stmt} (h : st.Holds enclosure body)
      (hrun : (Gen.statement e importer st).run s = (.ok (), t)) :
    ∃ level s' u, level.enclosure = enclosure ∧ Enters e importer st s level body s' ∧
      (Gen.statements e importer body).run s' = (.ok (), u) ∧ u.assembly.Grows t.assembly := by
  cases h with
  | whileLoop =>
    rw [Gen.statement_whileLoop] at hrun
    obtain ⟨l, s₁, h₁, hrun⟩ := Gen.bind_ok hrun
    obtain ⟨_, s₂, h₂, h₃⟩ := Gen.bind_ok hrun
    exact ⟨_, _, _, rfl, .whileLoop h₁, h₂, (appends.closeWhile _ _ _).grows h₃⟩
  | forLoop =>
    rw [Gen.statement_forLoop] at hrun
    obtain ⟨l, s₁, h₁, hrun⟩ := Gen.bind_ok hrun
    obtain ⟨_, s₂, h₂, hrun⟩ := Gen.bind_ok hrun
    obtain ⟨_, s₃, h₃, h₄⟩ := Gen.bind_ok hrun
    refine ⟨_, _, s₃, rfl, .forLoop h₁, ?_, (appends.closeFor _ _ _).grows h₄⟩
    rw [Gen.statements_append, Gen.run_bind, h₂]
    dsimp only
    rw [Gen.statements, Gen.run_bind, h₃]
    rfl
  | thenBody hst =>
    rw [Gen.statement_effect hst, Gen.effect_ifThen] at hrun
    obtain ⟨after, s₁, h₁, hrun⟩ := Gen.bind_ok hrun
    obtain ⟨_, s₂, h₂, h₃⟩ := Gen.bind_ok hrun
    exact ⟨_, _, _, rfl, .thenBody hst h₁, h₂, (appends.closeArm _ _).grows h₃⟩
  | ifBody hst =>
    rw [Gen.statement_effect hst, Gen.effect_ifElse] at hrun
    obtain ⟨l, s₁, h₁, hrun⟩ := Gen.bind_ok hrun
    obtain ⟨_, s₂, h₂, h₃⟩ := Gen.bind_ok hrun
    refine ⟨_, _, _, rfl, .ifBody hst h₁, h₂, ?_⟩
    exact (appends.bind (appends.closeArm _ _) fun _ =>
      appends.bind (appends.statements _ fun path _ => himport path) fun _ =>
        appends.closeArm _ _).grows h₃
  | elseBody hst =>
    rw [Gen.statement_effect hst, Gen.effect_ifElse] at hrun
    obtain ⟨l, s₁, h₁, hrun⟩ := Gen.bind_ok hrun
    obtain ⟨_, s₂, h₂, hrun⟩ := Gen.bind_ok hrun
    obtain ⟨_, s₃, h₃, hrun⟩ := Gen.bind_ok hrun
    obtain ⟨_, s₄, h₄, h₅⟩ := Gen.bind_ok hrun
    refine ⟨_, s₃, _, rfl, .elseBody hst ?_, h₄, (appends.closeArm _ _).grows h₅⟩
    rw [Gen.run_bind, h₁]
    dsimp only
    rw [Gen.run_bind, h₂]
    exact h₃
  | fnBody =>
    rw [Gen.statement_fn, Gen.run_bind, Gen.run_get] at hrun
    obtain ⟨b, s₁, h₁, hrun⟩ := Gen.bind_ok hrun
    obtain ⟨_, s₂, h₂, h₃⟩ := Gen.bind_ok hrun
    exact ⟨_, _, _, rfl, .fnBody h₁, h₂, (appends.closeRoutine _ _ _).grows h₃⟩

theorem Nested.comesTo (himport : ∀ path, Appends (importer path)) {ss rest : List Stmt}
    {enclosures : List Enclosure}
    (h : Nested ss enclosures rest) (hrun : (Gen.statements e importer ss).run s = (.ok (), t)) :
    ∃ levels s' u, levels.map Level.enclosure = enclosures ∧
      ComesTo e importer ss s levels rest s' ∧
      (Gen.statements e importer rest).run s' = (.ok (), u) ∧ u.assembly.Grows t.assembly := by
  induction h generalizing s t with
  | here => exact ⟨[], s, t, rfl, .here, hrun, .refl _⟩
  | past _ ih =>
    rw [Gen.statements] at hrun
    obtain ⟨_, s₁, h₁, hrun⟩ := Gen.bind_ok hrun
    obtain ⟨levels, s', u, henclosures, harrives, hrest, hgrows⟩ := ih hrun
    exact ⟨levels, s', u, henclosures, .past h₁ harrives, hrest, hgrows⟩
  | into hholds _ ih =>
    rw [Gen.statements] at hrun
    obtain ⟨_, s₁, h₁, hrun⟩ := Gen.bind_ok hrun
    obtain ⟨level, s₂, u₂, rfl, henters, hbody, hgrows₂⟩ := hholds.enters himport h₁
    obtain ⟨levels, s', u, rfl, harrives, hrest, hgrows⟩ := ih hbody
    have hmore := (appends.statements _ fun path _ => himport path).grows hrun
    exact ⟨level :: levels, s', u, rfl, .into henters harrives, hrest, (hgrows.trans hgrows₂).trans
      hmore⟩

end Completeness

section Blocks

variable {e : Edition} {importer : String → Gen Unit} {s t u : Session} {l : LoopBlocks}

theorem moveToStart_empty {q : Place} (h : (Gen.moveToStart q).run s = (.ok (), t)) :
    t.place = some q ∧ t.assembly.code? q = some [] := by
  rw [Gen.run_moveToStart] at h
  split_ifs at h with hempty
  · obtain ⟨-, rfl⟩ := Prod.mk.inj h
    exact ⟨rfl, hempty⟩
  · cases h

/-- The body of a `for` loop begins in its first block, which nothing was written to before. -/
theorem openFor_entry {init : Stmt} (h : (Gen.openFor e importer init).run s = (.ok l, t)) :
    t.place = some l.entry ∧ t.assembly.code? l.entry = some [] := by
  obtain ⟨_, s₁, -, h⟩ := Gen.bind_ok h
  obtain ⟨_, s₂, -, h⟩ := Gen.bind_ok h
  obtain ⟨n, s₃, -, h⟩ := Gen.bind_ok h
  obtain ⟨entry, s₄, -, h⟩ := Gen.bind_ok h
  obtain ⟨exit, s₅, -, h⟩ := Gen.bind_ok h
  obtain ⟨_, s₆, -, h⟩ := Gen.bind_ok (Gen.modify_ok h)
  obtain ⟨_, s₇, h₇, h⟩ := Gen.bind_ok h
  obtain ⟨hl, rfl⟩ := Prod.mk.inj h
  obtain rfl := Except.ok.inj hl
  exact moveToStart_empty h₇

theorem forLoop_exit {init next : Stmt} {c : Expr} {body : List Stmt}
    (h : (Gen.openFor e importer init).run s = (.ok l, t))
    (hrun : (Gen.statement e importer (.forLoop init c next body)).run s = (.ok (), u)) :
    u.place = some l.exit ∧ u.assembly.code? l.exit = some [] := by
  rw [Gen.statement_forLoop, Gen.run_bind, h] at hrun
  obtain ⟨_, s₁, -, hrun⟩ := Gen.bind_ok hrun
  obtain ⟨_, s₂, -, hrun⟩ := Gen.bind_ok hrun
  obtain ⟨_, s₃, h₃, hrun⟩ := Gen.bind_ok hrun
  obtain ⟨_, s₄, -, h₃⟩ := Gen.bind_ok h₃
  obtain ⟨_, s₅, -, h₃⟩ := Gen.bind_ok h₃
  obtain ⟨-, rfl⟩ := Prod.mk.inj hrun
  have hempty := moveToStart_empty h₃
  exact hempty

end Blocks

section Targets

variable {e : Edition} (he : e.has .functions = true) {importer : String → Gen Unit}
  (himport : ∀ path, Disciplined (importer path))

include he himport

theorem Enters.entersFor {st : Stmt} {s t : Session} {l : LoopBlocks} {body : List Stmt}
    (h : Enters e importer st s (.forLoop l) body t) (hs : s.Valid) : t.Valid ∧
      s.EntersFor l t := by
  cases h with
  | forLoop h => exact (openFor_secures (statement_disciplined he himport _) hs).of_run h

/-- A jump inside a `for` loop, with no other `for` loop between them, leads to a block of this
one. -/
theorem ComesTo.target {ss rest : List Stmt} {s t : Session} {outer inner : List Level}
    {l : LoopBlocks}
    (h : ComesTo e importer ss s (outer ++ .forLoop l :: inner) rest t) (hs : s.Valid) (j : Jump) :
    (t.place.map Place.routine = some (j.target l).routine ↔ ∀ name, .routine name ∉ inner) ∧
    ∀ l', .forLoop l' ∈ outer → j.target l ≠ l'.entry ∧ j.target l ≠ l'.exit := by
  obtain ⟨st, more, s', body, t', houter, henters, hinner⟩ := h.split
  have hs' := houter.arrival he himport hs
  obtain ⟨ht', hfor⟩ := henters.entersFor he himport hs'.valid
  have hhas : t'.Has (j.target l) := by
    cases j with
    | breakLoop => exact hfor.exit
    | continueLoop => exact hfor.entry
  refine ⟨⟨fun hroutine name hname => ?_, fun hnone => ?_⟩, fun l' hl' => ?_⟩
  · exact hinner.leaves_routine he himport ht' hhas.1 (.inr ⟨name, hname⟩) hroutine
  · rw [(hinner.arrival he himport ht').routine, hhas.2]
    exact currentRoutine_of_none _ hnone
  · obtain ⟨hcontinues, hbreakpoints⟩ := Loops.mem_inside s.loops hl'
    rw [← hs'.loops] at hcontinues hbreakpoints
    exact ⟨ht'.target_ne hfor.loops j (.inl hcontinues),
      ht'.target_ne hfor.loops j (.inr hbreakpoints)⟩

end Targets

/-- Where `break` and `continue` lead. The body of a `for` loop begins in its first block and what
follows it in its second one, both still empty then. Wherever compiling arrives, however deep
inside, `break` is a jump to the second and `continue` to the first block of the innermost `for`
loop around it: `while` loops do not count, and routines that begin inside the loop do not stop it.
It fails just where there is no such loop or the block has already ended. The target is never a
block of a `for` loop further out, and it is in the routine that is written to just if none begins
between the loop and the jump. In code that compiles, every one of these statements has become such
a jump. -/
theorem jumps_to_innermost_for {e : Edition} (he : e.has .forLoops = true) (files : Files)
    (depth : Nat) {s : Session} (hs : Reachable e s) (ss : List Stmt) :
    let importer := Gen.importer e files depth
    (∀ init s' l t, (Gen.openFor e importer init).run s' = (.ok l, t) →
      (t.place = some l.entry ∧ t.assembly.code? l.entry = some []) ∧
      ∀ c next body u, (Gen.statement e importer (.forLoop init c next body)).run s' = (.ok (), u) →
        u.place = some l.exit ∧ u.assembly.code? l.exit = some []) ∧
    (∀ (j : Jump) levels rest t, ComesTo e importer ss s levels rest t →
      (Gen.statement e importer j.stmt).run t = (Gen.jump (j.goal s.loops levels)).run t ∧
      (((Gen.statement e importer j.stmt).run t).1 = .ok () ↔
        t.IsOpen ∧ (j.goal s.loops levels).isSome = true) ∧
      ∀ outer l inner, levels = outer ++ .forLoop l :: inner → innermost inner = none →
        j.goal s.loops levels = some (j.target l) ∧
        (t.place.map Place.routine = some (j.target l).routine ↔ ∀ name, .routine name ∉ inner) ∧
        ∀ l', .forLoop l' ∈ outer → j.target l ≠ l'.entry ∧ j.target l ≠ l'.exit) ∧
    ∀ (j : Jump) enclosures rest v, Nested ss enclosures (j.stmt :: rest) →
      (Gen.statements e importer ss).run s = (.ok (), v) →
      ∃ levels t p q, levels.map Level.enclosure = enclosures ∧
        ComesTo e importer ss s levels (j.stmt :: rest) t ∧
        t.place = some p ∧ j.goal s.loops levels = some q ∧ v.assembly.EndsIn p q := by
  intro importer
  have hfunctions : e.has .functions = true := Edition.has_of_since_le (by decide) he
  have himport := importer_disciplined hfunctions files depth
  have happends := appends.importer e files depth
  have hvalid := hs.valid hfunctions
  refine ⟨fun init s' l t h => ⟨openFor_entry h, fun c next body u => forLoop_exit h⟩, ?_, ?_⟩
  · intro j levels rest t harrives
    have harrival := harrives.arrival hfunctions himport hvalid
    have hrun : (Gen.statement e importer j.stmt).run t =
        (Gen.jump (j.goal s.loops levels)).run t := by
      rw [Gen.run_jump, harrival.loops, j.head?_stack_inside]
    refine ⟨hrun, ?_, ?_⟩
    · rw [hrun]
      exact jump_ok_iff harrival.valid
    · rintro outer l inner rfl hinner
      refine ⟨?_, harrives.target hfunctions himport hvalid j⟩
      rw [Jump.goal, innermost_append hinner]
      rfl
  · intro j enclosures rest v hnested hrun
    obtain ⟨levels, t, u, henclosures, harrives, hrest, hgrows⟩ := hnested.comesTo happends hrun
    have harrival := harrives.arrival hfunctions himport hvalid
    rw [Gen.statements] at hrest
    obtain ⟨_, u₁, hjump, hrest⟩ := Gen.bind_ok hrest
    rw [Gen.run_jump, harrival.loops, j.head?_stack_inside] at hjump
    obtain ⟨p, q, hp, hq, hends⟩ := jump_ends harrival.valid hjump
    have hmore := (appends.statements rest fun path _ => happends path).grows hrest
    exact ⟨levels, t, p, q, henclosures, harrives, hp, hq, hends.grows (hmore.trans hgrows)⟩

namespace JumpPrograms

/-- The statements in a loop that counts up to nine. -/
def counting (body : List Stmt) : Stmt :=
  .forLoop (.letVar "i" (.int 0) "int") (.infixed (.ident "i") .lt (.int 9))
    (.bare (.stepped (.ident "i") .increment)) body

/-- The statement where the counter is small. -/
def whenSmall (st : Stmt) : Stmt := .expr (.ifThen (.infixed (.ident "i") .lt (.int 5)) [st])

def main (body : List Stmt) : Program := [.fn "main" (some []) (.text "int") body]

def breaking : Program := main [counting [whenSmall .breakLoop], .ret (.int 0)]

/-- A `break` in a routine that begins in the loop. -/
def leaving : Program := main [counting [.fn "inner" (some []) (.text "int") [.breakLoop]],
    .ret (.int 0)]

def compiled (p : Program) : Except Failure Unit × Session :=
  (Gen.statements .latest (Gen.importer .latest ⟨[], []⟩ 1) p).run (.start .latest)

end JumpPrograms

open JumpPrograms

theorem jumps_to_innermost_for_break :
    Edition.latest.has .forLoops = true ∧ Reachable .latest (.start .latest) ∧
    Nested breaking [.routine "main", .forLoop, .branch] [.breakLoop] ∧
      (compiled breaking).1 = .ok () ∧
    ∃ l t q, ComesTo .latest (Gen.importer .latest ⟨[], []⟩ 1) breaking (.start .latest)
        [.routine "main", .forLoop l, .branch] [.breakLoop] t ∧
      t.place = some q ∧ q.routine = l.exit.routine ∧
        (compiled breaking).2.assembly.EndsIn q l.exit := by
  have hnested : Nested breaking [.routine "main", .forLoop, .branch] [.breakLoop] :=
    .into .fnBody (.into .forLoop (.into (.thenBody rfl) .here))
  have hok : (compiled breaking).1 = .ok () := by decide +kernel
  have hpair : ∀ r : Except Failure Unit × Session, r.1 = .ok () → r = (.ok (), r.2) :=
    fun r h => Prod.ext h rfl
  have hrun := hpair _ hok
  refine ⟨Edition.latest_has _, .start, hnested, hok, ?_⟩
  obtain ⟨-, harrived, hcompiled⟩ := jumps_to_innermost_for (Edition.latest_has _) ⟨[], []⟩ 1 .start
    breaking
  obtain ⟨levels, t, q, target, henclosures, harrives, hq, hgoal, hends⟩ :=
    hcompiled .breakLoop _ _ _ hnested hrun
  obtain ⟨level₁, levels, rfl, h₁, henclosures⟩ := List.map_eq_cons_iff.mp henclosures
  obtain ⟨level₂, levels, rfl, h₂, henclosures⟩ := List.map_eq_cons_iff.mp henclosures
  obtain ⟨level₃, levels, rfl, h₃, henclosures⟩ := List.map_eq_cons_iff.mp henclosures
  obtain rfl := List.map_eq_nil_iff.mp henclosures
  cases level₁ <;> cases h₁
  cases level₃ <;> cases h₃
  obtain ⟨l, rfl⟩ : ∃ l, level₂ = .forLoop l := by
    cases level₂ with
    | forLoop l => exact ⟨l, rfl⟩
    | _ => cases h₂
  obtain ⟨-, -, hlast⟩ := harrived .breakLoop _ _ t harrives
  obtain ⟨hgoal', hroutine, -⟩ := hlast [.routine "main"] l [.branch] rfl rfl
  obtain rfl := Option.some.inj (hgoal.symm.trans hgoal')
  refine ⟨l, t, q, harrives, hq, ?_, hends⟩
  rw [hq] at hroutine
  exact Option.some.inj (hroutine.mpr (by simp))

/-- A `while` loop is no loop for `break`: alone it makes `break` fail, and inside a `for` loop
`break` leaves both. From a routine that begins in a `for` loop, `break` jumps to a block that this
routine does not have. And `continue` jumps back to the start of the body, before the step and the
test. -/
theorem jumps_miss_the_loop :
    (compiled (main [.letVar "i" (.int 0) "int", .whileLoop (.infixed (.ident "i") .lt (.int 9))
      [whenSmall .breakLoop]])).1 = .error .noLoop ∧
    (compiled (main [counting [.whileLoop (.infixed (.ident "i") .lt (.int 9))
      [whenSmall .breakLoop]],
      .ret (.int 0)])).2.assembly.EndsIn ⟨"main", "while_loop_entry_2.if"⟩
        ⟨"main", "for_loop_otherwise_1"⟩ ∧
    (compiled leaving).2.assembly.EndsIn ⟨"inner", "inner_entry"⟩ ⟨"main", "for_loop_otherwise_1"⟩ ∧
    (compiled leaving).2.assembly.code? ⟨"inner", "for_loop_otherwise_1"⟩ = none ∧
    (compiled (main [counting [whenSmall .continueLoop], .ret (.int 0)])).2.assembly.EndsIn
      ⟨"main", "for_loop_entry_1.if"⟩ ⟨"main", "for_loop_entry_1"⟩ := by
  refine ⟨by decide +kernel, ⟨[], ".11", [], by decide +kernel, by simp⟩,
    ⟨[], ".2", [], by decide +kernel, by simp⟩, by decide +kernel,
    ⟨[], ".8", [], by decide +kernel, by simp⟩⟩

end LimeLang
