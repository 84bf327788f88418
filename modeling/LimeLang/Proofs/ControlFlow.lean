import LimeLang.Proofs.Growth

/-! The control flow that structured programs are compiled to. At every moment one block is open
in each routine that is being compiled, besides those where conditionals and loops go on. -/

namespace LimeLang

open Code

variable {s : Session} {opens : List Place} {name : String} {p : Place} {is : List Instr}
  {a : Assembly} {q : Place} {β : Type} {Q : β → Session → Prop} {n : Nat}

/-- Statements after which control does not go on to the next one. -/
def Stmt.leaves : Stmt → Bool
  | .ret _ | .breakLoop | .continueLoop => true
  | _ => false

def leavesAtEnd : List Stmt → Bool
  | [] => false
  | [s] => s.leaves
  | _ :: ss => leavesAtEnd ss

def endsInReturn (ss : List Stmt) : Bool :=
  match ss.getLast? with
  | some (.ret _) => true
  | _ => false

mutual

/-- Conditionals count only where they are statements. -/
def Expr.isStructured (inLoop : Bool) : Expr → Bool
  | .ifThen _ body => areStructured inLoop body
  | .ifElse _ body alternative => areStructured inLoop body && areStructured inLoop alternative
  | _ => true

/-- Functions end in a return, loops go round, and jumps stand inside of a loop of their function.
Nothing is imported. -/
def Stmt.isStructured (inLoop : Bool) : Stmt → Bool
  | .expr x | .bare x => x.isStructured inLoop
  | .fn _ _ _ body => areStructured false body && endsInReturn body
  | .whileLoop _ body => areStructured inLoop body && !leavesAtEnd body
  | .forLoop init _ next body =>
    init.isStructured inLoop && !init.leaves && (areStructured true body && !leavesAtEnd body) &&
      (next.isStructured true && !next.leaves)
  | .breakLoop | .continueLoop => inLoop
  | .importPallet _ => false
  | _ => true

/-- Nothing follows a statement that leaves. -/
def areStructured (inLoop : Bool) : List Stmt → Bool
  | [] => true
  | s :: ss => s.isStructured inLoop && areStructured inLoop ss && (ss.isEmpty || !s.leaves)

end

mutual

def Expr.blockCount : Expr → Nat
  | .ifThen _ body => 2 + blockCount body
  | .ifElse _ body alternative => 3 + blockCount body + blockCount alternative
  | _ => 0

def Stmt.blockCount : Stmt → Nat
  | .expr x | .bare x => x.blockCount
  | .whileLoop _ body => 2 + blockCount body
  | .forLoop init _ next body => 2 + init.blockCount + blockCount body + next.blockCount
  | _ => 0

def blockCount : List Stmt → Nat
  | [] => 0
  | s :: ss => s.blockCount + blockCount ss

end

mutual

def Expr.routines : Expr → List (String × Nat)
  | .ifThen _ body => routines body
  | .ifElse _ body alternative => routines body ++ routines alternative
  | _ => []

/-- The routines that a statement declares, in order, with the numbers of their blocks: an entry
and the blocks of their own conditionals and loops. -/
def Stmt.routines : Stmt → List (String × Nat)
  | .expr x | .bare x => x.routines
  | .fn name _ _ body => (name, 1 + blockCount body) :: routines body
  | .whileLoop _ body => routines body
  | .forLoop init _ next body => init.routines ++ routines body ++ next.routines
  | _ => []

def routines : List Stmt → List (String × Nat)
  | [] => []
  | s :: ss => s.routines ++ routines ss

end

def grownIn (routine : Option String) (n : Nat) (shape : List (String × Nat)) :
    List (String × Nat) :=
  routine.elim shape fun name => grown name n shape

/-- From one session to a later one in the same routine: `n` blocks and the routines `ds` are
new. -/
structure Session.Progress (n : Nat) (ds : List (String × Nat)) (s t : Session) : Prop where
  routine : t.place.map Place.routine = s.place.map Place.routine
  loops : t.loops = s.loops
  shape : t.assembly.shape = grownIn (s.place.map Place.routine) n s.assembly.shape ++ ds
  fresh : ∀ d ∈ ds, s.assembly.item? d.1 = none
  code : ∀ q, (s.assembly.code? q).isSome = true → (t.assembly.code? q).isSome = true
  items : ∀ m, (s.assembly.item? m).isSome = true → (t.assembly.item? m).isSome = true

def Session.Placed (s : Session) : Prop :=
  ∀ name, s.place.map Place.routine = some name → (s.assembly.item? name).isSome = true

theorem WellFormed.placed (h : WellFormed (s.place.toList ++ opens) s.assembly) : s.Placed := by
  intro name hname
  obtain ⟨p, hp, rfl⟩ := Option.map_eq_some_iff.mp hname
  obtain ⟨r, hr⟩ := h.routine_of_mem (show p ∈ s.place.toList ++ opens by simp [hp])
  simp [Assembly.routine?_eq_some.mp hr]

theorem grown_grown (name : String) (m n : Nat) (shape : List (String × Nat)) :
    grown name n (grown name m shape) = grown name (m + n) shape := by
  rw [grown, grown, grown, List.map_map]
  apply List.map_congr_left
  intro d _
  by_cases h : d.1 = name
  · simp [h, Nat.add_assoc]
  · simp [h]

theorem grown_of_forall_ne {shape : List (String × Nat)} (h : ∀ d ∈ shape, d.1 ≠ name) :
    grown name n shape = shape := by
  rw [grown]
  conv_rhs => rw [← List.map_id shape]
  apply List.map_congr_left
  intro d hd
  simp [h d hd]

theorem grown_append (name : String) (n : Nat) (shape shape' : List (String × Nat)) :
    grown name n (shape ++ shape') = grown name n shape ++ grown name n shape' := by
  simp [grown]

theorem item?_eq_none_of_kept {a b : Assembly}
    (hkept : (a.item? name).isSome = true → (b.item? name).isSome = true)
    (hb : b.item? name = none) : a.item? name = none := by
  cases ha : a.item? name with
  | none => rfl
  | some i => simp [ha, hb] at hkept

namespace Session.Progress

variable {s t u : Session} {m n : Nat} {ds es : List (String × Nat)}

theorem of_keeps (h : s.Keeps t) : s.Progress 0 [] t where
  routine := by rw [h.place]
  loops := h.loops
  shape := by
    rw [h.shape, List.append_nil]
    cases s.place with
    | none => rfl
    | some p => exact (grown_zero _ _).symm
  fresh := by simp
  code := h.code
  items := h.items

theorem trans (hs : s.Placed) (h : s.Progress m ds t) (h' : t.Progress n es u) :
    s.Progress (m + n) (ds ++ es) u where
  routine := h'.routine.trans h.routine
  loops := h'.loops.trans h.loops
  shape := by
    rw [h'.shape, h.routine, h.shape]
    cases hp : s.place.map Place.routine with
    | none => simp [grownIn]
    | some name =>
      have hne : ∀ d ∈ ds, d.1 ≠ name := by
        intro d hd heq
        have hnone := h.fresh d hd
        rw [heq] at hnone
        simpa [hnone] using hs name hp
      simp only [grownIn, Option.elim_some]
      rw [grown_append, grown_grown, grown_of_forall_ne hne, List.append_assoc]
  fresh := by
    intro d hd
    rcases List.mem_append.mp hd with hd | hd
    · exact h.fresh d hd
    · exact item?_eq_none_of_kept (h.items d.1) (h'.fresh d hd)
  code := fun q hq => h'.code q (h.code q hq)
  items := fun k hk => h'.items k (h.items k hk)

theorem placed (hs : s.Placed) (h : s.Progress n ds t) : t.Placed :=
  fun name hname => h.items name (hs name (h.routine ▸ hname))

end Session.Progress

def Session.LoopReady (s : Session) : Prop :=
  ∀ p, s.place = some p → ∃ entry exit, ∃ outer : Loops, s.loops = outer.enter entry exit ∧
    ∀ q ∈ [entry, exit], q.routine = p.routine ∧ (s.assembly.code? q).isSome = true

theorem Session.LoopReady.progress {s t : Session} {ds : List (String × Nat)} (h : s.LoopReady)
    (hst : s.Progress n ds t) : t.LoopReady := by
  intro p hp
  have hr := hst.routine
  rw [hp, Option.map_some, eq_comm, Option.map_eq_some_iff] at hr
  obtain ⟨q, hq, hqp⟩ := hr
  obtain ⟨entry, exit, outer, hl, hl'⟩ := h q hq
  refine ⟨entry, exit, outer, hst.loops.trans hl, fun k hk => ?_⟩
  obtain ⟨hkr, hkc⟩ := hl' k hk
  exact ⟨hkr.trans hqp, hst.code k hkc⟩

/-- Behind a statement that leaves, the current block is closed; otherwise it is open. -/
def Standing (leaves : Bool) (opens : List Place) (t : Session) : Prop :=
  if leaves then WellFormed opens t.assembly ∧
    ∀ p, t.place = some p → (t.assembly.code? p).isSome = true ∧ p ∉ opens
  else WellFormed (t.place.toList ++ opens) t.assembly

def Runs (inLoop leaves : Bool) (n : Nat) (ds : List (String × Nat)) (g : Gen Unit) : Prop :=
  ∀ (opens : List Place) (s : Session), WellFormed (s.place.toList ++ opens) s.assembly →
    (inLoop = true → s.LoopReady) →
      Ensures g s fun _ t => s.Progress n ds t ∧ Standing leaves opens t

namespace Runs

variable {α : Type} {inLoop leaves : Bool} {m n : Nat} {ds es : List (String × Nat)}

theorem of_plain {g : Gen Unit} (h : Plain g) : Runs inLoop false 0 [] g :=
  fun opens s hs _ => (h opens s hs).mono fun _ _ ht => ⟨.of_keeps ht.1, ht.2⟩

theorem plain_bind {x : Gen α} {f : α → Gen Unit} (hx : Plain x)
    (hf : ∀ a, Runs inLoop leaves n ds (f a)) : Runs inLoop leaves n ds (x >>= f) := by
  intro opens s hs hloop
  refine .bind ((hx opens s hs).mono fun a t ht => ?_)
  have hst := Session.Progress.of_keeps ht.1
  refine (hf a opens t ht.2 fun h => (hloop h).progress hst).mono fun _ u hu => ⟨?_, hu.2⟩
  simpa using hst.trans hs.placed hu.1

theorem bind {x g : Gen Unit} (hx : Runs inLoop false m ds x) (hg : Runs inLoop leaves n es g) :
    Runs inLoop leaves (m + n) (ds ++ es) (x >>= fun _ => g) := by
  intro opens s hs hloop
  refine .bind ((hx opens s hs hloop).mono fun _ t ht => ?_)
  refine (hg opens t ht.2 fun h => (hloop h).progress ht.1).mono fun _ u hu => ⟨?_, hu.2⟩
  exact ht.1.trans hs.placed hu.1

end Runs

theorem leave_spec {op : Op} (hop : op.isTerminator = true)
    (hs : WellFormed (s.place.toList ++ opens) s.assembly)
    (ht : ∀ p, s.place = some p → ∀ t ∈ op.targets,
      (s.assembly.code? ⟨p.routine, t⟩).isSome = true) :
    Ensures (do let _ ← Gen.emit op) s fun _ t => s.Progress 0 [] t ∧ Standing true opens t := by
  refine .bind ((emit_terminator hop hs ht).mono fun _ t h => ?_)
  refine ⟨.of_keeps h.1, h.2, fun p hp => ?_⟩
  rw [h.1.place] at hp
  rw [hp] at hs
  exact ⟨h.1.code p (hs.isSome_code List.mem_cons_self), (List.nodup_cons.mp hs.nodup).1⟩

theorem addBlock_spec (h : WellFormed opens s.assembly) :
    Ensures (Gen.addBlock name) s fun q t => ∃ p, s.place = some p ∧ q.routine = p.routine ∧
      t.place = s.place ∧ s.Progress 1 [] t ∧ WellFormed (q :: opens) t.assembly := by
  refine .get ?_
  cases hp : s.place with
  | none => exact .throw (by simp) h
  | some p =>
    refine (addBlockTo_spec h).mono fun q t ht => ⟨p, rfl, ht.1, ?_⟩
    obtain ⟨-, heq, hshape, hcode, hitems, hwf⟩ := ht
    have hplace : t.place = some p := by rw [heq]; exact hp
    have hloops : t.loops = s.loops := by rw [heq]
    refine ⟨hplace, ⟨by rw [hplace, hp], hloops, ?_, by simp, hcode, hitems⟩, hwf⟩
    rw [hshape, hp, List.append_nil]
    rfl

theorem endsOnce_any (h : endsOnce is = true) : is.any (·.op.isTerminator) = true := by
  induction is with
  | nil => simp [endsOnce] at h
  | cons i is ih =>
    cases is with
    | nil => simpa [endsOnce] using h
    | cons j is =>
      rw [endsOnce_cons_cons, Bool.and_eq_true] at h
      simpa using Or.inr (by simpa using ih h.2)

theorem branch_spec (hp : s.place = some p) (hq : q.routine = p.routine)
    (hcode : (s.assembly.code? q).isSome = true) (h : WellFormed (p :: opens) s.assembly) :
    Ensures (Gen.branch q) s fun _ t => s.Keeps t ∧ WellFormed opens t.assembly := by
  refine .bind ((emit_terminator rfl (by rw [hp]; exact h) ?_).mono fun _ t ht => ht)
  intro p' hp' t ht
  obtain rfl : p = p' := Option.some.inj (hp.symm.trans hp')
  rw [List.mem_singleton.mp ht, ← hq]
  exact hcode

theorem branchOn_spec {c : Option Operand} {q q' : Place} (hp : s.place = some p)
    (hq : q.routine = p.routine) (hq' : q'.routine = p.routine)
    (hcode : (s.assembly.code? q).isSome = true) (hcode' : (s.assembly.code? q').isSome = true)
    (h : WellFormed (p :: opens) s.assembly) :
    Ensures (Gen.branchOn c q q') s fun _ t => s.Keeps t ∧ WellFormed opens t.assembly := by
  refine .bind ((emit_terminator rfl (by rw [hp]; exact h) ?_).mono fun _ t ht => ht)
  intro p' hp' t ht
  obtain rfl : p = p' := Option.some.inj (hp.symm.trans hp')
  rcases List.mem_cons.mp ht with rfl | ht
  · rw [← hq]
    exact hcode
  · rw [List.mem_singleton.mp ht, ← hq']
    exact hcode'

theorem closeWith_spec {leaves : Bool} (hp : s.place = some p) (hq : q.routine = p.routine)
    (hmem : q ∈ opens) (h : Standing leaves opens s) :
    Ensures (Gen.closeWith q) s fun _ t => s.Keeps t ∧ WellFormed opens t.assembly := by
  refine .get ?_
  simp only [hp]
  refine .bind ?_
  rw [Ensures, Gen.run_isTerminated]
  cases leaves with
  | true =>
    obtain ⟨hwf, hclosed⟩ := h
    obtain ⟨hsome, hnot⟩ := hclosed p hp
    obtain ⟨is, his⟩ := Option.isSome_iff_exists.mp hsome
    have hany := endsOnce_any (hwf.closed p is his hnot)
    simp only [his, Option.any_some, hany, Bool.not_true, Bool.false_eq_true, if_false]
    exact ⟨.refl s, hwf⟩
  | false =>
    have hwf : WellFormed (p :: opens) s.assembly := by
      simpa [Standing, hp] using h
    obtain ⟨is, his, hi⟩ := hwf.opened p List.mem_cons_self
    have hany : is.any (·.op.isTerminator) = false := by simpa using hi
    simp only [his, Option.any_some, hany, Bool.not_false, if_true]
    exact branch_spec hp hq (hwf.isSome_code (List.mem_cons_of_mem _ hmem)) hwf

theorem Session.Progress.moveTo {p q : Place} (hp : s.place = some p) (hq : q.routine = p.routine) :
    s.Progress 0 [] { s with place := some q } where
  routine := by simp [hp, hq]
  loops := rfl
  shape := by
    rw [hp, List.append_nil]
    exact (grown_zero _ _).symm
  fresh := by simp
  code := fun _ h => h
  items := fun _ h => h

theorem Session.Progress.place_eq {s t : Session} {ds : List (String × Nat)}
    (h : s.Progress n ds t) (hp : s.place = some p) :
    ∃ q, t.place = some q ∧ q.routine = p.routine := by
  have hr := h.routine
  rw [hp, Option.map_some, Option.map_eq_some_iff] at hr
  exact hr

theorem Ensures.arm {inLoop leaves : Bool} {ds : List (String × Nat)} {g k : Gen Unit}
    (hg : Runs inLoop leaves n ds g) {p q after : Place} {Q : Unit → Session → Prop}
    (hp : s.place = some p) (hq : q.routine = p.routine) (ha : after.routine = p.routine)
    (hmem : after ∈ opens) (hwf : WellFormed (q :: opens) s.assembly)
    (hloop : inLoop = true → s.LoopReady)
    (hk : ∀ t, s.Progress n ds t → WellFormed opens t.assembly → Ensures k t Q) :
    Ensures (Gen.moveTo (some q) >>= fun _ => g >>= fun _ => Gen.closeWith after >>= fun _ => k) s
      Q := by
  have hmove := Session.Progress.moveTo hp hq
  have hplaced : s.Placed := by
    intro name hname
    rw [hp, Option.map_some, Option.some.injEq] at hname
    obtain ⟨r, hr⟩ := hwf.routine_of_mem List.mem_cons_self
    rw [← hname, ← hq, Assembly.routine?_eq_some.mp hr]
    rfl
  refine .bind ?_
  refine .bind ((hg opens { s with place := some q } hwf fun h => (hloop h).progress hmove).mono
    fun _ t ht => ?_)
  obtain ⟨p', hp', hr'⟩ := ht.1.place_eq rfl
  have hst : s.Progress n ds t := by simpa using hmove.trans hplaced ht.1
  refine .bind ((closeWith_spec hp' (ha.trans (hq.symm.trans hr'.symm)) hmem ht.2).mono
    fun _ u hu => ?_)
  exact hk u (by simpa using hst.trans hplaced (.of_keeps hu.1)) hu.2

theorem Ensures.moveToStart {Q : Unit → Session → Prop} (h : WellFormed opens s.assembly)
    (hQ : Q () { s with place := some q }) : Ensures (Gen.moveToStart q) s Q := by
  rw [Ensures, Gen.run_moveToStart]
  split_ifs
  · exact hQ
  · exact ⟨by simp, opens, h⟩

theorem Ensures.branchPlace {f : Place → Gen β} (h : WellFormed opens s.assembly)
    (hf : ∀ p, s.place = some p → Ensures (f p) s Q) : Ensures (Gen.branchPlace >>= f) s Q := by
  refine .bind (.get ?_)
  cases hp : s.place with
  | none => exact .throw (by simp) h
  | some p => exact hf p hp

theorem Ensures.addBlock {f : Place → Gen β} (h : WellFormed opens s.assembly)
    (hf : ∀ p q t, s.place = some p → t.place = some p → q.routine = p.routine → s.Progress 1 [] t →
      WellFormed (q :: opens) t.assembly → Ensures (f q) t Q) :
    Ensures (Gen.addBlock name >>= f) s Q := by
  refine .bind ((addBlock_spec h).mono fun q t ht => ?_)
  obtain ⟨p, hp, hq, hplace, hst, hwf⟩ := ht
  exact hf p q t hp (hplace.trans hp) hq hst hwf

theorem Ensures.addBlocks {name name' : String} {k : Place → Place → Gen β}
    (hs : WellFormed (s.place.toList ++ opens) s.assembly)
    (hk : ∀ p q q' t, t.place = some p → q.routine = p.routine → q'.routine = p.routine →
      s.Progress 2 [] t → WellFormed (p :: q :: q' :: opens) t.assembly → Ensures (k q q') t Q) :
    Ensures (Gen.addBlock name >>= fun q => Gen.addBlock name' >>= fun q' => k q q') s Q := by
  refine .addBlock hs fun p q t hp ht hq hst hwf => ?_
  refine .addBlock hwf fun p' q' u hp' hu hq' htu hwf' => ?_
  obtain rfl : p = p' := Option.some.inj (ht.symm.trans hp')
  rw [hp] at hwf'
  exact hk p q q' u hu hq hq' (hst.trans hs.placed htu)
    (hwf'.perm ((List.reverse_perm [p, q, q']).append_right opens))

theorem Ensures.fork {name name' : String} {c : Option Operand} {k : Place → Place → Gen β}
    (hs : WellFormed (s.place.toList ++ opens) s.assembly)
    (hk : ∀ p q q' t, t.place = some p → q.routine = p.routine → q'.routine = p.routine →
      s.Progress 2 [] t → WellFormed (q :: q' :: opens) t.assembly → Ensures (k q q') t Q) :
    Ensures (Gen.addBlock name >>= fun q => Gen.addBlock name' >>= fun q' =>
      Gen.branchOn c q q' >>= fun _ => k q q') s Q := by
  refine .addBlocks hs fun p q q' t ht hq hq' hst hwf => ?_
  refine .bind ((branchOn_spec ht hq hq' (hwf.isSome_code (by simp)) (hwf.isSome_code (by simp))
    hwf).mono fun _ u hu => ?_)
  exact hk p q q' u (hu.1.place.trans ht) hq hq' (hst.trans hs.placed (.of_keeps hu.1)) hu.2

section Statements

variable {e : Edition} {importer : String → Gen Unit} {inLoop leaves leaves' : Bool} {m n k : Nat}
  {ds es fs : List (String × Nat)} {c : Expr} {body alternative : List Stmt}

theorem ifThen_runs (hbody : Runs inLoop leaves n ds (Gen.statements e importer body)) :
    Runs inLoop false (2 + n) ds (Gen.effect e importer (.ifThen c body)) := by
  rw [Gen.effect]
  refine .plain_bind (plain.value e c) fun test opens s hs hloop => ?_
  refine .branchPlace hs fun _ _ => ?_
  have hplaced := hs.placed
  refine .fork hs fun p q after t ht hq ha hst hwf => ?_
  refine .arm hbody ht hq ha List.mem_cons_self hwf (fun h => (hloop h).progress hst)
    fun u htu hwf' => ?_
  obtain ⟨p', hp', hr'⟩ := htu.place_eq ht
  have hsu : s.Progress (2 + n) ds u := by simpa using hst.trans hplaced htu
  refine ⟨?_, hwf'⟩
  simpa using hsu.trans hplaced (.moveTo hp' (ha.trans hr'.symm))

theorem ifElse_runs (hbody : Runs inLoop leaves m ds (Gen.statements e importer body))
    (halt : Runs inLoop leaves' n es (Gen.statements e importer alternative)) :
    Runs inLoop false (3 + m + n) (ds ++ es)
      (Gen.effect e importer (.ifElse c body alternative)) := by
  rw [Gen.effect]
  refine .plain_bind (plain.value e c) fun test opens s hs hloop => ?_
  refine .branchPlace hs fun _ _ => ?_
  have hplaced := hs.placed
  refine .addBlocks hs fun p q q' u hu hq hq' hsu hwf => ?_
  refine .addBlock hwf fun p₁ after v hp₁ hv ha huv hwf => ?_
  obtain rfl : p = p₁ := Option.some.inj (hu.symm.trans hp₁)
  have hsv : s.Progress 3 [] v := hsu.trans hplaced huv
  have hperm : WellFormed (p :: q :: q' :: after :: opens) v.assembly :=
    hwf.perm ((List.perm_append_singleton after [p, q, q']).symm.append_right opens)
  refine .bind ((branchOn_spec hv hq hq' (hperm.isSome_code (by simp)) (hperm.isSome_code (by simp))
    hperm).mono fun _ w hw => ?_)
  have hsw : s.Progress 3 [] w := hsv.trans hplaced (.of_keeps hw.1)
  have hw' : w.place = some p := hw.1.place.trans hv
  refine .arm hbody hw' hq ha (by simp) hw.2 (fun h => (hloop h).progress hsw) fun x hwx hwf => ?_
  obtain ⟨p₄, hp₄, hr₄⟩ := hwx.place_eq hw'
  have hsx : s.Progress (3 + m) ds x := by simpa using hsw.trans hplaced hwx
  refine .arm halt hp₄ (hq'.trans hr₄.symm) (ha.trans hr₄.symm) (by simp) hwf
    (fun h => (hloop h).progress hsx) fun y hxy hwf => ?_
  obtain ⟨p₅, hp₅, hr₅⟩ := hxy.place_eq hp₄
  have hsy : s.Progress (3 + m + n) (ds ++ es) y := hsx.trans hplaced hxy
  refine ⟨?_, hwf⟩
  simpa using hsy.trans hplaced (.moveTo hp₅ (ha.trans (hr₅.trans hr₄).symm))

/-- At the start of the body of a loop. The block behind the loop is open as well. -/
structure Session.AtBody (l : LoopBlocks) (opens : List Place) (s : Session) : Prop where
  place : s.place = some l.entry
  routine : l.exit.routine = l.entry.routine
  wellFormed : WellFormed (l.entry :: l.exit :: opens) s.assembly

theorem Session.AtBody.standing {l : LoopBlocks} (h : s.AtBody l opens) :
    WellFormed (s.place.toList ++ l.exit :: opens) s.assembly := by
  rw [h.place]
  exact h.wellFormed

theorem openWhile_spec (hs : WellFormed (s.place.toList ++ opens) s.assembly) :
    Ensures (Gen.openWhile e c) s fun l t => s.Progress 2 [] t ∧ t.AtBody l opens := by
  refine .bind ((plain.value e c opens s hs).mono fun test t ht => ?_)
  refine .bind ((plain.countUp opens t ht.2).mono fun number u hu => ?_)
  have hsu : s.Progress 0 [] u := .of_keeps (ht.1.trans hu.1)
  refine .fork hu.2 fun p entry exit v hv hq hq' huv hwf => ?_
  have hsv : s.Progress 2 [] v := hsu.trans hs.placed huv
  refine .bind (.moveToStart hwf ?_)
  exact ⟨hsv.trans hs.placed (.moveTo hv hq), rfl, hq'.trans hq.symm, hwf⟩

/-- Whatever was done in the body, the loop goes round or out. -/
theorem closeWhile_spec {s t : Session} {l : LoopBlocks} (h : s.AtBody l opens)
    (hst : s.Progress n ds t) (ht : Standing false (l.exit :: opens) t) :
    Ensures (Gen.closeWhile e c l) t fun _ u => s.Progress n ds u ∧ Standing false opens u := by
  have hplaced := h.standing.placed
  obtain ⟨p, hp, hr⟩ := hst.place_eq h.place
  have hexit : l.exit.routine = p.routine := h.routine.trans hr.symm
  have hentry := hst.code _ (h.wellFormed.isSome_code List.mem_cons_self)
  refine .bind ((plain.value e c (l.exit :: opens) t ht).mono fun test u hu => ?_)
  have hup : u.place = some p := hu.1.place.trans hp
  have hwf : WellFormed (p :: l.exit :: opens) u.assembly := by simpa [hup] using hu.2
  refine .bind ((branchOn_spec hup hr.symm hexit (hu.1.code _ hentry) (hwf.isSome_code (by simp))
    hwf).mono fun _ v hv => ?_)
  have htv := hu.1.trans hv.1
  have hsv : s.Progress n ds v := by simpa using hst.trans hplaced (.of_keeps htv)
  refine .moveToStart hv.2 ⟨?_, hv.2⟩
  simpa using hsv.trans hplaced (.moveTo (htv.place.trans hp) hexit)

theorem whileLoop_runs (hbody : Runs inLoop false n ds (Gen.statements e importer body)) :
    Runs inLoop false (2 + n) ds (Gen.statement e importer (.whileLoop c body)) := by
  intro opens s hs hloop
  rw [Gen.statement_whileLoop]
  refine .bind ((openWhile_spec hs).mono fun l t ht => ?_)
  obtain ⟨hst, hat⟩ := ht
  refine .bind ((hbody (l.exit :: opens) t hat.standing fun h => (hloop h).progress hst).mono
    fun _ u hu => ?_)
  refine (closeWhile_spec hat hu.1 hu.2).mono fun _ v hv => ⟨?_, hv.2⟩
  exact hst.trans hs.placed hv.1

theorem Session.Progress.out_of_loop {s t : Session} {entry exit : Place}
    (h : ({ s with loops := s.loops.enter entry exit } : Session).Progress n ds t) :
    s.Progress n ds { t with loops := t.loops.leave } where
  routine := h.routine
  loops := by rw [h.loops]; rfl
  shape := h.shape
  fresh := h.fresh
  code := h.code
  items := h.items

theorem Session.LoopReady.enter {p entry exit : Place} (hp : s.place = some p)
    (hentry : entry.routine = p.routine) (hexit : exit.routine = p.routine)
    (hwf : WellFormed (p :: entry :: exit :: opens) s.assembly) :
    ({ s with loops := s.loops.enter entry exit } : Session).LoopReady := by
  intro p' hp'
  obtain rfl : p = p' := Option.some.inj (hp.symm.trans hp')
  refine ⟨entry, exit, s.loops, rfl, fun q hq => ⟨?_, hwf.isSome_code ?_⟩⟩
  · rcases List.mem_cons.mp hq with rfl | hq
    · exact hentry
    · exact List.mem_singleton.mp hq ▸ hexit
  · exact List.mem_cons_of_mem _ (List.mem_append_left opens hq)

theorem startFor_spec (hs : WellFormed (s.place.toList ++ opens) s.assembly) :
    Ensures Gen.startFor s fun l t => t.AtBody l opens ∧ t.LoopReady ∧
      ∀ n ds u, t.Progress n ds u → s.Progress (2 + n) ds { u with loops := u.loops.leave } := by
  refine .bind ((plain.countUp opens s hs).mono fun number t ht => ?_)
  refine .addBlocks ht.2 fun p entry exit u hu hq hq' htu hwf => ?_
  have hsu : s.Progress 2 [] u := (Session.Progress.of_keeps ht.1).trans hs.placed htu
  -- From here on the session has one loop more.
  let inside : Session := { u with loops := u.loops.enter entry exit }
  have hplaced : inside.Placed := show u.Placed from hsu.placed hs.placed
  refine .bind (show Ensures _ inside _ from ?_)
  refine .bind ((branch_spec (s := inside) hu hq (hwf.isSome_code (by simp)) hwf).mono fun _ v hv =>
    ?_)
  have hiv : inside.Progress 0 [] { v with place := some entry } :=
    (Session.Progress.of_keeps hv.1).trans hplaced (.moveTo (hv.1.place.trans hu) hq)
  refine .bind (.moveToStart hv.2 ?_)
  refine ⟨⟨rfl, hq'.trans hq.symm, hv.2⟩, (Session.LoopReady.enter hu hq hq' hwf).progress hiv,
    fun n ds w hw => ?_⟩
  have hiw : inside.Progress n ds w := by simpa using hiv.trans hplaced hw
  exact hsu.trans hs.placed hiw.out_of_loop

theorem forLoop_runs {init next : Stmt}
    (hinit : Runs inLoop false k fs (Gen.statement e importer init))
    (hbody : Runs true false n ds (Gen.statements e importer body))
    (hnext : Runs true false m es (Gen.statement e importer next)) :
    Runs inLoop false (2 + k + n + m) (fs ++ ds ++ es)
      (Gen.statement e importer (.forLoop init c next body)) := by
  have hrest : Runs inLoop false (2 + (n + m)) (ds ++ es) (do
      let l ← Gen.startFor
      Gen.statements e importer body
      Gen.statement e importer next
      Gen.closeFor e c l) := by
    intro opens s hs _
    refine .bind ((startFor_spec hs).mono fun l t ht => ?_)
    obtain ⟨hat, hready, hout⟩ := ht
    refine .bind ((hbody (l.exit :: opens) t hat.standing fun _ => hready).mono fun _ u hu => ?_)
    refine .bind ((hnext (l.exit :: opens) u hu.2 fun _ => hready.progress hu.1).mono fun _ v hv =>
      ?_)
    have htv : t.Progress (n + m) (ds ++ es) v := hu.1.trans hat.standing.placed hv.1
    exact .bind ((closeWhile_spec hat htv hv.2).mono fun _ w hw => ⟨hout _ _ w hw.1, hw.2⟩)
  rw [Gen.statement_forLoop]
  simp only [Gen.openFor, bind_assoc]
  rw [show 2 + k + n + m = k + (2 + (n + m)) by omega, List.append_assoc]
  exact .plain_bind plain.enterScope fun _ => hinit.bind hrest

theorem item?_of_mem_shape {d : String × Nat} (hd : d ∈ a.shape) : (a.item? d.1).isSome = true := by
  obtain ⟨i, hi, heq⟩ := List.mem_filterMap.mp hd
  cases i with
  | constant c => simp at heq
  | routine r =>
    obtain rfl : (r.name, r.blocks.length) = d := Option.some.inj heq
    rw [Assembly.item?, List.find?_isSome]
    exact ⟨_, hi, by simp [Item.name]⟩

theorem ne_of_mem_shape (hfree : a.item? name = none) : ∀ d ∈ a.shape, d.1 ≠ name := by
  rintro d hd rfl
  have hsome := item?_of_mem_shape hd
  rw [hfree] at hsome
  cases hsome

theorem openRoutine_spec {params : List Param} {type : Literal}
    (hs : WellFormed (s.place.toList ++ opens) s.assembly) :
    Ensures (Gen.openRoutine e name params type) s fun _ t => ∃ entry, t.place = some entry ∧
      entry.routine = name ∧ t.loops = s.loops ∧
      t.assembly.shape = s.assembly.shape ++ [(name, 1)] ∧ s.assembly.item? name = none ∧
      (∀ q, (s.assembly.code? q).isSome = true → (t.assembly.code? q).isSome = true) ∧
      (∀ m, (s.assembly.item? m).isSome = true → (t.assembly.item? m).isSome = true) ∧
      WellFormed (entry :: (s.place.toList ++ opens)) t.assembly := by
  have hslots : ∀ (r : Routine) (types : List Ty) (result : Ty), Plain (do
      let ptrs ← Gen.slots r.params
      Gen.enterScope
      Gen.defineParams ((params.map Param.name).zip (ptrs.zip types))
      let b : Binding := ⟨r.operand, result⟩
      Gen.define (.text name) b
      return b) := fun r types result =>
    .bind (plain.slots _) fun _ => .bind plain.enterScope fun _ =>
        .bind (plain.defineParams _) fun _ =>
      .bind (plain.define _ _) fun _ => .pure _
  refine .bind ((plain.typesNamed e _ opens s hs).mono fun types t ht => ?_)
  refine .bind ((plain.typeNamed e type opens t ht.2).mono fun result u hu => ?_)
  have hsu := ht.1.trans hu.1
  have hu' : WellFormed (s.place.toList ++ opens) u.assembly := by simpa [hsu.place] using hu.2
  refine .bind ((addItem_routine (r := .declare name result types false) rfl hu').mono fun _ v hv =>
    ?_)
  obtain ⟨hnone, rfl, hwf⟩ := hv
  have hshape : (u.assembly.add (.routine (.declare name result types false))).shape =
      s.assembly.shape ++ [(name, 0)] := by
    rw [Assembly.shape_add_routine, hsu.shape]
    rfl
  have hfree : s.assembly.item? name = none := item?_eq_none_of_kept (hsu.items name) hnone
  refine .bind ((addBlockTo_spec hwf).mono fun entry w hw => ?_)
  obtain ⟨hentry, heq, hshape', hcode, hitems, hwf'⟩ := hw
  refine .bind ((hslots _ types result _ { w with
    builder := w.builders, builders := w.builders + 1, place :=
      some entry } hwf').mono fun _ x hx => ?_)
  obtain ⟨hk, hwfx⟩ := hx
  refine ⟨entry, hk.place, hentry, ?_, ?_, hfree, ?_, ?_, ?_⟩
  · rw [hk.loops, ← hsu.loops]
    exact heq ▸ rfl
  · rw [hk.shape]
    dsimp only
    rw [hshape', hshape, grown_append, grown_of_forall_ne (ne_of_mem_shape hfree)]
    simp [grown]
  · intro q hq
    refine hk.code q (hcode q ?_)
    dsimp only
    rw [Assembly.code?_add hnone fun r hr => by rw [← Item.routine.inj hr]; rfl]
    exact hsu.code q hq
  · exact fun k hk' => hk.items k (hitems k (Assembly.item?_add_isSome hnone (hsu.items k hk')))
  · rw [hk.place] at hwfx
    exact hwfx

theorem function_runs {params : Option (List Param)} {type : Literal}
    (hbody : Runs false true n ds (Gen.statements e importer body)) :
    Runs inLoop false 0 ((name, 1 + n) :: ds)
      (Gen.statement e importer (.fn name params type body)) := by
  intro opens s hs _
  cases params with
  | none =>
    rw [Gen.statement]
    exact .throw (by simp) hs
  | some params =>
    rw [Gen.statement]
    refine .get (.get (.get ?_))
    refine .bind ((openRoutine_spec hs).mono fun b t ht => ?_)
    obtain ⟨entry, hplace, hentry, hloops, hshape, hfree, hcode, hitems, hwf⟩ := ht
    have hwf' : WellFormed (t.place.toList ++ (s.place.toList ++ opens))
      t.assembly := by rwa [hplace]
    refine .bind ((hbody _ t hwf' (by simp)).mono fun _ u hu => ?_)
    obtain ⟨htu, hwfu, -⟩ := hu
    refine ⟨⟨rfl, htu.loops.trans hloops, ?_, ?_, ?_, ?_⟩, hwfu⟩
    · have hu : u.assembly.shape = s.assembly.shape ++ (name, 1 + n) :: ds := by
        rw [htu.shape, hshape, hplace, Option.map_some, hentry]
        simp only [grownIn, Option.elim_some]
        rw [grown_append, grown_of_forall_ne (ne_of_mem_shape hfree)]
        simp [grown]
      refine hu.trans ?_
      congr 1
      cases s.place with
      | none => rfl
      | some p => exact (grown_zero _ _).symm
    · intro d hd
      rcases List.mem_cons.mp hd with rfl | hd
      · exact hfree
      · exact item?_eq_none_of_kept (hitems d.1) (htu.fresh d hd)
    · exact fun q hq => htu.code q (hcode q hq)
    · exact fun k hk => htu.items k (hitems k hk)

end Statements

theorem Runs.ret {e : Edition} {importer : String → Gen Unit} {inLoop : Bool} (x : Expr) :
    Runs inLoop true 0 [] (Gen.statement e importer (.ret x)) := by
  rw [Gen.statement]
  exact .plain_bind (plain.value e x) fun _ _ _ hs _ => leave_spec rfl hs (by simp [Op.targets])

theorem branchLoop_runs (stack : Loops → List Place)
    (hstack : ∀ (outer : Loops) (entry exit : Place),
      ∃ q qs, stack (outer.enter entry exit) = q :: qs ∧ q ∈ [entry, exit]) :
    Runs true true 0 [] (do
      match stack (← get).loops with
      | [] => throw .noLoop
      | q :: _ => Gen.branch q) := by
  intro opens s hs hloop
  refine .get ?_
  cases hl : stack s.loops with
  | nil => exact .throw (by simp) hs
  | cons q qs =>
    refine leave_spec rfl hs fun p hp t ht' => ?_
    obtain ⟨entry, exit, outer, hloops, hready⟩ := hloop rfl p hp
    obtain ⟨q', qs', hq', hmem⟩ := hstack outer entry exit
    rw [hloops] at hl
    obtain ⟨rfl, -⟩ := List.cons.inj (hl.symm.trans hq')
    obtain ⟨hr, hcode⟩ := hready q hmem
    rw [List.mem_singleton.mp ht', ← hr]
    exact hcode

theorem leavesAtEnd_of_endsInReturn {ss : List Stmt} (h : endsInReturn ss = true) :
    leavesAtEnd ss = true := by
  induction ss with
  | nil => simp [endsInReturn] at h
  | cons s ss ih =>
    cases ss with
    | nil =>
      cases s <;> simp_all [endsInReturn, leavesAtEnd, Stmt.leaves]
    | cons s' ss => exact ih (by simpa [endsInReturn] using h)

mutual

theorem Expr.runs (e : Edition) (importer : String → Gen Unit) (inLoop : Bool) : ∀ x : Expr,
    x.isStructured inLoop = true →
      Runs inLoop false x.blockCount x.routines (Gen.effect e importer x)
  | .missing => fun _ => by
    rw [Gen.effect]
    exact .of_plain (.throw (by simp))
  | .int _ | .float _ | .ident _ | .bool _ | .str _ | .prefixed .. => fun _ => by
    rw [Gen.effect]
    exact .of_plain (.pure _)
  | .infixed .. | .call .. | .openCall _ => fun _ => by
    rw [Gen.effect]
    exact .of_plain (.bind (plain.value _ _) fun _ => .pure _)
  | .stepped .. => fun _ => by
    rw [Gen.effect]
    exact .of_plain (plain.step _ _)
  | .ifThen c body => by
    intro h
    rw [Expr.isStructured] at h
    rw [Expr.blockCount, Expr.routines]
    exact ifThen_runs (statements_run e importer inLoop body h)
  | .ifElse c body alternative => by
    intro h
    rw [Expr.isStructured, Bool.and_eq_true] at h
    rw [Expr.blockCount, Expr.routines]
    exact ifElse_runs (statements_run e importer inLoop body h.1)
      (statements_run e importer inLoop alternative h.2)

theorem Stmt.runs (e : Edition) (importer : String → Gen Unit) (inLoop : Bool) : ∀ st : Stmt,
    st.isStructured inLoop = true →
      Runs inLoop st.leaves st.blockCount st.routines (Gen.statement e importer st)
  | .missing => fun _ => by
    rw [Gen.statement]
    exact .of_plain (.throw (by simp))
  | .expr x | .bare x => by
    intro h
    rw [Stmt.isStructured] at h
    rw [Gen.statement, Stmt.blockCount, Stmt.routines]
    exact Expr.runs e importer inLoop x h
  | .letVar .. => fun _ => by
    rw [Gen.statement]
    exact .of_plain (.bind (plain.value _ _) fun _ => plain.letVar _ _ _)
  | .ret x => fun _ => .ret x
  | .fn name params type body => by
    intro h
    rw [Stmt.isStructured, Bool.and_eq_true] at h
    have hbody := statements_run e importer false body h.1
    rw [leavesAtEnd_of_endsInReturn h.2] at hbody
    exact function_runs hbody
  | .assign target op x => fun _ => .of_plain (plain.assignment e importer target op x)
  | .whileLoop c body => by
    intro h
    rw [Stmt.isStructured, Bool.and_eq_true, Bool.not_eq_true'] at h
    have hbody := statements_run e importer inLoop body h.1
    rw [h.2] at hbody
    rw [Stmt.blockCount, Stmt.routines]
    exact whileLoop_runs hbody
  | .breakLoop => by
    intro h
    rw [Stmt.isStructured] at h
    rw [Gen.statement]
    exact h ▸ branchLoop_runs Loops.breakpoints fun _ _ exit => ⟨exit, _, rfl, by simp⟩
  | .continueLoop => by
    intro h
    rw [Stmt.isStructured] at h
    rw [Gen.statement]
    exact h ▸ branchLoop_runs Loops.continues fun _ entry _ => ⟨entry, _, rfl, by simp⟩
  | .forLoop init c next body => by
    intro h
    simp only [Stmt.isStructured, Bool.and_eq_true, Bool.not_eq_true'] at h
    obtain ⟨⟨⟨hi, hil⟩, hb, hbl⟩, hn, hnl⟩ := h
    have hinit := Stmt.runs e importer inLoop init hi
    have hbody := statements_run e importer true body hb
    have hnext := Stmt.runs e importer true next hn
    rw [hil] at hinit
    rw [hbl] at hbody
    rw [hnl] at hnext
    rw [Stmt.blockCount, Stmt.routines]
    exact forLoop_runs hinit hbody hnext
  | .importPallet _ => by simp [Stmt.isStructured]

theorem statements_run (e : Edition) (importer : String → Gen Unit) (inLoop : Bool) :
    ∀ ss : List Stmt, areStructured inLoop ss = true →
      Runs inLoop (leavesAtEnd ss) (blockCount ss) (routines ss) (Gen.statements e importer ss)
  | [] => fun _ => by
    rw [Gen.statements]
    exact .of_plain (.pure _)
  | [s] => by
    intro h
    rw [areStructured, Bool.and_eq_true, Bool.and_eq_true] at h
    have hh := Stmt.runs e importer inLoop s h.1.1
    rw [Gen.statements, Gen.statements, bind_pure]
    simpa [leavesAtEnd, blockCount, routines] using hh
  | s :: s' :: ss => by
    intro h
    rw [areStructured, Bool.and_eq_true, Bool.and_eq_true] at h
    obtain ⟨⟨hs, hss⟩, hleaves⟩ := h
    have hfalse : s.leaves = false := by simpa using hleaves
    have hh := Stmt.runs e importer inLoop s hs
    rw [hfalse] at hh
    rw [Gen.statements, blockCount, routines]
    exact hh.bind (statements_run e importer inLoop (s' :: ss) hss)

end

theorem Session.routine_mem_start {e : Edition} {r : Routine}
    (h : .routine r ∈ (Session.start e).assembly.items) : r = Session.printfRoutine := by
  simp only [Session.start, Session.builtins, Session.booleanItem] at h
  split_ifs at h <;> simp at h
  all_goals exact h

theorem Session.code?_start (e : Edition) (q : Place) :
    (Session.start e).assembly.code? q = none := by
  rw [Assembly.code?, Option.bind_eq_none_iff]
  intro r hr
  rw [Session.routine_mem_start (Assembly.mem_of_routine? hr)]
  rfl

theorem Session.wellFormed_start (e : Edition) : WellFormed [] (Session.start e).assembly where
  sound := by
    refine ⟨?_, fun r hr => ?_⟩
    · simp only [Session.start, Session.builtins]
      split_ifs <;> decide
    · rw [Session.routine_mem_start hr]
      decide
  nodup := .nil
  opened := by simp
  closed := by simp [Session.code?_start]
  targets := by simp [Session.code?_start]

/-- Every block ends once, and its jumps stay in its routine. -/
def IsClosedFlow (a : Assembly) : Prop :=
  ∀ r, .routine r ∈ a.items → ∀ b ∈ r.blocks,
    b.isClosed = true ∧ ∀ t ∈ b.targets, (r.block? t).isSome = true

theorem WellFormed.isClosedFlow (h : WellFormed [] a) : IsClosedFlow a := by
  intro r hr b hb
  have hcode := h.sound.code?_of_mem hr hb
  refine ⟨h.closed _ _ hcode (by simp), fun t ht => ?_⟩
  obtain ⟨i, hi, ht⟩ := List.mem_flatMap.mp ht
  have hh := h.targets _ _ hcode i hi t ht
  rw [Assembly.code?, h.sound.routine?_of_mem hr] at hh
  simpa using hh

/-- Code generation tried to go on behind the end of a block: a second terminator is refused, and
any other instruction stays in its block for good. -/
def WroteBehindEnd (r : Except Failure Unit × Session) : Prop :=
  r.1 = .error .terminated ∨ ∃ q is, r.2.assembly.code? q = some is ∧
    ∃ i ∈ is.dropLast, i.op.isTerminator = true

theorem emit_behind_end (hp : s.place = some p) (his : s.assembly.code? p = some is)
    (hend : is.any (·.op.isTerminator) = true) (op : Op) :
    WroteBehindEnd ((do let _ ← Gen.emit op : Gen Unit).run s) := by
  obtain ⟨r, hr, -⟩ := Option.bind_eq_some_iff.mp his
  rw [Gen.run_bind, Gen.run_emit_at hp hr]
  split_ifs with h
  · exact .inl rfl
  · refine .inr ⟨p, is ++ [⟨r.takeName.1, op⟩], ?_, ?_⟩
    · dsimp only [Gen.run_pure]
      rw [Assembly.code?_withInstr hr, if_pos rfl, his]
      rfl
    · rw [List.dropLast_concat]
      exact List.any_eq_true.mp hend

/-- What went wrong shows in the end, whatever comes later. -/
theorem WroteBehindEnd.persists {x g : Gen Unit} (hg : Appends g) (h : WroteBehindEnd (x.run s)) :
    WroteBehindEnd ((x >>= fun _ => g).run s) := by
  rw [Gen.run_bind]
  generalize x.run s = result at h ⊢
  obtain ⟨r, t⟩ := result
  cases r with
  | error f => exact h
  | ok u =>
    rcases h with h | ⟨q, is, hq, i, hi, hend⟩
    · simp at h
    · obtain ⟨js, hjs⟩ := (hg t).code hq
      refine .inr ⟨q, is ++ js, hjs, i, ?_, hend⟩
      cases js with
      | nil => rwa [List.append_nil]
      | cons j js =>
        rw [List.dropLast_append_of_ne_nil (by simp)]
        exact List.mem_append_left _ (List.dropLast_subset _ hi)

theorem endsOnce_dropLast (h : endsOnce is = true) :
    ∀ i ∈ is.dropLast, i.op.isTerminator = false := by
  induction is with
  | nil => simp
  | cons i is ih =>
    cases is with
    | nil => simp
    | cons j is =>
      rw [endsOnce_cons_cons, Bool.and_eq_true, Bool.not_eq_true'] at h
      rw [List.dropLast_cons_cons]
      simpa [h.1] using ih h.2

theorem WellFormed.not_behind (h : WellFormed opens a) (hq : a.code? q = some is) :
    ∀ i ∈ is.dropLast, i.op.isTerminator = false := by
  by_cases hmem : q ∈ opens
  · obtain ⟨js, hjs, hj⟩ := h.opened q hmem
    obtain rfl : js = is := Option.some.inj (hjs.symm.trans hq)
    exact fun i hi => hj i (List.dropLast_subset _ hi)
  · exact endsOnce_dropLast (h.closed q is hq hmem)

/-- The blocks of a compiled program end once and jump inside of their routines; its routines are
those it declares, each with the blocks of its own conditionals and loops. Whether or not code
generation fails, it never goes on behind the end of a block. -/
theorem compile_control_flow (e : Edition) (files : Files) (p : Program)
    (he : e.has .functions = true) (hp : areStructured false p = true) :
    (((Session.start e).compile e files p).1 = .ok () →
      IsClosedFlow ((Session.start e).compile e files p).2.assembly ∧
      ((Session.start e).compile e files p).2.assembly.shape =
        (Session.start e).assembly.shape ++ routines p) ∧
    ¬ WroteBehindEnd ((Session.start e).compile e files p) := by
  have hrun := statements_run e (Gen.importer e files Gen.maxImportDepth) false p hp []
    (Session.start e) (Session.wellFormed_start e) (by simp)
  have hcompile : (Session.start e).compile e files p =
      (Gen.statements e (Gen.importer e files Gen.maxImportDepth) p).run (Session.start e) := by
    rw [Session.compile, Gen.program, if_pos he]
  rw [Ensures, ← hcompile] at hrun
  generalize (Session.start e).compile e files p = result at hrun ⊢
  obtain ⟨r, t⟩ := result
  cases r with
  | error f =>
    obtain ⟨hf, opens, hwf⟩ := hrun
    refine ⟨by simp, ?_⟩
    rintro (hterminated | ⟨q, is, hq, i, hi, hend⟩)
    · exact hf (Except.error.inj hterminated)
    · simp [hwf.not_behind hq i hi] at hend
  | ok u =>
    obtain ⟨hprogress, hstanding⟩ := hrun
    have hplace : t.place = none := by simpa [Session.start] using hprogress.routine
    have hwf : WellFormed [] t.assembly := by
      rw [Standing, hplace] at hstanding
      split_ifs at hstanding
      · exact hstanding.1
      · exact hstanding
    refine ⟨fun _ => ⟨hwf.isClosedFlow, hprogress.shape⟩, ?_⟩
    rintro (hterminated | ⟨q, is, hq, i, hi, hend⟩)
    · simp at hterminated
    · simp [hwf.not_behind hq i hi] at hend

theorem compile_control_flow_nested :
    let p : Program := [.fn "main" (some []) (.text "int")
      [.fn "inner" (some [⟨.text "n", .text "int"⟩]) (.text "int")
        [.whileLoop (.infixed (.ident "n") .lt (.int 9))
          [.expr (.ifThen (.infixed (.ident "n") .eq (.int 3)) [.ret (.int 5)])],
         .ret (.ident "n")],
       .forLoop (.letVar "i" (.int 0) "int") (.infixed (.ident "i") .lt (.int 9))
        (.bare (.stepped (.ident "i") .increment))
        [.expr (.ifElse (.infixed (.ident "i") .eq (.int 4)) [.breakLoop] [.continueLoop])],
       .ret (.call (.ident "inner") [.int 7])]]
    areStructured false p = true ∧ ((Session.start .latest).compile .latest ⟨[], []⟩ p).1 = .ok () ∧
      IsClosedFlow ((Session.start .latest).compile .latest ⟨[], []⟩ p).2.assembly ∧
      ((Session.start .latest).compile .latest ⟨[], []⟩ p).2.assembly.shape =
        [("printf", 0), ("main", 6), ("inner", 5)] ∧
      ¬ WroteBehindEnd ((Session.start .latest).compile .latest ⟨[], []⟩ p) := by
  intro p
  have hp : areStructured false p = true := by decide +kernel
  have hok : ((Session.start .latest).compile .latest ⟨[], []⟩ p).1 = .ok () := by decide +kernel
  obtain ⟨hflow, hbehind⟩ := compile_control_flow .latest ⟨[], []⟩ p (by decide) hp
  obtain ⟨hclosed, hshape⟩ := hflow hok
  exact ⟨hp, hok, hclosed, hshape.trans (by decide +kernel), hbehind⟩

end LimeLang
