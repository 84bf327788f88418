import LimeLang.Proofs.Importing
import LimeLang.Proofs.PendingBlocks

/-! How the blocks of a routine end. Nothing closes the block in which the code of a routine stops,
unless the last thing that ends a block there is a jump. A conditional or a loop starts a new block
behind it, so a routine that ends with one always has a block without terminator. -/

namespace LimeLang

open Code

def Stmt.tail : Stmt → Tail
  | .ret _ | .breakLoop | .continueLoop => .jump
  | .whileLoop .. | .forLoop .. => .join
  | .expr x | .bare x => if x.isSimple then .same else .join
  | _ => .same

def tailOf : List Stmt → Tail
  | [] => .same
  | st :: ss => st.tail.andThen (tailOf ss)

theorem tailOf_append (ss ts : List Stmt) :
    tailOf (ss ++ ts) = (tailOf ss).andThen (tailOf ts) := by
  induction ss with
  | nil => rw [List.nil_append, tailOf, Tail.same_andThen]
  | cons st ss ih => rw [List.cons_append, tailOf, tailOf, ih, Tail.andThen_assoc]

theorem Stmt.tail_eq_jump_iff {st : Stmt} : st.tail = .jump ↔ st.leaves = true := by
  cases st with
  | expr x | bare x => by_cases hx : x.isSimple = true <;> simp [tail, leaves, hx]
  | _ => simp [tail, leaves]

theorem tailOf_ne_jump {ss : List Stmt} (h : ∀ st ∈ ss, st.leaves = false) : tailOf ss ≠ .jump := by
  induction ss with
  | nil => decide
  | cons st ss ih =>
    obtain ⟨hst, hss⟩ := List.forall_mem_cons.mp h
    have hne : st.tail ≠ .jump := by simp [Stmt.tail_eq_jump_iff, hst]
    have hrest := ih hss
    rw [tailOf]
    cases htail : tailOf ss with
    | same => exact hne
    | jump => exact absurd htail hrest
    | join => simp [Tail.andThen]

/-- The statements of a body, with those of the files that it imports in the place of the imports.
The lists of files are those that have been imported before and after. -/
inductive Spliced (e : Edition) (files : Files) : List String → List Stmt → List Stmt →
    List String → Prop
  | nil {done} : Spliced e files done [] [] done
  | stmt {done done₁ done' vs st ss flat} (hst : ∀ path, st ≠ .importPallet path)
      (hvisits : Visits e files done (.stmt st) vs done₁)
      (hss : Spliced e files done₁ ss flat done') :
      Spliced e files done (st :: ss) (st :: flat) done'
  | known {done done' path ss flat} (hpath : path ∈ done)
      (hss : Spliced e files done ss flat done') :
      Spliced e files done (.importPallet path :: ss) flat done'
  | pallet {done done₁ done' path p ss flat flat'} (hpath : path ∉ done)
      (hp : files.pallet? e path = some p)
      (hpallet : Spliced e files done p flat done₁)
        (hss : Spliced e files (done₁ ++ [path]) ss flat' done') :
      Spliced e files done (.importPallet path :: ss) (flat ++ flat') done'

namespace Spliced

variable {e : Edition} {files : Files} {done done₁ done₂ : List String}
  {ss ts flat flat' : List Stmt}

theorem append (h : Spliced e files done ss flat done₁)
    (h' : Spliced e files done₁ ts flat' done₂) :
    Spliced e files done (ss ++ ts) (flat ++ flat') done₂ := by
  induction h with
  | nil => exact h'
  | stmt hst hvisits _ ih => exact .stmt hst hvisits (ih h')
  | known hpath _ ih => exact .known hpath (ih h')
  | pallet hpath hp hpallet _ _ ih =>
    rw [List.append_assoc]
    exact .pallet hpath hp hpallet (ih h')

theorem unique (h : Spliced e files done ss flat done₁) (h' : Spliced e files done ss flat' done₂) :
    flat' = flat ∧ done₂ = done₁ := by
  induction h generalizing flat' done₂ with
  | nil =>
    cases h'
    exact ⟨rfl, rfl⟩
  | stmt hst hvisits _ ih =>
    cases h' with
    | stmt _ hvisits' hss =>
      obtain ⟨-, rfl⟩ := hvisits.unique hvisits'
      obtain ⟨rfl, rfl⟩ := ih hss
      exact ⟨rfl, rfl⟩
    | known | pallet => exact absurd rfl (hst _)
  | known hpath _ ih =>
    cases h' with
    | stmt hst => exact absurd rfl (hst _)
    | known _ hss => exact ih hss
    | pallet hnew => exact absurd hpath hnew
  | pallet hnew hp _ _ ih ih' =>
    cases h' with
    | stmt hst => exact absurd rfl (hst _)
    | known hpath => exact absurd hpath hnew
    | pallet _ hp' hpallet hss =>
      obtain rfl := Option.some.inj (hp.symm.trans hp')
      obtain ⟨rfl, rfl⟩ := ih hpallet
      obtain ⟨rfl, rfl⟩ := ih' hss
      exact ⟨rfl, rfl⟩

/-- Nothing is put behind the last statement of a body. -/
theorem last {st : Stmt} (hst : ∀ path, st ≠ .importPallet path)
    (h : Spliced e files done (ss ++ [st]) flat done₁) : ∃ before, flat = before ++ [st] := by
  generalize hts : ss ++ [st] = ts at h
  induction h generalizing ss with
  | nil => simp at hts
  | stmt _ _ hss ih =>
    cases ss with
    | nil =>
      obtain ⟨rfl, rfl⟩ := List.cons.inj hts
      cases hss
      exact ⟨[], rfl⟩
    | cons st' ss =>
      obtain ⟨rfl, rfl⟩ := List.cons.inj hts
      obtain ⟨before, rfl⟩ := ih rfl
      exact ⟨st' :: before, rfl⟩
  | known _ _ ih =>
    cases ss with
    | nil => exact absurd (List.cons.inj hts).1 (hst _)
    | cons st' ss => exact ih (List.cons.inj hts).2
  | pallet _ _ _ _ _ ih =>
    cases ss with
    | nil => exact absurd (List.cons.inj hts).1 (hst _)
    | cons st' ss =>
      obtain ⟨before, rfl⟩ := ih (List.cons.inj hts).2
      exact ⟨_ ++ before, (List.append_assoc _ _ _).symm⟩

end Spliced

section Routines

variable {e : Edition} {importer : String → Gen Unit} {body : List Stmt} {s t : Session}
  {r : Routine} {name entry : String} {params : List Param} {type : Literal}

theorem Session.Orderly.withRoutine_code (hs : s.Orderly) (hr : r.blocks = [])
    (hnew : s.assembly.item? (Item.routine r).name = none) (q : Place) :
      (s.withRoutine r entry).assembly.code? q =
      if q = ⟨r.name, (r.addBlock entry).1⟩ then some [] else s.assembly.code? q := by
  have hblocks : ∀ r', Item.routine r = .routine r' →
    r'.blocks = [] := fun r' hr' => Item.routine.inj hr' ▸ hr
  exact (Assembly.code?_withBlock (hs.sound.add hnew hblocks)
    (Assembly.routine?_add_self hnew)).trans (by rw [Assembly.code?_add hnew hblocks])

theorem Session.Orderly.withRoutine (hs : s.Orderly) (hr : r.blocks = [])
    (hnew : s.assembly.item? (Item.routine r).name = none) (entry : String) :
    (s.withRoutine r entry).Spares s.assembly none := by
  have hblocks : ∀ r', Item.routine r = .routine r' →
    r'.blocks = [] := fun r' hr' => Item.routine.inj hr' ▸ hr
  have hsound : (s.assembly.add (.routine r)).Sound := hs.sound.add hnew hblocks
  have hself : (s.assembly.add (.routine r)).routine? r.name = some r :=
    Assembly.routine?_add_self hnew
  have hfree : s.assembly.Frees none ⟨r.name, (r.addBlock entry).1⟩ := .of_new hnew
  refine ⟨⟨hsound.withBlock hself, fun q hq => ?_⟩, ((Assembly.Extends.refl none _).add _).withBlock
    hsound hself hfree.inRoutine entry, fun q hq => Option.some.inj hq ▸ hfree⟩
  rw [hs.withRoutine_code hr hnew, if_pos (Option.some.inj hq).symm]
  rfl

theorem Session.withRoutine_pending (hs : s.Orderly) (hr : r.blocks = [])
    (hnew : s.assembly.item? (Item.routine r).name = none) {q : Place} (hq : q.routine = r.name) :
    (s.withRoutine r entry).Pending q ↔ q = ⟨r.name, (r.addBlock entry).1⟩ := by
  have hnone : s.assembly.code? q = none := by
    have hroutine : s.assembly.routine? r.name = none := by
      rw [Assembly.routine?, show s.assembly.item? r.name = none from hnew]
    rw [Assembly.code?, hq, hroutine]
    rfl
  rw [Session.Pending, hs.withRoutine_code hr hnew, hnone]
  split_ifs with h <;> simp [h]

theorem Code.Assembly.Extends.routine? {a b : Assembly} (h : a.Extends none b) (hb : b.Sound)
    {n : String} {r : Routine} (hr : a.routine? n = some r) : b.routine? n = some r := by
  obtain ⟨i, hi, hri⟩ := Continues.mem h (Assembly.mem_of_routine? hr)
  cases hri with
  | same =>
    rw [← Assembly.routine?_name hr]
    exact hb.routine?_of_mem hi
  | grown hp => cases hp

/-- The body of a routine, from its first block on. -/
structure Session.EntersRoutine (s : Session) (name : String) (t : Session) (p : Place) : Prop where
  spares : t.Spares s.assembly none
  place : t.place = some p
  routine : p.routine = name
  pending : ∀ q, q.routine = name → (t.Pending q ↔ q = p)
  pallets : t.pallets = s.pallets

theorem openRoutine_entersRoutine {b : Binding} (hs : s.Orderly)
    (h : (Gen.openRoutine e name params type).run s = (.ok b, t)) :
      ∃ p, s.EntersRoutine name t p := by
  obtain ⟨r, entry, ptrs, u, rfl, hr, hnew, hslots, hassembly, hplace, hpallets⟩ := openRoutine_ok h
  have hspares := hs.withRoutine hr hnew entry
  have hpreserves := (appending.slots r.params).preserves_of_run hspares.toOrderly hslots
  have hsteady := (steady.slots r.params).of_run hslots
  have htu : u.Preserves t := .of_eq hassembly hplace
  refine ⟨⟨r.name, (r.addBlock entry).1⟩, htu _ _ (hpreserves _ _ hspares),
    hplace.trans hsteady.place, rfl, fun q hq => ?_, ?_⟩
  · rw [Session.pending_congr (show t.assembly.code? q = u.assembly.code? q by rw [hassembly]),
      hsteady.pending]
    exact Session.withRoutine_pending hs hr hnew hq
  · rw [hpallets, ((still.slots r.params).of_run hslots).pallets]
    rfl

/-- A routine in a routine is a place of its own. -/
theorem fn_moves {p : Place} (hbody : Appending (Gen.statements e importer body)) (hs : s.Orderly)
    (hp : s.place = some p)
    (h : (Gen.statement e importer (.fn name (some params) type body)).run s = (.ok (), t)) :
      s.Moves p .same t p := by
  rw [Gen.statement_fn, Gen.run_bind_of_ok (Gen.run_get s)] at h
  obtain ⟨b, s₁, h₁, h⟩ := Gen.bind_ok h
  obtain ⟨q, hentered⟩ := openRoutine_entersRoutine hs h₁
  obtain ⟨_, s₂, h₂, h⟩ := Gen.bind_ok h
  have hspares := hbody.preserves_of_run hentered.spares.toOrderly h₂ _ _ hentered.spares
  cases h
  obtain ⟨is, his⟩ := Option.isSome_iff_exists.mp (hs.placed p hp)
  obtain ⟨r, hr, -⟩ := Option.bind_eq_some_iff.mp his
  have hcode : ∀ q, q.routine = p.routine → s₂.assembly.code? q = s.assembly.code? q := by
    intro q hq
    rw [Assembly.code?, hq, hspares.kept.routine? hspares.sound hr, Assembly.code?, hq, hr]
  exact {
    place := hp
    routine := rfl
    settled := fun q hq hpending => by
      by_cases heq : q = p
      · exact .inl heq
      · exact .inr ⟨(Session.pending_congr (hcode q hq)).mp hpending, heq⟩
    same := fun _ => ⟨rfl, Session.pending_congr (hcode p rfl)⟩
    jump := by simp
    join := by simp }

end Routines

section Nodes

variable {e : Edition} {importer : String → Gen Unit}

mutual

theorem effect_moves (himport : ∀ path, Moving (importer path)) :
    ∀ (x : Expr) {s t : Session} {p : Place},
    s.Orderly → s.place = some p → (Gen.effect e importer x).run s = (.ok (), t) →
      ∃ p', s.Moves p (Stmt.expr x).tail t p'
  | .missing, s, t, p, _, _, h => by
    rw [Gen.effect] at h
    cases h
  | .int _, s, t, p, _, hp, h | .float _, s, t, p, _, hp, h | .ident _, s, t, p, _, hp, h
  | .bool _, s, t, p, _, hp, h | .str _, s, t, p, _, hp, h | .prefixed .., s, t, p, _, hp, h => by
    rw [Gen.effect] at h
    cases h
    exact ⟨p, .of_steady (.refl s) hp⟩
  | .infixed .., s, t, p, _, hp, h | .call .., s, t, p, _, hp, h
  | .openCall _, s, t, p, _, hp, h => by
    rw [Gen.effect] at h
    obtain ⟨_, s₁, h₁, h⟩ := Gen.bind_ok h
    cases h
    exact ⟨p, .of_steady ((steady.value e _).of_run h₁) hp⟩
  | .stepped x op, s, t, p, _, hp, h => by
    rw [Gen.effect] at h
    exact ⟨p, .of_steady ((steady.step op x).of_run h) hp⟩
  | .ifThen c body, s, t, p, hs, hp, h => ifThen_moves (statements_moving himport body) hs hp h
  | .ifElse c body alternative, s, t, p, hs, hp, h =>
    ifElse_moves (statements_moving himport body) (statements_moving himport alternative) hs hp h

theorem statement_moves (himport : ∀ path, Moving (importer path)) :
    ∀ (st : Stmt) {s t : Session} {p : Place},
    s.Orderly → s.place = some p → (Gen.statement e importer st).run s = (.ok (), t) →
      ∃ τ p', s.Moves p τ t p' ∧ ((∀ path, st ≠ .importPallet path) → τ = st.tail)
  | .missing, s, t, p, _, _, h => by
    rw [Gen.statement] at h
    cases h
  | .expr x, s, t, p, hs, hp, h | .bare x, s, t, p, hs, hp, h => by
    rw [Gen.statement] at h
    obtain ⟨p', hmoves⟩ := effect_moves himport x hs hp h
    exact ⟨_, p', hmoves, fun _ => rfl⟩
  | .letVar name x type, s, t, p, _, hp, h => by
    rw [Gen.statement] at h
    have hsteady := (steady.bind (steady.value e x) fun v => steady.letVar e name v).of_run h
    exact ⟨_, p, .of_steady hsteady hp, fun _ => rfl⟩
  | .ret x, s, t, p, _, hp, h => by
    rw [Gen.statement] at h
    obtain ⟨v, s₁, h₁, h⟩ := Gen.bind_ok h
    have hsteady := (steady.value e x).of_run h₁
    have hmoves := (Session.Moves.of_steady hsteady hp).trans
      (.of_closes (ret_ok (hsteady.place.trans hp) h))
    exact ⟨_, p, hmoves, fun _ => rfl⟩
  | .fn name none type body, s, t, p, _, _, h => by
    rw [Gen.statement] at h
    cases h
  | .fn name (some params) type body, s, t, p, hs, hp, h =>
    ⟨_, p, fn_moves (statements_moving himport body).appending hs hp h, fun _ => rfl⟩
  | .assign target op x, s, t, p, _, hp, h =>
    ⟨_, p, .of_steady ((steady.assignment e importer target op x).of_run h) hp, fun _ => rfl⟩
  | .whileLoop c body, s, t, p, hs, hp, h => by
    obtain ⟨p', hmoves⟩ := whileLoop_moves (statements_moving himport body) hs hp h
    exact ⟨_, p', hmoves, fun _ => rfl⟩
  | .breakLoop, s, t, p, _, hp, h => by
    rw [Gen.statement, Gen.run_bind_of_ok (Gen.run_get s)] at h
    split at h
    · cases h
    · exact ⟨_, p, .of_closes (branch_ok hp h), fun _ => rfl⟩
  | .continueLoop, s, t, p, _, hp, h => by
    rw [Gen.statement, Gen.run_bind_of_ok (Gen.run_get s)] at h
    split at h
    · cases h
    · exact ⟨_, p, .of_closes (branch_ok hp h), fun _ => rfl⟩
  | .forLoop init c next body, s, t, p, hs, hp, h => by
    obtain ⟨p', hmoves⟩ := forLoop_moves (statement_moving himport init)
      (statements_moving himport body) (statement_moving himport next) hs hp h
    exact ⟨_, p', hmoves, fun _ => rfl⟩
  | .importPallet path, s, t, p, hs, hp, h => by
    rw [Gen.statement] at h
    obtain ⟨τ, p', hmoves⟩ := (himport path).moves s t p hs hp h
    exact ⟨τ, p', hmoves, fun hne => absurd rfl (hne path)⟩

theorem statement_moving (himport : ∀ path, Moving (importer path)) (st : Stmt) :
    Moving (Gen.statement e importer st) where
  appending := statement_appending (fun path => (himport path).appending) st
  moves s t p hs hp h := by
    obtain ⟨τ, p', hmoves, -⟩ := statement_moves himport st hs hp h
    exact ⟨τ, p', hmoves⟩

theorem statements_moving (himport : ∀ path, Moving (importer path)) : ∀ ss : List Stmt,
    Moving (Gen.statements e importer ss)
  | [] => by
    rw [Gen.statements]
    refine ⟨.pure _, fun s t p _ hp h => ?_⟩
    cases h
    exact ⟨_, p, .of_steady (.refl s) hp⟩
  | st :: ss => by
    rw [Gen.statements]
    exact (statement_moving himport st).bind (statements_moving himport ss)

end

end Nodes

/-- The code of statements ends as the statements themselves and those that they import say. -/
def StopsAs (e : Edition) (files : Files) (ss : List Stmt) (g : Gen Unit) : Prop :=
  ∀ s t p, s.Orderly → s.scopes ≠ [] → s.place = some p → g.run s = (.ok (), t) →
    ∃ flat p', Spliced e files s.pallets ss flat t.pallets ∧ s.Moves p (tailOf flat) t p'

section Splicing

variable {e : Edition} {files : Files} {importer : String → Gen Unit}

theorem StopsAs.cons {st : Stmt} {ss : List Stmt} {g g' : Gen Unit} (h : StopsAs e files [st] g)
    (h' : StopsAs e files ss g') (happend : Appending g)
    (hcomplete : Completing e files (.stmt st) g) : StopsAs e files (st :: ss) (do g; g') := by
  intro s t p hs hscopes hp hrun
  obtain ⟨_, s₁, h₁, h₂⟩ := Gen.bind_ok hrun
  obtain ⟨flat, p', hspliced, hmoves⟩ := h s s₁ p hs hscopes hp h₁
  have hscopes₁ : s₁.scopes ≠ [] := ((hcomplete s hscopes).ok h₁).ne_nil
  obtain ⟨flat', p'', hspliced', hmoves'⟩ :=
    h' s₁ t p' (happend.orderly_of_run hs h₁) hscopes₁ hmoves.place h₂
  refine ⟨flat ++ flat', p'', hspliced.append hspliced', ?_⟩
  rw [tailOf_append]
  exact hmoves.trans hmoves'

theorem statements_stop (himport : ∀ path, Moving (importer path))
    (hstops : ∀ path, StopsAs e files [.importPallet path] (importer path))
    (hcomplete : ∀ st, Completing e files (.stmt st) (Gen.statement e importer st)) :
    ∀ ss : List Stmt, StopsAs e files ss (Gen.statements e importer ss) := by
  intro ss
  induction ss with
  | nil =>
    intro s t p _ _ hp h
    rw [Gen.statements] at h
    cases h
    exact ⟨[], p, .nil, .of_steady (.refl s) hp⟩
  | cons st ss ih =>
    rw [Gen.statements]
    refine StopsAs.cons ?_ ih (statement_moving himport st).appending (hcomplete st)
    intro s t p hs hscopes hp h
    by_cases hst : ∀ path, st ≠ .importPallet path
    · obtain ⟨vs, htravels, -⟩ := (hcomplete st s hscopes).ok h
      obtain ⟨τ, p', hmoves, htail⟩ := statement_moves himport st hs hp h
      refine ⟨[st], p', .stmt hst htravels.visits .nil, ?_⟩
      rw [tailOf, tailOf, Tail.andThen_same, ← htail hst]
      exact hmoves
    · simp only [not_forall, not_not] at hst
      obtain ⟨path, rfl⟩ := hst
      rw [Gen.statement] at h
      exact hstops path s t p hs hscopes hp h

section Importers

variable (he : e.has .functions = true)

include he

/-- An import that succeeds finds the file in the list, or compiles what is in it. -/
theorem importer_ok {depth : Nat} {path : String} {s t : Session}
    (h : (Gen.importer e files (depth + 1) path).run s = (.ok (), t)) :
    (path ∈ s.pallets ∧ s.Steady t ∧ t.pallets = s.pallets) ∨
      path ∉ s.pallets ∧ ∃ program opened output u, files.pallet? e path = some program ∧
        (Gen.statements e (Gen.importer e files depth) program).run
        { s with opened, output } = (.ok (), u) ∧
        t = { u with pallets := u.pallets ++ [path] } := by
  by_cases hpath : path ∈ s.pallets
  · rw [Gen.run_importer_known hpath] at h
    cases h
    exact .inl ⟨hpath, .of_code rfl fun _ => rfl, rfl⟩
  · cases hfile : files.pallet? e path with
    | none =>
      obtain ⟨_, _, -, -, hrun⟩ := Gen.run_importer_unreadable hpath hfile
      rw [hrun] at h
      cases h
    | some program =>
      obtain ⟨ns, hrun⟩ := Gen.run_importer_new he hpath hfile
      rw [hrun] at h
      obtain ⟨_, u, hu, h⟩ := Gen.bind_ok h
      cases h
      exact .inr ⟨hpath, program, _, _, u, rfl, hu, rfl⟩

theorem importer_moving (files : Files) (depth : Nat) (path : String) :
    Moving (Gen.importer e files depth path) := by
  refine ⟨importer_appending he files depth path, ?_⟩
  induction depth generalizing path with
  | zero =>
    intro s t p _ _ h
    cases h
  | succ depth ih =>
    intro s t p hs hp h
    rcases importer_ok he h with ⟨-, hsteady, -⟩ | ⟨-, program, opened, output, u, -, hu, rfl⟩
    · exact ⟨_, p, .of_steady hsteady hp⟩
    · have himport := fun path => Moving.mk (importer_appending he files depth path) (ih path)
      have hs' : ({ s with opened, output } : Session).Orderly := ⟨hs.sound, hs.placed⟩
      obtain ⟨τ, p', hmoves⟩ := (statements_moving himport program).moves _ _ _ hs' hp hu
      exact ⟨τ, p', hmoves.of_code⟩

theorem importer_stops (files : Files) (depth : Nat) (path : String) :
    StopsAs e files [.importPallet path] (Gen.importer e files depth path) := by
  induction depth generalizing path with
  | zero =>
    intro s t p _ _ _ h
    cases h
  | succ depth ih =>
    intro s t p hs hscopes hp h
    rcases importer_ok he h with ⟨hpath, hsteady, hpallets⟩ | ⟨hpath, program, opened, output, u,
      hfile, hu, rfl⟩
    · refine ⟨[], p, ?_, .of_steady hsteady hp⟩
      rw [hpallets]
      exact .known hpath .nil
    · have hs' : ({ s with opened, output } : Session).Orderly := ⟨hs.sound, hs.placed⟩
      have hcomplete := fun st => node_completing he files depth (.stmt st)
      obtain ⟨flat, p', hspliced, hmoves⟩ :=
        statements_stop (importer_moving he files depth) ih hcomplete program
        _ _ _ hs' hscopes hp hu
      refine ⟨flat ++ [], p', .pallet hpath hfile hspliced .nil, ?_⟩
      rw [List.append_nil]
      exact hmoves.of_code

/-- The body of a routine stops in a block of the routine, and that is the only one that may have no
terminator. -/
theorem fn_stops {depth : Nat} {name : String} {params : List Param} {type : Literal}
    {body : List Stmt} {s t : Session} (hs : s.Orderly) (hscopes : s.scopes ≠ [])
    (h : (Gen.statement e (Gen.importer e files depth) (.fn name (some params) type body)).run
      s = (.ok (), t)) :
    ∃ flat p, Spliced e files s.pallets body flat t.pallets ∧ p.routine = name ∧ t.assembly.Sound ∧
      (t.assembly.code? p).isSome = true ∧
      ∀ q, q.routine = name → (t.Pending q ↔ q = p ∧ tailOf flat ≠ .jump) := by
  rw [Gen.statement_fn, Gen.run_bind_of_ok (Gen.run_get s)] at h
  obtain ⟨b, s₁, h₁, h⟩ := Gen.bind_ok h
  obtain ⟨p₁, hentered⟩ := openRoutine_entersRoutine hs h₁
  obtain ⟨⟨table, htable⟩, -⟩ := (openRoutine_ends hscopes name params type).ok h₁
  obtain ⟨_, s₂, h₂, h⟩ := Gen.bind_ok h
  have hcomplete := fun st => node_completing he files depth (.stmt st)
  obtain ⟨flat, p, hspliced, hmoves⟩ := statements_stop (importer_moving he files depth)
    (importer_stops he files depth) hcomplete body _ _ _ hentered.spares.toOrderly
      (by simp [htable])
    hentered.place h₂
  have happend := (statements_moving (e := e) (importer_moving he files depth) body).appending
  have hs₂ := happend.orderly_of_run hentered.spares.toOrderly h₂
  cases h
  refine ⟨flat, p, hentered.pallets ▸ hspliced, hmoves.routine.trans hentered.routine, hs₂.sound,
    hs₂.placed p hmoves.place, fun q hq => ⟨fun hpending => ?_, ?_⟩⟩
  · change s₂.Pending q at hpending
    obtain rfl : q = p := by
      refine (hmoves.settled q (hq.trans hentered.routine.symm) hpending).resolve_right ?_
      rintro ⟨hfirst, hne⟩
      exact hne ((hentered.pending q hq).mp hfirst)
    exact ⟨rfl, fun htail => hmoves.jump htail hpending⟩
  · rintro ⟨rfl, htail⟩
    change s₂.Pending q
    cases hτ : tailOf flat with
    | same =>
      obtain ⟨rfl, hpending⟩ := hmoves.same hτ
      exact hpending.mpr ((hentered.pending q hq).mpr rfl)
    | jump => exact absurd hτ htail
    | join => exact hmoves.join hτ

end Importers

end Splicing

section Closing

variable {t : Session} {r : Routine} {b : Block} {p : Place}

theorem Session.pending_of_mem (ht : t.assembly.Sound) (hr : t.assembly.routine? r.name = some r)
    (hb : b ∈ r.blocks) : t.Pending ⟨r.name, b.name⟩ ↔ b.isTerminated = false := by
  rw [Pending, ht.code?_of_mem (Assembly.mem_of_routine? hr) hb]
  simp [Block.isTerminated]

theorem Code.Routine.isAccepted_of_pending (hb : b ∈ r.blocks) (hopen : b.isTerminated = false) :
    r.isAccepted = false := by
  rw [Routine.isAccepted, List.all_eq_false]
  refine ⟨b, hb, ?_⟩
  have hclosed : b.isClosed = false := by
    by_contra h
    have hany : b.isTerminated = true := endsOnce_any (Bool.not_eq_false _ ▸ h)
    exact absurd hany (by simp [hopen])
  simp [hclosed]

/-- Of the blocks of a routine, only the one named `n` may have no terminator. -/
theorem countP_pending {bs : List Block} {n : String} (hnames : (bs.map Block.name).Nodup)
    (hn : n ∈ bs.map Block.name) {closed : Prop} [Decidable closed]
    (h : ∀ b ∈ bs, b.isTerminated = false ↔ b.name = n ∧ ¬ closed) :
    bs.countP (fun b => !b.isTerminated) = if closed then 0 else 1 := by
  have hsame : bs.countP (fun b => !b.isTerminated) = bs.countP fun b => b.name = n ∧ ¬ closed :=
    List.countP_congr fun b hb => by simpa using h b hb
  rw [hsame]
  split_ifs with hclosed
  · simp [hclosed]
  · have hcount : (bs.map Block.name).count n = 1 := List.count_eq_one_of_mem hnames hn
    rw [← hcount, List.count, List.countP_map]
    refine List.countP_congr fun b _ => ?_
    simp [hclosed]

end Closing

/-- A routine that compiles has one block without terminator, or none. All of its blocks have one
just if a `return`, `break` or `continue` stands at the top of its body behind the last conditional
or loop, imported files included. Otherwise it is not accepted. That is so for a routine that has no
such statement at the top of its body, whatever its type, and for one that ends with a conditional
or a loop, whatever is in there. -/
theorem routine_closed_iff {e : Edition} (he : e.has .functions = true) {s t : Session}
    (hs : Reachable e s)
    {files : Files} {depth : Nat} {name : String} {params : List Param} {type : Literal}
      {body : List Stmt}
    (h : (Gen.statement e (Gen.importer e files depth) (.fn name (some params) type body)).run
      s = (.ok (), t)) :
    ∃ flat r, (∀ ss done, Spliced e files s.pallets body ss done ↔ ss = flat ∧ done = t.pallets) ∧
      t.assembly.routine? name = some r ∧
      r.blocks.countP (fun b => !b.isTerminated) = (if tailOf flat = .jump then 0 else 1) ∧
      ((∀ b ∈ r.blocks, b.isTerminated = true) ↔ tailOf flat = .jump) ∧
      (tailOf flat ≠ .jump → r.isAccepted = false ∧ t.assembly.isAccepted = false) ∧
      ((∀ st ∈ flat, st.leaves = false) → tailOf flat ≠ .jump) ∧
      ∀ before last, body = before ++ [last] → last.tail = .join → tailOf flat ≠ .jump := by
  obtain ⟨flat, p, hspliced, rfl, hsound, hcode, hpending⟩ :=
    fn_stops he (hs.valid he).orderly (hs.scopes_ne_nil he) h
  obtain ⟨is, his⟩ := Option.isSome_iff_exists.mp hcode
  obtain ⟨r, hr, hblock⟩ := Option.bind_eq_some_iff.mp his
  obtain ⟨b₀, hb₀, -⟩ := Option.map_eq_some_iff.mp hblock
  have hname : r.name = p.routine := Assembly.routine?_name hr
  have hr' : t.assembly.routine? r.name = some r := hname ▸ hr
  have hopen : ∀ b ∈ r.blocks, b.isTerminated = false ↔ b.name = p.block ∧
      ¬ tailOf flat = .jump := by
    intro b hb
    have hplace : (⟨r.name, b.name⟩ : Place) = p ↔ b.name = p.block :=
      ⟨congrArg Place.block, fun hb => by rw [hname, hb]⟩
    rw [← Session.pending_of_mem hsound hr' hb, hpending ⟨r.name, b.name⟩ hname, hplace]
  have hcount := countP_pending (hsound.blocks r (Assembly.mem_of_routine? hr)).1
    (List.mem_map.mpr ⟨b₀, List.mem_of_find?_eq_some hb₀, Routine.block?_name hb₀⟩) hopen
  have hrefused : tailOf flat ≠ .jump → r.isAccepted = false := fun htail =>
    Routine.isAccepted_of_pending (List.mem_of_find?_eq_some hb₀)
      ((hopen b₀ (List.mem_of_find?_eq_some hb₀)).mpr ⟨Routine.block?_name hb₀, htail⟩)
  refine ⟨flat, r, fun ss done => ⟨hspliced.unique, ?_⟩, hr, hcount, ?_, fun htail =>
    ⟨hrefused htail, ?_⟩, tailOf_ne_jump, ?_⟩
  · rintro ⟨rfl, rfl⟩
    exact hspliced
  · have hall : (∀ b ∈ r.blocks, b.isTerminated = true) ↔
        r.blocks.countP (fun b => !b.isTerminated) = 0 := by
      simp [List.countP_eq_zero]
    rw [hall, hcount]
    split_ifs with htail <;> simp [htail]
  · rw [Assembly.isAccepted, List.all_eq_false]
    exact ⟨_, Assembly.mem_of_routine? hr, by simp [Item.isAccepted, hrefused htail]⟩
  · rintro before last rfl hlast
    have himport : ∀ path, last ≠ .importPallet path := by
      rintro path rfl
      cases hlast
    obtain ⟨before', rfl⟩ := hspliced.last himport
    rw [tailOf_append, tailOf, tailOf, Tail.andThen_same, hlast]
    simp [Tail.andThen]

namespace EndingSample

/-- Both branches return, and so does what follows. -/
def body : List Stmt :=
  [.expr (.ifElse (.infixed (.int 1) .eq (.int 1)) [.ret (.int 1)] [.ret (.int 2)]), .ret (.int 3)]

def compiled (body : List Stmt) (type : String) : Except Failure Unit × Session :=
  (Gen.statement .latest (Gen.importer .latest ⟨[], []⟩ 1)
    (.fn "f" (some []) (.text type) body)).run (.start .latest)

end EndingSample

open EndingSample

theorem routine_closed_iff_return : ∃ r, (compiled body "int").2.assembly.routine? "f" = some r ∧
    r.blocks.length = 4 ∧ ∀ b ∈ r.blocks, b.isTerminated = true := by
  have hok : (compiled body "int").1.isOk = true := by decide +kernel
  have hlength : ((compiled body "int").2.assembly.routine? "f").map
    (·.blocks.length) = some 4 := by decide +kernel
  have hspliced : Spliced .latest ⟨[], []⟩ (Session.start .latest).pallets body body [] :=
    .stmt (by simp) (.expr (.ifElse (.cons (.simpleStmt rfl) .nil) (.cons (.simpleStmt rfl) .nil)))
      (.stmt (by simp) (.simpleStmt rfl) .nil)
  rcases hrun : compiled body "int" with ⟨result, t⟩
  rw [hrun] at hok hlength
  cases result with
  | error f => cases hok
  | ok _ =>
    obtain ⟨flat, r, hflat, hr, -, hclosed, -⟩ := routine_closed_iff (by decide) .start hrun
    obtain ⟨rfl, -⟩ := (hflat body []).mp hspliced
    rw [hr] at hlength
    exact ⟨r, hr, Option.some.inj hlength, hclosed.mpr (by decide)⟩

/-- A routine without result and without statements, and one whose branches both return. -/
theorem routine_left_open :
    let branches : List Stmt := [.expr
    (.ifElse (.infixed (.int 1) .eq (.int 1)) [.ret (.int 1)] [.ret (.int 2)])]
    (compiled [] "void").1.isOk = true ∧
      (compiled [] "void").2.assembly.code? ⟨"f", "f_entry"⟩ = some [] ∧
      (compiled [] "void").2.assembly.isAccepted = false ∧
      (compiled branches "int").1.isOk = true ∧
      (compiled branches "int").2.assembly.code? ⟨"f", "f_entry.endif"⟩ = some [] ∧
      (compiled branches "int").2.assembly.isAccepted = false := by
  decide +kernel

end LimeLang
