import LimeLang.Proofs.ScopeFrames
import LimeLang.Proofs.StatementParts

/-! What an import does by itself. The rest of code generation does not see which files have been
opened or imported, nor what has been printed; so the same code comes out whatever is noted
there. -/

namespace LimeLang

open Code

namespace Gen

section Congruence

variable {e : Edition} {f g : String → Gen Unit}

mutual

theorem effect_congr : ∀ x : Expr, (∀ path ∈ x.imports, f path = g path) →
    effect e f x = effect e g x
  | .missing, _ | .int _, _ | .float _, _ | .ident _, _ | .bool _, _ | .str _, _ | .prefixed .., _
  | .infixed .., _ | .call .., _ | .openCall _, _ | .stepped .., _ => by rw [effect, effect]
  | .ifThen c body, h => by
    rw [effect, effect]
    simp only [statements_congr body h]
  | .ifElse c body alternative, h => by
    rw [Expr.imports] at h
    obtain ⟨hbody, halternative⟩ := List.forall_mem_append.mp h
    rw [effect, effect]
    simp only [statements_congr body hbody, statements_congr alternative halternative]

theorem statement_congr : ∀ st : Stmt, (∀ path ∈ st.imports, f path = g path) →
    statement e f st = statement e g st
  | .missing, _ | .letVar .., _ | .ret _, _ | .assign .., _ | .breakLoop, _ | .continueLoop, _ => by
    simp only [statement]
  | .expr x, h | .bare x, h => by
    rw [statement, statement]
    exact effect_congr x h
  | .fn name none type body, _ => by rw [statement, statement]
  | .fn name (some params) type body, h => by
    rw [statement, statement]
    simp only [statements_congr body h]
  | .whileLoop c body, h => by
    rw [statement, statement]
    simp only [statements_congr body h]
  | .forLoop init c next body, h => by
    rw [Stmt.imports] at h
    obtain ⟨hfirst, hnext⟩ := List.forall_mem_append.mp h
    obtain ⟨hinit, hbody⟩ := List.forall_mem_append.mp hfirst
    rw [statement, statement]
    simp only [statement_congr init hinit, statements_congr body hbody, statement_congr next hnext]
  | .importPallet path, h => by
    rw [statement, statement]
    exact h path (List.mem_singleton.mpr rfl)

theorem statements_congr : ∀ ss : List Stmt, (∀ path ∈ imports ss, f path = g path) →
    statements e f ss = statements e g ss
  | [], _ => by rw [statements, statements]
  | st :: ss, h => by
    rw [imports] at h
    obtain ⟨hst, hss⟩ := List.forall_mem_append.mp h
    rw [statements, statements, statement_congr st hst, statements_congr ss hss]

end

end Congruence

end Gen

section Margins

variable {α β : Type} {g : Gen α} {s t : Session} {r : Except Failure α}

def Margin.print (m : Margin) (lines : List String) :
    Margin := { m with output := m.output ++ lines }

theorem Margin.print_nil (m : Margin) : m.print [] = m := by
  rw [Margin.print, List.append_nil]

theorem Margin.print_print (m : Margin) (lines lines' : List String) :
    (m.print lines).print lines' = m.print (lines ++ lines') := by
  simp only [Margin.print, List.append_assoc]

/-- The computation does not look at the margin of a session. It leaves it alone, except for
remarks. -/
def Blind {α : Type} (g : Gen α) : Prop :=
  ∀ s : Session, ∃ r, ∃ t : Session, ∃ lines, (∀ line ∈ lines, line ∈ Gen.remarks) ∧
    r ≠ .error .importsTooDeep ∧ ∀ m, g.run (s.withMargin m) = (r, t.withMargin (m.print lines))

namespace Blind

theorem silent (h : ∀ s : Session, ∃ r, ∃ t : Session, r ≠ .error .importsTooDeep ∧
    ∀ m, g.run (s.withMargin m) = (r, t.withMargin m)) : Blind g := by
  intro s
  obtain ⟨r, t, hr, hrun⟩ := h s
  exact ⟨r, t, [], by simp, hr, fun m => by rw [hrun, Margin.print_nil]⟩

theorem pure (a : α) : Blind (Pure.pure a : Gen α) :=
  silent fun s => ⟨.ok a, s, by simp, fun _ => rfl⟩

theorem throw {f : Failure} (hf : f ≠ .importsTooDeep) : Blind (MonadExcept.throw f : Gen α) :=
  silent fun s => ⟨.error f, s, by simpa using hf, fun _ => rfl⟩

theorem bind {f : α → Gen β} (hg : Blind g) (hf : ∀ a, Blind (f a)) : Blind (g >>= f) := by
  intro s
  obtain ⟨r, t, lines, hlines, hr, hrun⟩ := hg s
  cases r with
  | error failure =>
    refine ⟨.error failure, t, lines, hlines, by simpa using hr, fun m => ?_⟩
    rw [Gen.run_bind, hrun]
  | ok a =>
    obtain ⟨r, u, lines', hlines', hr, hrun'⟩ := hf a t
    refine ⟨r, u, lines ++ lines', List.forall_mem_append.mpr ⟨hlines, hlines'⟩, hr, fun m => ?_⟩
    rw [Gen.run_bind, hrun]
    dsimp only
    rw [hrun', Margin.print_print]

theorem get {f : Session → Gen β} (hf : ∀ s, Blind (f s))
    (hmargin : ∀ s m, f (s.withMargin m) = f s) : Blind (MonadState.get >>= f) := by
  intro s
  obtain ⟨r, t, lines, hlines, hr, hrun⟩ := hf s s
  refine ⟨r, t, lines, hlines, hr, fun m => ?_⟩
  rw [Gen.run_bind, Gen.run_get]
  dsimp only
  rw [hmargin, hrun]

theorem modified {f : Session → Session} (hf : ∀ s m, f (s.withMargin m) = (f s).withMargin m) :
    Blind (modify f : Gen Unit) :=
  silent fun s => ⟨.ok (), f s, by simp, fun m => by rw [Gen.run_modify, hf]⟩

theorem print {line : String} (hline : line ∈ Gen.remarks) : Blind (Gen.print line) :=
  fun s => ⟨.ok (), s, [line], by simpa using hline, by simp, fun _ => rfl⟩

theorem emit (op : Op) : Blind (Gen.emit op) := by
  refine silent fun s => ?_
  cases hp : s.place with
  | none => exact ⟨_, s, by simp, fun m => Gen.run_emit_nowhere (s := s.withMargin m) hp⟩
  | some p =>
    cases hr : s.assembly.routine? p.routine with
    | none => exact ⟨_, s, by simp, fun m => Gen.run_emit_unknown (s := s.withMargin m) hp hr⟩
    | some r =>
      have hrun := fun m => @Gen.run_emit_at (s.withMargin m) op r p hp hr
      by_cases hended : (op.isTerminator &&
          (s.assembly.code? p).any fun is => is.any (·.op.isTerminator)) = true
      · exact ⟨_, { s with assembly := s.assembly.modifyRoutine p.routine fun _ => r.takeName.2 },
          by simp, fun m => (hrun m).trans (if_pos hended)⟩
      · exact ⟨_, { s with assembly := s.assembly.withInstr p r op }, by simp,
          fun m => (hrun m).trans (if_neg hended)⟩

theorem addItem (i : Item) : Blind (Gen.addItem i) := by
  refine silent fun s => ?_
  cases hi : s.assembly.item? i.name with
  | some j => exact ⟨_, s, by simp, fun m => Gen.run_addItem_taken (s := s.withMargin m) hi⟩
  | none =>
    exact ⟨_, { s with assembly := s.assembly.add i }, by simp, fun m => Gen.run_addItem (s :=
      s.withMargin m) hi⟩

theorem addBlockTo (n name : String) : Blind (Gen.addBlockTo n name) := by
  refine silent fun s => ?_
  cases hr : s.assembly.routine? n with
  | none => exact ⟨_, s, by simp, fun m => Gen.run_addBlockTo_unknown (s := s.withMargin m) hr⟩
  | some r =>
    exact ⟨_, { s with assembly := s.assembly.withBlock r name }, by simp,
      fun m => Gen.run_addBlockTo (s := s.withMargin m) hr⟩

theorem moveToStart (q : Place) : Blind (Gen.moveToStart q) := by
  refine silent fun s => ?_
  by_cases hempty : s.assembly.code? q = some []
  · exact ⟨_, { s with place := some q }, by simp, fun m =>
      (Gen.run_moveToStart q (s.withMargin m)).trans (if_pos hempty)⟩
  · exact ⟨_, s, by simp, fun m => (Gen.run_moveToStart q (s.withMargin m)).trans (if_neg hempty)⟩

end Blind

/-- Only imports look at the margin. -/
theorem blind : ClosedSteps Blind where
  pure := .pure
  throw hf := .throw hf.2.2
  bind := .bind
  get := .get
  print := .print
  record _ := .modified fun _ _ => rfl
  countUp := .bind (.modified fun _ _ => rfl) fun _ => .get (fun _ => .pure _) fun _ _ => rfl
  emit _ := .emit _
  addConstant _ := .addItem _
  define _ _ := .modified fun _ _ => rfl
  enterScope := .modified fun _ _ => rfl
  leaveScopes _ := .modified fun _ _ => rfl
  terminate _ := .emit _
  addRoutine _ := .addItem _
  addBlockTo := .addBlockTo
  moveTo _ := .modified fun _ _ => rfl
  moveToStart := .moveToStart
  startBuilder _ := .modified fun _ _ => rfl
  resumeBuilder _ _ := .modified fun _ _ => rfl
  changeLoops _ := .modified fun _ _ => rfl

theorem Blind.of_run (hg : Blind g) (hrun : g.run s = (r, t)) :
    ∃ lines, (∀ line ∈ lines, line ∈ Gen.remarks) ∧
    r ≠ .error .importsTooDeep ∧ t.pallets = s.pallets ∧ t.opened = s.opened ∧
      t.output = s.output ++ lines ∧
      ∀ m, g.run (s.withMargin m) = (r, t.withMargin (m.print lines)) := by
  obtain ⟨r', t', lines, hlines, hr, hall⟩ := hg s
  have hown : g.run s = (r', t'.withMargin (Margin.print ⟨s.pallets, s.opened, s.output⟩ lines)) :=
    hall ⟨s.pallets, s.opened, s.output⟩
  obtain ⟨rfl, rfl⟩ := Prod.mk.inj (hrun.symm.trans hown)
  exact ⟨lines, hlines, hr, rfl, rfl, rfl, hall⟩

end Margins

theorem Files.pallet?_eq_some {files : Files} {e : Edition} {path : String} {p : Program}
    (h : files.pallet? e path = some p) :
    ∃ source, files.read (Files.normalize ("tests\\" ++ path).toList) = .ok source ∧
      (Scan.ofSource e source).failure = none ∧
      Parsed.ofLexemes e (Scan.ofSource e source).lexemes = ⟨p, []⟩ := by
  rw [Files.pallet?] at h
  split at h
  · cases h
  · rename_i source hread
    obtain ⟨⟨hscan, herr⟩, hp⟩ := Option.ite_none_right_eq_some.mp h
    refine ⟨source, hread, hscan, ?_⟩
    rw [← Option.some.inj hp, ← herr]

namespace Gen

variable {e : Edition} {files : Files} {path : String} {s : Session}

theorem run_forM_print {α : Type} (f : α → String) (as : List α) (s : Session) :
    (as.forM fun a => print (f a)).run s = (.ok (), { s with output := s.output ++ as.map f }) := by
  induction as generalizing s with
  | nil =>
    rw [List.map_nil, List.append_nil]
    rfl
  | cons a as ih =>
    have hfirst : (print (f a)).run s = (.ok (), { s with output := s.output ++ [f a] }) := rfl
    rw [List.forM, run_bind, hfirst]
    dsimp only
    rw [ih, List.map_cons, List.append_assoc, List.singleton_append]

/-- What is done with the text of a file, once it is read. -/
def compileText (e : Edition) (files : Files) (depth : Nat) (path source : String) : Gen Unit :=
  match (Scan.ofSource e source).failure with
  | some failure => throw (.numberTooLong failure)
  | none =>
    let parsed := Parsed.ofLexemes e (Scan.ofSource e source).lexemes
    if parsed.errors.isEmpty then do
      program e (importer e files depth) parsed.program
      modify fun s => { s with pallets := s.pallets ++ [path] }
    else do
      print ("Error with imported pallet: " ++ path)
      parsed.errors.forM fun error => print error.message
      throw .brokenPallet

theorem run_importer_read {source : String} (hpath : path ∉ s.pallets)
    (hread : files.read (Files.normalize ("tests\\" ++ path).toList) = .ok source) (depth : Nat) :
    (importer e files (depth + 1) path).run s = (compileText e files depth path source).run
      { s with
        opened := s.opened ++ [path]
        output := s.output ++ (Scan.ofSource e source).notices.map Notice.message } := by
  rw [importer, run_bind, run_get]
  dsimp only
  rw [if_neg (mt List.contains_iff_mem.mp hpath), hread]
  dsimp only
  rw [run_bind, run_modify]
  dsimp only
  rw [run_bind, run_forM_print]
  rfl

theorem run_importer_known (hpath : path ∈ s.pallets) (depth : Nat) :
    (importer e files (depth + 1) path).run s =
      (.ok (), { s with output := s.output ++ [alreadyImported path] }) := by
  rw [importer, run_bind, run_get]
  dsimp only
  rw [if_pos (List.contains_iff_mem.mpr hpath)]
  rfl

/-- A file that is new is opened, with the notices of its text, then compiled, then entered in the
list. -/
theorem run_importer_new {p : Program} (he : e.has .functions = true) (hpath : path ∉ s.pallets)
    (hp : files.pallet? e path = some p) : ∃ ns : List Notice, ∀ depth,
      (importer e files (depth + 1) path).run s =
        (do
          statements e (importer e files depth) p
          modify fun s => { s with pallets := s.pallets ++ [path] } : Gen Unit).run
            { s with
              opened := s.opened ++ [path], output := s.output ++ ns.map Notice.message } := by
  obtain ⟨source, hread, hscan, hparse⟩ := Files.pallet?_eq_some hp
  refine ⟨(Scan.ofSource e source).notices, fun depth => ?_⟩
  rw [run_importer_read hpath hread, compileText, hscan, hparse]
  dsimp only
  rw [if_pos List.isEmpty_nil, program, if_pos he]

/-- A file that cannot be read fails in the same way at every depth. -/
theorem run_importer_unreadable (hpath : path ∉ s.pallets) (hp : files.pallet? e path = none) :
    ∃ (failure : Failure) (m : Margin), failure ≠ .importsTooDeep ∧
      (m.opened = s.opened ∨ m.opened = s.opened ++ [path]) ∧
      ∀ depth, (importer e files (depth + 1) path).run s = (.error failure, s.withMargin m) := by
  cases hread : files.read (Files.normalize ("tests\\" ++ path).toList) with
  | error error =>
    refine ⟨.file error, ⟨s.pallets, s.opened, s.output⟩, by simp, .inl rfl, fun depth => ?_⟩
    rw [importer, run_bind, run_get]
    dsimp only
    rw [if_neg (mt List.contains_iff_mem.mp hpath), hread]
    rfl
  | ok source =>
    let noticed := s.output ++ (Scan.ofSource e source).notices.map Notice.message
    cases hscan : (Scan.ofSource e source).failure with
    | some failure =>
      refine ⟨.numberTooLong failure, ⟨s.pallets, s.opened ++ [path],
        noticed⟩, by simp, .inr rfl, ?_⟩
      intro depth
      rw [run_importer_read hpath hread, compileText, hscan]
      rfl
    | none =>
      have herrors : ¬ (Parsed.ofLexemes e (Scan.ofSource e source).lexemes).errors.isEmpty
          = true := by
        intro herrors
        rw [Files.pallet?_eq hread hscan rfl herrors] at hp
        cases hp
      let printed := noticed ++ ["Error with imported pallet: " ++ path] ++
        (Parsed.ofLexemes e (Scan.ofSource e source).lexemes).errors.map ParseError.message
      refine ⟨.brokenPallet, ⟨s.pallets, s.opened ++ [path],
        printed⟩, by simp, .inr rfl, fun depth => ?_⟩
      rw [run_importer_read hpath hread, compileText, hscan]
      dsimp only
      rw [if_neg herrors, run_bind, print, run_modify]
      dsimp only
      rw [run_bind, run_forM_print]
      rfl

end Gen

end LimeLang
