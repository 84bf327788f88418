import LimeLang.Proofs.ScopeFrames

/-! The scope around a routine. Whatever is declared in a body, the scope in which the routine
stands only gets its name. So behind a whole program there is one scope, with the routines that
stand outside of all others. -/

namespace LimeLang

open Code

theorem Literal.same_text_iff {l : Literal} {x : String} : l.same (.text x) = true ↔
    l = .text x := by
  rw [Literal.same, decide_eq_true_eq]
  constructor
  · intro hkey
    cases l with
    | text y => exact hkey
    | int n => cases hkey
    | float y =>
      rw [Literal.key] at hkey
      split at hkey
      · split_ifs at hkey
        · cases hkey
        · cases hkey
      · cases hkey
  · rintro rfl
    rfl

section Tables

variable {β : Type}

/-- A name that is new comes last, and one that is there keeps its place. -/
theorem Table.define_text (t : Table β) (x : String) (b : β) :
    (.text x ∉ t.names ∧ t.define (.text x) b = t ++ [(.text x, b)]) ∨
    ∃ before c behind, .text x ∉ Table.names before ∧ t = before ++ (.text x, c) :: behind ∧
      t.define (.text x) b = before ++ (.text x, b) :: behind := by
  induction t with
  | nil => exact .inl ⟨by simp [Table.names], rfl⟩
  | cons entry t ih =>
    obtain ⟨m, c⟩ := entry
    by_cases hm : m.same (.text x) = true
    · obtain rfl := Literal.same_text_iff.mp hm
      refine .inr ⟨[], c, t, by simp [Table.names], rfl, ?_⟩
      rw [Table.define, if_pos hm]
      rfl
    · have hne : m ≠ .text x := fun heq => hm (Literal.same_text_iff.mpr heq)
      rw [Table.define, if_neg hm]
      rcases ih with ⟨hnew, hdefine⟩ | ⟨before, c', behind, hnew, rfl, hdefine⟩
      · refine .inl ⟨?_, by rw [hdefine, List.cons_append]⟩
        rw [Table.names, List.map_cons, List.mem_cons, not_or]
        exact ⟨hne.symm, hnew⟩
      · refine .inr ⟨(m, c) :: before, c', behind, ?_, rfl, by rw [hdefine, List.cons_append]⟩
        rw [Table.names, List.map_cons, List.mem_cons, not_or]
        exact ⟨hne.symm, hnew⟩

theorem Table.define_new {t : Table β} {x : String} (h : .text x ∉ t.names) (b : β) :
    t.define (.text x) b = t ++ [(.text x, b)] := by
  rcases t.define_text x b with ⟨-, hdefine⟩ | ⟨before, c, behind, -, rfl, -⟩
  · exact hdefine
  · exact absurd (by simp [Table.names]) h

theorem Chain.define_all_new {fs : List (String × β)} {t : Table β} {parents : Chain β}
    (hnew : ∀ f ∈ fs, .text f.1 ∉ t.names) (hdistinct : (fs.map Prod.fst).Nodup) :
    fs.foldl (fun c f => Chain.define c (.text f.1) f.2) (t :: parents) =
      (t ++ fs.map fun f => (.text f.1, f.2)) :: parents := by
  induction fs generalizing t with
  | nil => simp
  | cons f fs ih =>
    obtain ⟨hf, hfs⟩ := List.forall_mem_cons.mp hnew
    rw [List.map_cons, List.nodup_cons] at hdistinct
    have hnext : ∀ g ∈ fs, .text g.1 ∉ Table.names (t ++ [(.text f.1, f.2)]) := by
      intro g hg hmem
      rw [Table.names, List.map_append, List.mem_append] at hmem
      rcases hmem with hmem | hmem
      · exact hfs g hg hmem
      · have heq : g.1 = f.1 := by simpa using hmem
        exact hdistinct.1 (heq ▸ List.mem_map_of_mem hg)
    rw [List.foldl_cons, Chain.define, Table.define_new hf, ih hnext hdistinct.2]
    simp

end Tables

/-- The scope that an edition starts with. -/
def Session.builtinScope (e : Edition) : Table Binding :=
  (Session.builtins e).map fun b => (.text b.1.name, ⟨b.1.operand, b.2⟩)

theorem Session.builtinScope_named {e : Edition} {x : String}
    (h : .text x ∈ (Session.builtinScope e).names) : (Session.start e).assembly.item? x ≠ none := by
  rw [Table.names, Session.builtinScope, List.map_map] at h
  obtain ⟨b, hb, hx⟩ := List.mem_map.mp h
  obtain rfl : b.1.name = x := Literal.text.inj hx
  rw [Session.item?_start e b hb]
  simp

theorem exists_routines {a : Assembly} {fs : List (String × Binding)}
    (h : ∀ f ∈ fs, f.2.OfRoutine a f.1) : ∃ rs :
      List Routine, (∀ r ∈ rs, a.routine? r.name = some r) ∧
      fs = rs.map fun r => (r.name, ⟨r.operand, r.result⟩) := by
  induction fs with
  | nil => exact ⟨[], by simp, rfl⟩
  | cons f fs ih =>
    obtain ⟨⟨r, hr, hb⟩, hfs⟩ := List.forall_mem_cons.mp h
    obtain ⟨rs, hrs, rfl⟩ := ih hfs
    have hname : r.name = f.1 := Assembly.routine?_name hr
    refine ⟨r :: rs, List.forall_mem_cons.mpr ⟨hname ▸ hr, hrs⟩, ?_⟩
    rw [List.map_cons, hname, ← hb]

section Routines

variable {e : Edition} (he : e.has .functions = true)

include he

theorem fn_scopes {s t : Session} (hs : s.scopes ≠ []) {files : Files} {depth : Nat} {name : String}
    {params : Option (List Param)} {type : Literal} {body : List Stmt}
    (hrun : (Gen.statement e (Gen.importer e files depth) (.fn name params type body)).run
      s = (.ok (), t)) :
    ∃ r, s.assembly.item? name = none ∧ t.assembly.routine? name = some r ∧
      e.type? type = some r.result ∧
      t.scopes = s.scopes.define (.text name) ⟨r.operand, r.result⟩ := by
  cases params with
  | none =>
    rw [Gen.statement] at hrun
    cases hrun
  | some params =>
    have hgrows := Assembly.Retains.steps.closed.importer e files depth
    have hbody := statements_completing hgrows (importer_completing he files depth) body
    obtain ⟨b, vs, hscopes, -, -, hnew, htype, r, hr, rfl⟩ := (fn_ends hgrows hs hbody).ok hrun
    exact ⟨r, hnew, hr, htype, hscopes⟩

/-- A routine touches the scopes around it in its own name only. The current scope is the same as
before, its entries and those of the scopes further out stay as they are and in order, and the
routine stands in it with the type that it gives: in place of what had its name, or else last. So
behind a program that compiles from the start there is one scope, with the globals of the edition
and behind them just the routines outside of all others, those of imported files included, in
order. -/
theorem routine_scopes :
    (∀ s, Reachable e s → ∀ (files : Files) (depth : Nat) (name : String)
        (params : Option (List Param)) (type : Literal) (body : List Stmt),
      ((Gen.statement e (Gen.importer e files depth) (.fn name params type body)).run s).1 =
        .ok () →
      let t := ((Gen.statement e (Gen.importer e files depth) (.fn name params type body)).run s).2
      ∃ (r : Routine) (scope scope' : Table Binding) (parents : Chain Binding),
        s.assembly.item? name = none ∧ t.assembly.routine? name = some r ∧
        e.type? type = some r.result ∧ s.scopes = scope :: parents ∧ t.scopes = scope' :: parents ∧
        ((.text name ∉ scope.names ∧ scope' = scope ++ [(.text name, ⟨r.operand, r.result⟩)]) ∨
          ∃ before b behind, .text name ∉ Table.names before ∧
            scope = before ++ (.text name, b) :: behind ∧
            scope' = before ++ (.text name, ⟨r.operand, r.result⟩) :: behind)) ∧
    ∀ (files : Files) (depth : Nat) (p : Program),
      ((Gen.program e (Gen.importer e files depth) p).run (Session.start e)).1 = .ok () →
      let t := ((Gen.program e (Gen.importer e files depth) p).run (Session.start e)).2
      ∃ rs : List Routine, (∀ r ∈ rs, t.assembly.routine? r.name = some r) ∧
        t.scopes = [Session.builtinScope e ++ rs.map fun r =>
        (.text r.name, ⟨r.operand, r.result⟩)] ∧ ∀ vs done, Visits e files [] (.program p) vs done ↔
          vs = rs.map (fun r => .routine r.name) ∧ done = t.pallets := by
  constructor
  · intro s hs files depth name params type body hok t
    have hne := hs.scopes_ne_nil he
    obtain ⟨r, hnew, hr, htype, hscopes⟩ := fn_scopes he hne (t := t) (Prod.ext hok rfl)
    cases hchain : s.scopes with
    | nil => exact absurd hchain hne
    | cons scope parents =>
      rw [hchain, Chain.define] at hscopes
      exact ⟨r, scope, _, parents, hnew, hr, htype, rfl, hscopes, scope.define_text name _⟩
  · intro files depth p hok t
    have hrun : (Gen.node e (Gen.importer e files depth) (.program p)).run
        (Session.start e) = (.ok (), t) :=
      Prod.ext hok rfl
    clear_value t
    obtain ⟨vs, ⟨hvisits, -⟩, houtside⟩ :=
      (node_completing he files depth (.program p) _ (by simp [Session.start])).ok hrun
    obtain ⟨fs, rfl, hdeclares⟩ := houtside rfl
    have hnew : ∀ f ∈ fs, .text f.1 ∉ (Session.builtinScope e).names :=
      fun f hf hmem => Session.builtinScope_named hmem (hdeclares.new f hf)
    have hscopes : t.scopes = [Session.builtinScope e ++ fs.map fun f => (.text f.1, f.2)] :=
      hdeclares.scopes.trans (Chain.define_all_new hnew hdeclares.distinct)
    obtain ⟨rs, hrs, rfl⟩ := exists_routines hdeclares.routines
    rw [List.map_map] at hvisits hscopes
    refine ⟨rs, hrs, hscopes, fun vs done => ⟨hvisits.unique, ?_⟩⟩
    rintro ⟨rfl, rfl⟩
    exact hvisits

end Routines

/-- A routine takes the name of a variable, after a failure; and a program imports a file and has a
routine inside of a routine. -/
theorem routine_scopes_shadowing :
    let broken : Node := .stmt (.fn "main" (some []) (.text "int")
      [.letVar "x" (.int 1) "int", .letVar "y" (.int 2) "int", .missing])
    let s := ((Gen.node .latest (Gen.importer .latest ⟨[], []⟩ 1) broken).run (.start .latest)).2
    let params : List Param := [⟨.text "y", .text "int"⟩]
    let body : List Stmt := [.forLoop (.letVar "i" (.int 0) "int")
      (.infixed (.ident "i") .lt (.int 9))
      (.bare (.stepped (.ident "i") .increment)) [.letVar "z" (.ident "y") "int"],
        .ret (.ident "y")]
    let t := ((Gen.statement .latest (Gen.importer .latest ⟨[], []⟩ 1)
      (.fn "x" (some params) (.text "int") body)).run s).2
    let files : Files := ⟨[("tests\\lib.lime", "fn lib() -> int { return 1; }")], []⟩
    let p : Program := [.importPallet "lib.lime", .fn "main" (some []) (.text "int")
      [.fn "inner" (some []) (.text "int") [.ret (.int 1)], .importPallet "lib.lime",
      .ret (.int 2)]]
    let u := ((Gen.program .latest (Gen.importer .latest files 2) p).run (.start .latest)).2
    (∃ (r : Routine) (scope scope' : Table Binding) (parents : Chain Binding),
      t.assembly.routine? "x" = some r ∧ r.result = .i32 ∧ s.scopes = scope :: parents ∧
      t.scopes = scope' :: parents ∧ ∃ before b behind, scope = before ++ (.text "x", b) :: behind ∧
        scope' = before ++ (.text "x", ⟨r.operand, .i32⟩) :: behind) ∧
    (∃ rs : List Routine, (∀ r ∈ rs, u.assembly.routine? r.name = some r) ∧
      u.scopes = [Session.builtinScope .latest ++ rs.map fun r =>
      (.text r.name, ⟨r.operand, r.result⟩)]) ∧
    u.scopes.map Table.names = [[.text "printf", .text "true", .text "false", .text "lib",
      .text "main"]] := by
  intro broken s params body t files p u
  have hs : Reachable .latest s := .compile _ _ _ .start
  obtain ⟨hroutine, hprogram⟩ := routine_scopes (e := .latest) (by decide)
  have hu : u.scopes.map Table.names =
      [[.text "printf", .text "true", .text "false", .text "lib",
        .text "main"]] := by decide +kernel
  have hx : s.scopes.map Table.names = [[.text "main", .text "x", .text "y"],
      [.text "printf", .text "true", .text "false"]] := by decide +kernel
  have hint : Edition.latest.type? (.text "int") = some .i32 := by decide
  have hok : ((Gen.statement .latest (Gen.importer .latest ⟨[], []⟩ 1)
      (.fn "x" (some params) (.text "int") body)).run s).1 = .ok () := by decide +kernel
  have hok' : ((Gen.program .latest (Gen.importer .latest files 2) p).run (.start .latest)).1 =
      .ok () := by decide +kernel
  obtain ⟨r, scope, scope', parents, -, hr, htype, hscopes, hscopes', hdefine⟩ :=
    hroutine s hs ⟨[], []⟩ 1 "x" (some params) (.text "int") body hok
  obtain ⟨rs, hrs, hglobal, -⟩ := hprogram files 2 p hok'
  have hresult : r.result = .i32 := Option.some.inj (htype.symm.trans hint)
  refine ⟨⟨r, scope, scope', parents, hr, hresult, hscopes, hscopes', ?_⟩, ⟨rs, hrs, hglobal⟩, hu⟩
  rcases hdefine with ⟨hnew, -⟩ | ⟨before, b, behind, -, hbefore, hbehind⟩
  · rw [hscopes, List.map_cons] at hx
    rw [(List.cons.inj hx).1] at hnew
    exact absurd (by simp) hnew
  · exact ⟨before, b, behind, hbefore, hresult ▸ hbehind⟩

end LimeLang
