import LimeLang.Proofs.ImportOrder
import LimeLang.Proofs.Importing

/-! Where no files import each other in a circle, imports come to an end at some depth and no path
is opened twice for them. In a circle they do not, because a path counts as imported only when its
file has been compiled. -/

namespace LimeLang

open Code

/-- No import path has been opened twice, and those that were opened are imported or still being
compiled. -/
structure Session.Tidy (σ : List String) (s : Session) : Prop where
  nodup : s.opened.Nodup
  opened : ∀ path ∈ s.opened, path ∈ s.pallets ∨ path ∈ σ

/-- While the files of the paths `σ` are being compiled the computation opens no path twice. It does
not reach the limit of imports if it is bounded. -/
def KeepsTidy (σ : List String) (bounded : Prop) {α : Type} (g : Gen α) : Prop :=
  ∀ s : Session, s.Tidy σ → Leads g s (fun _ t => t.Tidy σ) fun failure t =>
    t.opened.Nodup ∧ (bounded → failure ≠ .importsTooDeep)

namespace KeepsTidy

variable {α β : Type} {σ : List String} {bounded : Prop} {g : Gen α}

theorem of_blind (hg : Blind g) : KeepsTidy σ bounded g := by
  refine fun s hs => .of_run (fun a t hrun => ?_) fun failure t hrun => ?_
  · obtain ⟨-, -, -, hpallets, hopened, -⟩ := hg.of_run hrun
    exact ⟨hopened ▸ hs.nodup, fun path hpath => hpallets ▸ hs.opened path (hopened ▸ hpath)⟩
  · obtain ⟨-, -, hlimit, -, hopened, -⟩ := hg.of_run hrun
    exact ⟨hopened ▸ hs.nodup, fun _ hfailure => hlimit (congrArg _ hfailure)⟩

theorem bind {f : α → Gen β} (hg : KeepsTidy σ bounded g) (hf : ∀ a, KeepsTidy σ bounded (f a)) :
    KeepsTidy σ bounded (g >>= f) := fun s hs => (hg s hs).bind fun a t ht => hf a t ht

theorem mono {bounded' : Prop} (hg : KeepsTidy σ bounded g) (h : bounded' → bounded) :
    KeepsTidy σ bounded' g := by
  refine fun s hs => .of_run (fun _ _ hrun => (hg s hs).ok hrun) fun failure t hrun => ?_
  obtain ⟨hnodup, hlimit⟩ := (hg s hs).error hrun
  exact ⟨hnodup, fun hbounded => hlimit (h hbounded)⟩

theorem nodup (hg : KeepsTidy σ bounded g) {s : Session} (hs : s.Tidy σ) :
    (g.run s).2.opened.Nodup := by
  cases hrun : g.run s with
  | mk r t =>
    cases r with
    | ok a => exact ((hg s hs).ok hrun).nodup
    | error failure => exact ((hg s hs).error hrun).1

theorem not_tooDeep (hg : KeepsTidy σ bounded g) {s : Session} (hs : s.Tidy σ)
    (hbounded : bounded) : (g.run s).1 ≠ .error .importsTooDeep := by
  intro hlimit
  exact ((hg s hs).error (Prod.ext hlimit rfl)).2 hbounded rfl

end KeepsTidy

theorem keepsTidy (σ : List String) (bounded : Prop) : ClosedSteps (KeepsTidy σ bounded) where
  pure a := .of_blind (blind.pure a)
  throw hf := .of_blind (blind.throw hf)
  bind := .bind
  get hf _ s hs := hf s s hs
  print hline := .of_blind (blind.print hline)
  record e := .of_blind (blind.record e)
  countUp := .of_blind blind.countUp
  emit hop := .of_blind (blind.emit hop)
  addConstant c := .of_blind (blind.addConstant c)
  define name b := .of_blind (blind.define name b)
  enterScope := .of_blind blind.enterScope
  leaveScopes depth := .of_blind (blind.leaveScopes depth)
  terminate hop := .of_blind (blind.terminate hop)
  addRoutine hr := .of_blind (blind.addRoutine hr)
  addBlockTo routine name := .of_blind (blind.addBlockTo routine name)
  moveTo p := .of_blind (blind.moveTo p)
  moveToStart p := .of_blind (blind.moveToStart p)
  startBuilder p := .of_blind (blind.startBuilder p)
  resumeBuilder builder p := .of_blind (blind.resumeBuilder builder p)
  changeLoops f := .of_blind (blind.changeLoops f)

section Importer

variable {e : Edition} (he : e.has .functions = true) {files : Files} {path : String}

include he

/-- What an import does depends on the depth only through what the file itself imports. -/
theorem importer_congr {d d' : Nat} (h : ∀ p, files.pallet? e path = some p → ∀ next ∈ imports p,
    Gen.importer e files d next = Gen.importer e files d' next) :
    Gen.importer e files (d + 1) path = Gen.importer e files (d' + 1) path := by
  have hruns : ∀ s, (Gen.importer e files (d + 1) path).run
      s = (Gen.importer e files (d' + 1) path).run s := by
    intro s
    by_cases hknown : path ∈ s.pallets
    · rw [Gen.run_importer_known hknown, Gen.run_importer_known hknown]
    cases hp : files.pallet? e path with
    | none =>
      obtain ⟨failure, m, -, -, hrun⟩ := Gen.run_importer_unreadable hknown hp
      rw [hrun, hrun]
    | some p =>
      obtain ⟨ns, hrun⟩ := Gen.run_importer_new he hknown hp
      rw [hrun, hrun, Gen.statements_congr p (h p hp)]
  exact funext hruns

theorem importer_keepsTidy {σ : List String} {bounded : Prop} (hpath : path ∉ σ) {depth : Nat}
    (hfile : ∀ p, files.pallet? e path = some p → ∀ next ∈ imports p,
      KeepsTidy (path :: σ) bounded (Gen.importer e files depth next)) :
    KeepsTidy σ bounded (Gen.importer e files (depth + 1) path) := by
  intro s hs
  by_cases hknown : path ∈ s.pallets
  · rw [Leads, Gen.run_importer_known hknown]
    exact ⟨hs.nodup, hs.opened⟩
  have hnew : (s.opened ++ [path]).Nodup := by
    refine hs.nodup.append (List.nodup_singleton _) ?_
    simpa using fun hmem => (hs.opened path hmem).elim hknown hpath
  cases hp : files.pallet? e path with
  | none =>
    obtain ⟨failure, m, hlimit, hopened, hrun⟩ := Gen.run_importer_unreadable hknown hp
    rw [Leads, hrun]
    refine ⟨?_, fun _ => hlimit⟩
    change m.opened.Nodup
    rcases hopened with hopened | hopened
    · exact hopened ▸ hs.nodup
    · exact hopened ▸ hnew
  | some p =>
    obtain ⟨ns, hrun⟩ := Gen.run_importer_new he hknown hp
    rw [Leads, hrun]
    let opened : Session :=
      { s with opened := s.opened ++ [path], output := s.output ++ ns.map Notice.message }
    have hopened : opened.Tidy (path :: σ) := by
      refine ⟨hnew, fun next hnext => ?_⟩
      rcases List.mem_append.mp hnext with hnext | hnext
      · exact (hs.opened next hnext).imp_right (List.mem_cons_of_mem _)
      · exact .inr (List.mem_cons.mpr (.inl (List.mem_singleton.mp hnext)))
    have hbody := (keepsTidy (path :: σ) bounded).statements (e := e) p (hfile p hp) opened hopened
    -- the file has been compiled, so it moves from the files in work to the imported ones
    refine hbody.bind fun _ t ht => ⟨ht.nodup, fun next hnext => ?_⟩
    rcases ht.opened next hnext with hdone | hwork
    · exact .inl (List.mem_append_left _ hdone)
    · rcases List.mem_cons.mp hwork with rfl | hwork
      · exact .inl (List.mem_append_right _ (List.mem_singleton.mpr rfl))
      · exact .inr hwork

/-- From the depth `enough` on, importing the path is the same at every depth and does not reach the
limit. At no depth is a path opened twice, unless the file leads to one that is being compiled. -/
structure Settles (e : Edition) (files : Files) (path : String) (enough : Nat) : Prop where
  same : ∀ d d', enough ≤ d → enough ≤ d' →
    Gen.importer e files d path = Gen.importer e files d' path
  tidy : ∀ depth σ, (∀ x ∈ σ, ¬ Relation.ReflTransGen (files.Imports e) path x) →
    KeepsTidy σ (enough ≤ depth) (Gen.importer e files depth path)

omit he

theorem Settles.mono {m n : Nat} (h : Settles e files path m) (hmn : m ≤ n) :
    Settles e files path n where
  same d d' hd hd' := h.same d d' (hmn.trans hd) (hmn.trans hd')
  tidy depth σ hσ := (h.tidy depth σ hσ).mono hmn.trans

theorem Settles.all {paths : List String} (h : ∀ path ∈ paths, ∃ n, Settles e files path n) :
    ∃ n, ∀ path ∈ paths, Settles e files path n := by
  induction paths with
  | nil => exact ⟨0, by simp⟩
  | cons path paths ih =>
    obtain ⟨hpath, hpaths⟩ := List.forall_mem_cons.mp h
    obtain ⟨m, hm⟩ := hpath
    obtain ⟨n, hn⟩ := ih hpaths
    refine ⟨max m n, List.forall_mem_cons.mpr ⟨hm.mono (le_max_left m n), fun next hnext => ?_⟩⟩
    exact (hn next hnext).mono (le_max_right m n)

include he

/-- By induction on what a file imports: it is enough to go one deeper than the files that it
imports. -/
theorem settles {p : Program} (hnot : ¬ files.Circular e p) (hpath : files.Reaches e p path) :
    ∃ n, Settles e files path n := by
  refine Files.Reaches.induction (motive := fun path => ∃ n, Settles e files path n) hnot
    (fun path hpath ih => ?_) hpath
  obtain ⟨n, hn⟩ : ∃ n, ∀ q, files.pallet? e path = some q →
      ∀ next ∈ imports q, Settles e files next n := by
    cases hq : files.pallet? e path with
    | none => exact ⟨0, by simp⟩
    | some q =>
      obtain ⟨n, hn⟩ := Settles.all fun next hnext => ih next ⟨q, hq, hnext⟩
      exact ⟨n, fun q' hq' => Option.some.inj hq' ▸ hn⟩
  refine ⟨n + 1, ⟨fun d d' hd hd' => ?_, fun depth σ hσ => ?_⟩⟩
  · obtain ⟨d, rfl⟩ := Nat.exists_eq_add_one_of_ne_zero (Nat.ne_zero_of_lt hd)
    obtain ⟨d', rfl⟩ := Nat.exists_eq_add_one_of_ne_zero (Nat.ne_zero_of_lt hd')
    exact importer_congr he fun q hq next hnext =>
      (hn q hq next hnext).same d d' (Nat.le_of_succ_le_succ hd) (Nat.le_of_succ_le_succ hd')
  · cases depth with
    | zero => exact fun s hs => ⟨hs.nodup, fun h => absurd h (Nat.not_succ_le_zero n)⟩
    | succ depth =>
      refine importer_keepsTidy he (fun hmem => hσ path hmem .refl) fun q hq next hnext => ?_
      refine ((hn q hq next hnext).tidy depth (path :: σ) fun x hx hback => ?_).mono
        Nat.le_of_succ_le_succ
      rcases List.mem_cons.mp hx with rfl | hx
      · exact hnot ⟨x, hpath, .head' ⟨q, hq, hnext⟩ hback⟩
      · exact hσ x hx (.head ⟨q, hq, hnext⟩ hback)

/-- A file that holds nothing but its own import is opened once more at each depth, down to the
limit. -/
theorem run_importer_self (hp : files.pallet? e path = some [.importPallet path]) (depth : Nat)
    (s : Session)
    (hs : path ∉ s.pallets) : ((Gen.importer e files depth path).run s).1 = .error .importsTooDeep ∧
      ((Gen.importer e files depth path).run s).2.opened =
        s.opened ++ List.replicate depth path := by
  induction depth generalizing s with
  | zero => exact ⟨rfl, (List.append_nil _).symm⟩
  | succ depth ih =>
    obtain ⟨ns, hrun⟩ := Gen.run_importer_new he hs hp
    obtain ⟨hlimit, hopened⟩ := ih
      { s with opened := s.opened ++ [path], output := s.output ++ ns.map Notice.message } hs
    rw [hrun, Gen.statements_singleton, Gen.statement, Gen.run_bind]
    generalize (Gen.importer e files depth path).run _ = result at hlimit hopened ⊢
    obtain ⟨r, t⟩ := result
    obtain rfl : r = .error .importsTooDeep := hlimit
    refine ⟨rfl, hopened.trans ?_⟩
    rw [List.append_assoc, List.replicate_succ, List.singleton_append]

end Importer

/-- Imports come to an end where no files import each other in a circle: at some depth the result is
settled, whatever it is, and at every depth no import path is opened twice. Paths count as they are
written, so two that lead to the same file open it once each. A program that leads into a circle
does not compile at any depth. -/
theorem importing_settles {e : Edition} (he : e.has .pallets = true) (files : Files) (p : Program) :
    let compiled := fun depth => (Gen.program e (Gen.importer e files depth) p).run (.start e)
    (¬ files.Circular e p →
      (∃ enough, ∀ depth, enough ≤ depth →
        compiled depth = compiled enough ∧ (compiled depth).1 ≠ .error .importsTooDeep) ∧
      ∀ depth, (compiled depth).2.opened.Nodup) ∧
    (files.Circular e p → ∀ depth, (compiled depth).1 ≠ .ok ()) := by
  intro compiled
  have hfunctions : e.has .functions = true := Edition.has_of_since_le (by decide) he
  have hcompiled : ∀ depth, compiled depth =
      (Gen.statements e (Gen.importer e files depth) p).run (.start e) := by
    intro depth
    simp only [compiled]
    rw [Gen.program, if_pos hfunctions]
  constructor
  · intro hnot
    obtain ⟨n, hn⟩ := Settles.all fun path hpath => settles hfunctions hnot ⟨path, hpath, .refl⟩
    have hstart : (Session.start e).Tidy [] := ⟨List.nodup_nil, by simp [Session.start]⟩
    have htidy : ∀ depth, KeepsTidy [] (n ≤ depth)
        (Gen.statements e (Gen.importer e files depth) p) :=
      fun depth => (keepsTidy [] (n ≤ depth)).statements p fun path hpath =>
        (hn path hpath).tidy depth [] (by simp)
    refine ⟨⟨n, fun depth hdepth => ?_⟩, fun depth => ?_⟩
    · have hsame := Gen.statements_congr (e := e) p fun path hpath =>
        (hn path hpath).same depth n hdepth le_rfl
      rw [hcompiled, hcompiled]
      exact ⟨by rw [hsame], (htidy depth).not_tooDeep hstart hdepth⟩
    · rw [hcompiled]
      exact (htidy depth).nodup hstart
  · intro hcircular depth hok
    have hscopes : (Session.start e).scopes ≠ [] := by simp [Session.start]
    have hrun : (Gen.node e (Gen.importer e files depth) (.program p)).run (.start e) =
        (.ok (), (compiled depth).2) := Prod.ext hok rfl
    obtain ⟨vs, ⟨hvisits, -⟩, -⟩ := (node_completing hfunctions files depth (.program p)
      _ hscopes).ok hrun
    exact hvisits.finished.2.2 hcircular

/-- One file is reached in two ways, and opened once. -/
theorem importing_settles_diamond :
    let files : Files := ⟨[("tests\\a.lime", "import \"c.lime\";"),
      ("tests\\b.lime", "import \"c.lime\";"),
      ("tests\\c.lime", "fn f() -> int \x7b return 1; \x7d")], []⟩
    let p : Program := [.importPallet "a.lime", .importPallet "b.lime"]
    let compiled := fun depth => (Gen.program .latest (Gen.importer .latest files depth) p).run
      (.start .latest)
    (compiled 2).2.opened = ["a.lime", "c.lime", "b.lime"] ∧
      (∃ enough, ∀ depth, enough ≤ depth →
        compiled depth = compiled enough ∧ (compiled depth).1 ≠ .error .importsTooDeep) ∧
      ∀ depth, (compiled depth).2.opened.Nodup := by
  intro files p compiled
  obtain ⟨hends, hcircle⟩ := importing_settles (e := .latest) (by decide) files p
  have hok : (compiled 2).1 = .ok () := by decide +kernel
  exact ⟨by decide +kernel, hends fun hcircular => hcircle hcircular 2 hok⟩

/-- A file that imports itself is opened again while it is being compiled. Its functions are then
defined twice, and if it has none it is opened down to the limit, whatever the limit is. -/
theorem circular_import_reopens :
    let helper :
    Files := ⟨[("tests\\a.lime", "fn f() -> int \x7b return 1; \x7d import \"a.lime\";")], []⟩
    let empty : Files := ⟨[("tests\\a.lime", "import \"a.lime\";")], []⟩
    let compiled := fun files depth =>
      (Gen.program .latest (Gen.importer .latest files depth) [.importPallet "a.lime"]).run
        (.start .latest)
    (compiled helper 9).1 = .error (.duplicateName "f") ∧
      (compiled helper 9).2.opened = ["a.lime", "a.lime"] ∧
      ∀ depth, (compiled empty depth).1 = .error .importsTooDeep ∧
        (compiled empty depth).2.opened = List.replicate depth "a.lime" := by
  intro helper empty compiled
  refine ⟨by decide +kernel, by decide +kernel, fun depth => ?_⟩
  have hpallet : empty.pallet? .latest "a.lime" = some [.importPallet "a.lime"] := by
    have hread : empty.read (Files.normalize ("tests\\" ++ "a.lime").toList) = .ok
        "import \"a.lime\";" := by
      decide +kernel
    have hlexemes : (Scan.ofSource .latest "import \"a.lime\";").lexemes =
        [⟨.importWord, .text "import"⟩, ⟨.string, .text "a.lime"⟩, ⟨.semicolon, .text ";"⟩] := by
      decide +kernel
    have hparse : Parsed.ofLexemes .latest (Scan.ofSource .latest "import \"a.lime\";").lexemes =
        ⟨[.importPallet "a.lime"], []⟩ := by
      rw [hlexemes]
      rfl
    exact Files.pallet?_eq hread (by decide +kernel) hparse rfl
  change ((Gen.statements .latest (Gen.importer .latest empty depth) [.importPallet "a.lime"]).run
    _).1 = _ ∧
    ((Gen.statements .latest (Gen.importer .latest empty depth) [.importPallet "a.lime"]).run
      _).2.opened = _
  rw [Gen.statements_singleton, Gen.statement]
  exact run_importer_self (by decide) hpallet depth _ (by simp [Session.start])

end LimeLang
