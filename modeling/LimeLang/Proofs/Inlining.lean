import LimeLang.Proofs.ImportOrder
import LimeLang.Proofs.Importing
import LimeLang.Proofs.NameTracking
import LimeLang.Proofs.ReadTrees

/-! Importing is inlining. The code for a program that imports files is the code for the program
that holds their statements itself, each file where it is first imported. -/

namespace LimeLang

open Code

/-- Puts files in the places where they are imported. A statement becomes a list of statements: the
first time a file is imported it becomes what is in the file, and later it is dropped. The first two
lists of files are those that have been imported before and after, the last one is that of the
imports that were dropped. -/
inductive Inlines (e : Edition) (files : Files) :
    List String → Node → Node → List String → List String → Prop
  | simpleExpr {done x} (hx : x.isSimple = true) : Inlines e files done (.expr x) (.expr x) done []
  | ifThen {done done' ds c body body'}
      (hbody : Inlines e files done (.block body) (.block body') done' ds) :
      Inlines e files done (.expr (.ifThen c body)) (.expr (.ifThen c body')) done' ds
  | ifElse {done done₁ done' ds ds' c body body' alternative alternative'}
      (hbody : Inlines e files done (.block body) (.block body') done₁ ds)
      (halternative : Inlines e files done₁ (.block alternative) (.block alternative') done' ds') :
      Inlines e files done (.expr (.ifElse c body alternative))
        (.expr (.ifElse c body' alternative')) done' (ds ++ ds')
  | simpleStmt {done st} (hst : st.isSimple = true) :
      Inlines e files done (.stmt st) (.block [st]) done []
  | expr {done done' ds x x'} (hx : Inlines e files done (.expr x) (.expr x') done' ds) :
      Inlines e files done (.stmt (.expr x)) (.block [.expr x']) done' ds
  | bare {done done' ds x x'} (hx : Inlines e files done (.expr x) (.expr x') done' ds) :
      Inlines e files done (.stmt (.bare x)) (.block [.bare x']) done' ds
  | whileLoop {done done' ds c body body'}
      (hbody : Inlines e files done (.block body) (.block body') done' ds) :
      Inlines e files done (.stmt (.whileLoop c body)) (.block [.whileLoop c body']) done' ds
  | forLoop {done done₁ done₂ done' ds₁ ds₂ ds₃ init init' c next next' body body'}
      (hinit : Inlines e files done (.stmt init) (.block [init']) done₁ ds₁)
      (hbody : Inlines e files done₁ (.block body) (.block body') done₂ ds₂)
      (hnext : Inlines e files done₂ (.stmt next) (.block [next']) done' ds₃) :
      Inlines e files done (.stmt (.forLoop init c next body))
        (.block [.forLoop init' c next' body']) done' (ds₁ ++ (ds₂ ++ ds₃))
  | fn {done done' ds name params type body body'}
      (hbody : Inlines e files done (.block body) (.block body') done' ds) :
      Inlines e files done (.stmt (.fn name params type body)) (.block [.fn name params type body'])
        done' ds
  | known {done path} (hpath : path ∈ done) :
      Inlines e files done (.stmt (.importPallet path)) (.block []) done [path]
  | pallet {done done' ds path p p'} (hpath : path ∉ done) (hp : files.pallet? e path = some p)
      (hbody : Inlines e files done (.block p) (.block p') done' ds) :
      Inlines e files done (.stmt (.importPallet path)) (.block p') (done' ++ [path]) ds
  | nil {done} : Inlines e files done (.block []) (.block []) done []
  | cons {done done₁ done' ds ds' st ss ss₁ ss'}
      (hst : Inlines e files done (.stmt st) (.block ss₁) done₁ ds)
      (hss : Inlines e files done₁ (.block ss) (.block ss') done' ds') :
      Inlines e files done (.block (st :: ss)) (.block (ss₁ ++ ss')) done' (ds ++ ds')

section Inlines

variable {e : Edition} {files : Files} {done done' ds : List String} {node node' : Node}

theorem Inlines.imports_eq_nil (h : Inlines e files done node node' done' ds) :
    node'.imports = [] := by
  induction h with
  | simpleExpr hx => exact Expr.imports_of_isSimple hx
  | simpleStmt hst => simp [Node.imports, imports, Stmt.imports_of_isSimple hst]
  | ifThen _ ih => simpa [Node.imports, Expr.imports] using ih
  | ifElse _ _ ih ih' => simpa [Node.imports, Expr.imports] using ⟨ih, ih'⟩
  | expr _ ih | bare _ ih | whileLoop _ ih | fn _ ih =>
    simpa [Node.imports, imports, Stmt.imports] using ih
  | forLoop _ _ _ ih ih' ih'' =>
    simp only [Node.imports, imports, Stmt.imports, List.append_nil] at ih ih' ih'' ⊢
    simp [ih, ih', ih'']
  | known | nil => rfl
  | pallet _ _ _ ih => exact ih
  | cons _ _ ih ih' => simpa [Node.imports, imports_append] using ⟨ih, ih'⟩

theorem Inlines.single {st : Stmt} {ss : List Stmt}
    (h : Inlines e files done (.stmt st) (.block ss) done' ds)
    (hst : ∀ path, st ≠ .importPallet path) : ∃ st', ss = [st'] := by
  cases h with
  | known | pallet => exact absurd rfl (hst _)
  | _ => exact ⟨_, rfl⟩

end Inlines

def Node.headers : Node → List Header
  | .program p | .block p => LimeLang.headers p
  | .stmt st => st.headers
  | .expr x => x.headers

/-- What a node becomes: an expression stays an expression, and the rest becomes a list of
statements. -/
def Node.Inlined (e : Edition) (files : Files) (done done' : List String) : Node → Prop
  | .expr x => ∃ x' ds, Inlines e files done (.expr x) (.expr x') done' ds
  | .stmt st => ∃ ss ds, Inlines e files done (.stmt st) (.block ss) done' ds
  | .block ss | .program ss => ∃ ss' ds, Inlines e files done (.block ss) (.block ss') done' ds

theorem Header.not_import {e : Edition} {h : Header} (hfits : h.fits e = true) (path : String) :
    h.init ≠ .importPallet path ∧ h.step ≠ .importPallet path := by
  obtain ⟨init, step⟩ := h
  constructor
  · rintro rfl
    cases hfits
  · rintro rfl
    cases init <;> cases hfits

section Existence

variable {e : Edition} {files : Files} {done done' : List String} {node : Node} {vs : List Visit}

theorem Files.pallet?_headers {path : String} {p : Program} (h : files.pallet? e path = some p) :
    ∀ header ∈ headers p, header.fits e = true := by
  obtain ⟨source, -, -, hparse⟩ := Files.pallet?_eq_some h
  have herr : (Parsed.ofLexemes e (Scan.ofSource e source).lexemes).errors = [] := by rw [hparse]
  have hfits := Parsed.headers_fit herr
  rwa [hparse] at hfits

/-- Where a node can be gone through, files can be put in place, if the headers of its loops fit. -/
theorem Visits.inlined (h : Visits e files done node vs done')
    (hfits : ∀ header ∈ node.headers, header.fits e = true) : node.Inlined e files done done' := by
  induction h with
  | simpleExpr hx => exact ⟨_, _, .simpleExpr hx⟩
  | simpleStmt hst => exact ⟨_, _, .simpleStmt hst⟩
  | ifThen _ ih =>
    obtain ⟨body', ds, hbody⟩ := ih fun header hheader =>
      hfits header (List.mem_append_right _ hheader)
    exact ⟨_, _, .ifThen hbody⟩
  | ifElse _ _ ih ih' =>
    obtain ⟨hbody, halternative⟩ := List.forall_mem_append.mp (List.forall_mem_append.mp hfits).2
    obtain ⟨body', ds, hbody⟩ := ih hbody
    obtain ⟨alternative', ds', halternative⟩ := ih' halternative
    exact ⟨_, _, .ifElse hbody halternative⟩
  | expr _ ih =>
    obtain ⟨x', ds, hx⟩ := ih hfits
    exact ⟨_, _, .expr hx⟩
  | bare _ ih =>
    obtain ⟨x', ds, hx⟩ := ih hfits
    exact ⟨_, _, .bare hx⟩
  | whileLoop _ ih =>
    obtain ⟨body', ds, hbody⟩ := ih (List.forall_mem_append.mp hfits).2
    exact ⟨_, _, .whileLoop hbody⟩
  | forLoop _ _ _ ih ih' ih'' =>
    obtain ⟨hheader, hparts⟩ := List.forall_mem_cons.mp hfits
    obtain ⟨hinit, hparts⟩ := List.forall_mem_append.mp hparts
    obtain ⟨hnext, hbody⟩ := List.forall_mem_append.mp (List.forall_mem_append.mp hparts).2
    obtain ⟨ss, ds₁, hinit⟩ := ih hinit
    obtain ⟨body', ds₂, hbody⟩ := ih' hbody
    obtain ⟨ts, ds₃, hnext⟩ := ih'' hnext
    obtain ⟨init', rfl⟩ := hinit.single fun path => (Header.not_import hheader path).1
    obtain ⟨next', rfl⟩ := hnext.single fun path => (Header.not_import hheader path).2
    exact ⟨_, _, .forLoop hinit hbody hnext⟩
  | fn _ ih =>
    obtain ⟨body', ds, hbody⟩ := ih hfits
    exact ⟨_, _, .fn hbody⟩
  | known hpath => exact ⟨_, _, .known hpath⟩
  | pallet hnew hp _ ih =>
    obtain ⟨p', ds, hbody⟩ := ih (Files.pallet?_headers hp)
    exact ⟨_, _, .pallet hnew hp hbody⟩
  | nil => exact ⟨_, _, .nil⟩
  | cons _ _ ih ih' =>
    obtain ⟨hst, hss⟩ := List.forall_mem_append.mp hfits
    obtain ⟨ss₁, ds, hst⟩ := ih hst
    obtain ⟨ss', ds', hss⟩ := ih' hss
    exact ⟨_, _, .cons hst hss⟩
  | program _ ih => exact ih hfits

end Existence

namespace Gen

def isWarning (line : String) : Bool := "[Lime Warning]".toList.isPrefixOf line.toList

theorem isWarning_alreadyImported (path : String) : isWarning (alreadyImported path) = true := by
  have hstart : "[Lime Warning]: \x60".toList = "[Lime Warning]".toList ++
    ": \x60".toList := by decide +kernel
  rw [isWarning]
  delta alreadyImported
  rw [String.toList_append, String.toList_append, hstart, List.append_assoc, List.append_assoc]
  exact List.isPrefixOf_iff_prefix.mpr (List.prefix_append _ _)

theorem message_toList (n : Notice) : ∃ cs, n.message.toList = 'T' :: 'o' :: cs := by
  have hstart : "Too many decimals in number on line ".toList =
      'T' :: 'o' :: "o many decimals in number on line ".toList := by decide +kernel
  delta Notice.message
  rw [String.toList_append, String.toList_append, String.toList_append, hstart]
  exact ⟨_, rfl⟩

theorem isWarning_message (n : Notice) : isWarning n.message = false := by
  obtain ⟨cs, hcs⟩ := message_toList n
  rw [isWarning, hcs]
  rfl

theorem isWarning_remark {line : String} (h : line ∈ remarks) : isWarning line = false := by
  simp only [remarks, List.mem_cons, List.not_mem_nil, or_false] at h
  rcases h with rfl | rfl | rfl <;> rfl

theorem alreadyImported_not_remark (path : String) : alreadyImported path ∉ remarks := by
  intro h
  have hwarning := isWarning_alreadyImported path
  rw [isWarning_remark h] at hwarning
  cases hwarning

theorem message_not_remark (n : Notice) : n.message ∉ remarks := by
  have hremarks : ∀ line ∈ remarks, line.toList.take 2 ≠ ['T', 'o'] := by decide +kernel
  intro h
  obtain ⟨cs, hcs⟩ := message_toList n
  exact hremarks _ h (by rw [hcs]; rfl)

end Gen

/-- Whenever `g` comes to an end, `g'` does the same to a session with another margin. Of the lines
that `g` prints, `g'` prints the remarks, and the warnings are about the imports that were dropped.
The first two lists of files are those that have been imported before and after. -/
def Echoes {α : Type} (g g' : Gen α) (done done' ds : List String) : Prop :=
  ∀ (s : Session) (a : α) (t : Session), s.pallets = done → g.run s = (.ok a, t) →
    t.pallets = done' ∧ ∃ lines, t.output = s.output ++ lines ∧
      lines.filter Gen.isWarning = ds.map Gen.alreadyImported ∧
      ∀ m, g'.run (s.withMargin m) = (.ok a,
        t.withMargin (m.print (lines.filter (· ∈ Gen.remarks))))

namespace Echoes

variable {α β : Type} {g g' : Gen α} {f f' : α → Gen β} {done done₁ done' ds ds' : List String}

theorem of_blind (hg : Blind g) : Echoes g g done done [] := by
  intro s a t hs hrun
  obtain ⟨lines, hlines, -, hpallets, -, houtput, hall⟩ := hg.of_run hrun
  have hwarnings : lines.filter Gen.isWarning = [] :=
    List.filter_eq_nil_iff.mpr fun line hline => by simp [Gen.isWarning_remark (hlines line hline)]
  have hremarks : lines.filter (· ∈ Gen.remarks) = lines :=
    List.filter_eq_self.mpr fun line hline => by simpa using hlines line hline
  exact ⟨hpallets.trans hs, lines, houtput, hwarnings, by rwa [hremarks]⟩

theorem bind (hg : Echoes g g' done done₁ ds) (hf : ∀ a, Echoes (f a) (f' a) done₁ done' ds') :
    Echoes (g >>= f) (g' >>= f') done done' (ds ++ ds') := by
  intro s b u hs hrun
  obtain ⟨a, t, hfirst, hrest⟩ := Gen.bind_ok hrun
  obtain ⟨ht, lines, hlines, hwarnings, hall⟩ := hg s a t hs hfirst
  obtain ⟨hu, lines', hlines', hwarnings', hall'⟩ := hf a t b u ht hrest
  refine ⟨hu, lines ++ lines', ?_, ?_, fun m => ?_⟩
  · rw [hlines', hlines, List.append_assoc]
  · rw [List.filter_append, List.map_append, hwarnings, hwarnings']
  · rw [Gen.run_bind, hall]
    dsimp only
    rw [hall', Margin.print_print, List.filter_append]

theorem before (hg : Blind g) (hf : ∀ a, Echoes (f a) (f' a) done done' ds) :
    Echoes (g >>= f) (g >>= f') done done' ds := (of_blind hg).bind hf

theorem after (hg : Echoes g g' done done' ds) (hf : ∀ a, Blind (f a)) :
    Echoes (g >>= f) (g' >>= f) done done' ds := by
  have h := hg.bind fun a => of_blind (hf a)
  rwa [List.append_nil] at h

theorem get {f f' : Session → Gen β} (hf : ∀ s, Echoes (f s) (f' s) done done' ds)
    (hmargin : ∀ s m, f' (s.withMargin m) = f' s := by intros; rfl) :
    Echoes (MonadState.get >>= f) (MonadState.get >>= f') done done' ds := by
  intro s b u hs hrun
  obtain ⟨hu, lines, hlines, hwarnings, hall⟩ := hf s s b u hs hrun
  refine ⟨hu, lines, hlines, hwarnings, fun m => ?_⟩
  rw [Gen.run_bind, Gen.run_get]
  dsimp only
  rw [hmargin, hall]

theorem throw (f : Failure) : Echoes (MonadExcept.throw f : Gen α) g' done done' ds := by
  intro s a t _ hrun
  cases hrun

end Echoes

section Echoing

variable {e : Edition} {files : Files} {done done' ds : List String} {node node' : Node}

theorem importer_echoes_known {path : String} (hpath : path ∈ done) (depth : Nat) :
    Echoes (Gen.importer e files depth path) (pure ()) done done [path] := by
  intro s a t hs hrun
  cases depth with
  | zero => cases hrun
  | succ depth =>
    rw [Gen.run_importer_known (hs ▸ hpath)] at hrun
    obtain ⟨-, rfl⟩ := Prod.mk.inj hrun
    refine ⟨hs, [Gen.alreadyImported path], rfl, ?_, fun m => ?_⟩
    · simp [Gen.isWarning_alreadyImported]
    · have hremarks : [Gen.alreadyImported path].filter (· ∈ Gen.remarks) = [] := by
        simp [Gen.alreadyImported_not_remark]
      rw [hremarks, Margin.print_nil]
      rfl

theorem importer_echoes_new {path : String} {p p' : Program} {importer : String → Gen Unit}
    (he : e.has .functions = true) (hpath : path ∉ done) (hp : files.pallet? e path = some p)
    (hbody : ∀ depth, Echoes (Gen.statements e (Gen.importer e files depth) p)
      (Gen.statements e importer p') done done' ds) (depth : Nat) :
    Echoes (Gen.importer e files depth path) (Gen.statements e importer p') done (done' ++ [path])
      ds := by
  intro s a t hs hrun
  cases depth with
  | zero => cases hrun
  | succ depth =>
    obtain ⟨ns, hnew⟩ := Gen.run_importer_new (s := s) he (hs ▸ hpath) hp
    rw [hnew] at hrun
    obtain ⟨a, u, hfile, hrest⟩ := Gen.bind_ok hrun
    obtain ⟨-, rfl⟩ := Prod.mk.inj hrest
    obtain ⟨hu, lines, hlines, hwarnings, hall⟩ := hbody depth
      { s with opened := s.opened ++ [path], output := s.output ++ ns.map Notice.message } a u hs
        hfile
    have hnotices : (ns.map Notice.message).filter Gen.isWarning = [] ∧
        (ns.map Notice.message).filter (· ∈ Gen.remarks) = [] := by
      simp [Gen.isWarning_message, Gen.message_not_remark]
    refine ⟨congrArg (· ++ [path]) hu, ns.map Notice.message ++ lines, ?_, ?_, fun m => ?_⟩
    · rw [← List.append_assoc]
      exact hlines
    · rw [List.filter_append, hnotices.1, hwarnings, List.nil_append]
    · rw [List.filter_append, hnotices.2, List.nil_append]
      exact hall m

/-- The code of a node is that of the node with its files put in place. -/
theorem Inlines.echoes (he : e.has .functions = true) (h : Inlines e files done node node' done' ds)
    (importer : String → Gen Unit) (depth : Nat) :
    Echoes (Gen.node e (Gen.importer e files depth) node) (Gen.node e importer node') done done'
      ds := by
  induction h generalizing depth with
  | simpleExpr hx =>
    have himports := Expr.imports_of_isSimple hx
    rw [Gen.node, Gen.node, Gen.effect_congr (g := importer) _ (by simp [himports])]
    exact .of_blind (blind.effect _ (by simp [himports]))
  | simpleStmt hst =>
    have himports := Stmt.imports_of_isSimple hst
    rw [Gen.node, Gen.node, Gen.statements_singleton, Gen.statement_congr (g := importer)
      _ (by simp [himports])]
    exact .of_blind (blind.statement _ (by simp [himports]))
  | ifThen _ ih =>
    rw [Gen.node, Gen.node, Gen.effect_ifThen, Gen.effect_ifThen]
    exact .before (blind.openThen _ _) fun _ => .after (ih depth) fun _ => blind.closeArm _ _
  | ifElse _ _ ih ih' =>
    rw [Gen.node, Gen.node, Gen.effect_ifElse, Gen.effect_ifElse]
    exact .before (blind.openElse _ _) fun _ => .bind (ih depth) fun _ =>
        .before (blind.closeArm _ _) fun _ =>
      .after (ih' depth) fun _ => blind.closeArm _ _
  | expr _ ih | bare _ ih =>
    rw [Gen.node, Gen.node, Gen.statements_singleton, Gen.statement, Gen.statement]
    exact ih depth
  | whileLoop _ ih =>
    rw [Gen.node, Gen.node, Gen.statements_singleton, Gen.statement_whileLoop,
      Gen.statement_whileLoop]
    exact .before (blind.openWhile _ _) fun _ => .after (ih depth) fun _ => blind.closeWhile _ _ _
  | forLoop _ _ _ ih ih' ih'' =>
    replace ih := ih depth
    replace ih'' := ih'' depth
    rw [Gen.node, Gen.node, Gen.statements_singleton] at ih ih''
    rw [Gen.node, Gen.node, Gen.statements_singleton, Gen.statement_forLoop, Gen.statement_forLoop]
    have hopen := Echoes.before blind.enterScope fun _ => ih.after fun _ => blind.startFor
    exact hopen.bind fun _ => .bind (ih' depth) fun _ => .after ih'' fun _ => blind.closeFor _ _ _
  | @fn _ _ _ _ params _ _ _ _ ih =>
    rw [Gen.node, Gen.node, Gen.statements_singleton]
    cases params with
    | none =>
      rw [Gen.statement]
      exact .throw _
    | some params =>
      rw [Gen.statement_fn, Gen.statement_fn]
      exact .get fun _ => .before (blind.openRoutine _ _ _ _) fun _ => .after (ih depth) fun _ =>
        blind.closeRoutine _ _ _
  | known hpath =>
    rw [Gen.node, Gen.node, Gen.statement, Gen.statements]
    exact importer_echoes_known hpath depth
  | pallet hpath hp _ ih =>
    rw [Gen.node, Gen.node, Gen.statement]
    exact importer_echoes_new he hpath hp ih depth
  | nil =>
    rw [Gen.node, Gen.node, Gen.statements, Gen.statements]
    exact .of_blind (blind.pure _)
  | cons _ _ ih ih' =>
    rw [Gen.node, Gen.node, Gen.statements, Gen.statements_append]
    exact .bind (ih depth) fun _ => ih' depth

end Echoing

/-- Importing is inlining, once for each file. If a program compiles, its files can be put in place,
and every way to do so gives a program without imports that compiles to the same code, with the same
scopes, counter, errors and loops. The list of imports holds the files that the program leads to,
each once and in the order in which they were finished, and there is one warning for each import
that was dropped. -/
theorem importing_inlines {e : Edition} (he : e.has .pallets = true) (files : Files) (depth : Nat)
    (source : String) (herr : (Parsed.ofLexemes e (Scan.ofSource e source).lexemes).errors = []) :
    let p := (Parsed.ofLexemes e (Scan.ofSource e source).lexemes).program
    ∀ t, (Gen.program e (Gen.importer e files depth) p).run (.start e) = (.ok (), t) →
      (∃ flat done dropped, Inlines e files [] (.block p) (.block flat) done dropped) ∧
      ∀ flat done dropped, Inlines e files [] (.block p) (.block flat) done dropped →
        imports flat = [] ∧
        (∀ importer, (Gen.program e importer flat).run (.start e) =
          (.ok (), { t with
            pallets := [], opened := [], output := t.output.filter (· ∈ Gen.remarks) })) ∧
        t.pallets = done ∧ done.Nodup ∧ (∀ path, path ∈ done ↔ files.Reaches e p path) ∧
        t.output.filter Gen.isWarning = dropped.map Gen.alreadyImported := by
  intro p t hrun
  have hfunctions : e.has .functions = true := Edition.has_of_since_le (by decide) he
  have hscopes : (Session.start e).scopes ≠ [] := by simp [Session.start]
  obtain ⟨vs, ⟨hvisits, -⟩, -⟩ := (node_completing hfunctions files depth (.program p) _ hscopes).ok
    hrun
  obtain ⟨hordered, hreaches, -⟩ := hvisits.finished
  obtain ⟨flat, dropped, hinlines⟩ := hvisits.inlined (Parsed.headers_fit herr)
  refine ⟨⟨flat, t.pallets, dropped, hinlines⟩, fun flat done dropped h => ?_⟩
  rw [Gen.program, if_pos hfunctions] at hrun
  have hechoes := fun importer => h.echoes hfunctions importer depth (.start e) () t rfl hrun
  obtain ⟨rfl, lines, hlines, hwarnings, -⟩ := hechoes fun _ => pure ()
  obtain rfl : t.output = lines := hlines
  refine ⟨h.imports_eq_nil, fun importer => ?_, rfl, hordered.nodup, hreaches, hwarnings⟩
  obtain ⟨-, lines, hlines, -, hall⟩ := hechoes importer
  obtain rfl : t.output = lines := hlines
  rw [Gen.program, if_pos hfunctions]
  exact hall ⟨[], [], []⟩

/-- One file is imported by another and then again, in a function. -/
theorem importing_inlines_twice :
    let files : Files := ⟨[("tests\\a.lime", "fn f() -> int \x7b return 1; \x7d"),
      ("tests\\b.lime", "import \"a.lime\"; fn g() -> int \x7b return f(); \x7d")], []⟩
    let source := "import \"b.lime\"; fn main() -> int \x7b import \"a.lime\"; return g(); \x7d"
    let parsed := Parsed.ofLexemes .latest (Scan.ofSource .latest source).lexemes
    let r := (Gen.program .latest (Gen.importer .latest files 3) parsed.program).run
      (.start .latest)
    parsed.errors = [] ∧ r.1 = .ok () ∧
      ∃ flat dropped, Inlines .latest files [] (.block parsed.program) (.block flat)
        ["a.lime", "b.lime"] dropped ∧
        (Gen.program .latest (fun _ => throw .importsTooDeep) flat).run (.start .latest) =
          (.ok (), { r.2 with pallets := [], opened := [], output := [] }) ∧
        dropped.map Gen.alreadyImported = [Gen.alreadyImported "a.lime"] := by
  intro files source parsed r
  have herr : parsed.errors = [] := by decide +kernel
  obtain ⟨hok, hpallets, houtput⟩ : r.1 = .ok () ∧ r.2.pallets = ["a.lime", "b.lime"] ∧
      r.2.output = [Gen.alreadyImported "a.lime"] := by
    decide +kernel
  have hrun : r = (.ok (), r.2) := by rw [← hok]
  obtain ⟨⟨flat, done, dropped, h⟩, hall⟩ :=
    importing_inlines (by decide) files 3 source herr r.2 hrun
  obtain ⟨-, hflat, hdone, -, -, hwarnings⟩ := hall flat done dropped h
  rw [← hdone, hpallets] at h
  have hremarks : r.2.output.filter (· ∈ Gen.remarks) = [] := by
    rw [houtput]
    decide +kernel
  refine ⟨herr, hok, flat, dropped, h, ?_, ?_⟩
  · rw [hflat, hremarks]
  · rw [← hwarnings, houtput]
    simp [Gen.isWarning_alreadyImported]

end LimeLang
