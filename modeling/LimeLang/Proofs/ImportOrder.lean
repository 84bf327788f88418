import LimeLang.Proofs.ScopeFrames
import LimeLang.Tree.Imports
import Mathlib.Data.Fintype.Card
import Mathlib.Data.Set.Finite.Basic
import Mathlib.Logic.Relation

/-! The files that a program leads to, and the order in which their imports are finished: each file
comes behind those that it imports. So files that import each other in a circle are never
finished. -/

namespace LimeLang

def Node.imports : Node → List String
  | .program p | .block p => LimeLang.imports p
  | .stmt st => st.imports
  | .expr x => x.imports

theorem Expr.imports_of_isSimple {x : Expr} (h : x.isSimple = true) : x.imports = [] := by
  cases x with
  | ifThen | ifElse => cases h
  | _ => rw [Expr.imports] <;> simp

theorem Stmt.imports_of_isSimple {st : Stmt} (h : st.isSimple = true) : st.imports = [] := by
  cases st with
  | letVar | ret | assign | breakLoop | continueLoop => rw [Stmt.imports] <;> simp
  | _ => cases h

namespace Files

variable {files : Files} {e : Edition} {p : Program} {path next : String} {done : List String}

def Imports (files : Files) (e : Edition) (path next : String) : Prop :=
  ∃ p, files.pallet? e path = some p ∧ next ∈ imports p

/-- The program imports the file, or another file that leads to it. -/
def Reaches (files : Files) (e : Edition) (p : Program) (path : String) : Prop :=
  ∃ first ∈ imports p, Relation.ReflTransGen (files.Imports e) first path

/-- The program leads to a file that leads back to itself. -/
def Circular (files : Files) (e : Edition) (p : Program) : Prop :=
  ∃ path, files.Reaches e p path ∧ Relation.TransGen (files.Imports e) path path

theorem Reaches.imported (h : files.Reaches e p path) (hnext : files.Imports e path next) :
    files.Reaches e p next := by
  obtain ⟨first, hfirst, hpath⟩ := h
  exact ⟨first, hfirst, hpath.tail hnext⟩

/-- Lists of files in which each stands once, behind all files that it imports. -/
inductive Ordered (files : Files) (e : Edition) : List String → Prop
  | nil : Ordered files e []
  | snoc {done : List String} {path : String} {p : Program} (h : Ordered files e done)
      (hnew : path ∉ done)
      (hp : files.pallet? e path = some p) (himports : imports p ⊆ done) :
        Ordered files e (done ++ [path])

namespace Ordered

theorem nodup (h : files.Ordered e done) : done.Nodup := by
  induction h with
  | nil => exact List.nodup_nil
  | snoc _ hnew _ _ ih => exact ih.append (List.nodup_singleton _) (by simpa using hnew)

theorem closed (h : files.Ordered e done) (hpath : path ∈ done)
    (hnext : files.Imports e path next) : next ∈ done := by
  induction h with
  | nil => simp at hpath
  | snoc _ _ hp himports ih =>
    refine List.mem_append_left _ ?_
    rcases List.mem_append.mp hpath with hpath | hpath
    · exact ih hpath
    · obtain ⟨q, hq, hmem⟩ := hnext
      rw [List.mem_singleton.mp hpath, hp, Option.some.injEq] at hq
      exact himports (hq ▸ hmem)

theorem leads (h : files.Ordered e done) (hpath : path ∈ done)
    (hnext : Relation.ReflTransGen (files.Imports e) path next) : next ∈ done := by
  induction hnext with
  | refl => exact hpath
  | tail _ hstep ih => exact h.closed ih hstep

theorem not_circular (h : files.Ordered e done) (hpath : path ∈ done) :
    ¬ Relation.TransGen (files.Imports e) path path := by
  induction h generalizing path with
  | nil => simp at hpath
  | @snoc done last q hdone hnew hq himports ih =>
    intro hcircle
    rcases List.mem_append.mp hpath with hpath | hpath
    · exact ih hpath hcircle
    · obtain rfl := List.mem_singleton.mp hpath
      obtain ⟨first, ⟨q', hq', hmem⟩, hback⟩ := Relation.TransGen.head'_iff.mp hcircle
      obtain rfl := Option.some.inj (hq.symm.trans hq')
      exact hnew (hdone.leads (himports hmem) hback)

end Ordered

end Files

section Visits

variable {e : Edition} {files : Files} {done done' : List String} {node : Node} {vs : List Visit}

/-- Going through a node keeps the files that have been finished, and adds those that it imports. -/
theorem Visits.finishes (h : Visits e files done node vs done') : done ⊆ done' ∧
    node.imports ⊆ done' := by
  induction h with
  | simpleExpr hx => exact ⟨List.Subset.refl _, by simp [Node.imports, Expr.imports_of_isSimple hx]⟩
  | simpleStmt hst =>
    exact ⟨List.Subset.refl _, by simp [Node.imports, Stmt.imports_of_isSimple hst]⟩
  | ifThen _ ih | expr _ ih | bare _ ih | whileLoop _ ih | fn _ ih | program _ ih => exact ih
  | ifElse _ _ ih ih' =>
    refine ⟨List.Subset.trans ih.1 ih'.1, ?_⟩
    exact List.append_subset.mpr ⟨List.Subset.trans ih.2 ih'.1, ih'.2⟩
  | forLoop _ _ _ ih ih' ih'' =>
    refine ⟨List.Subset.trans ih.1 (List.Subset.trans ih'.1 ih''.1), ?_⟩
    refine List.append_subset.mpr ⟨List.append_subset.mpr ⟨?_, List.Subset.trans ih'.2 ih''.1⟩,
      ih''.2⟩
    exact List.Subset.trans ih.2 (List.Subset.trans ih'.1 ih''.1)
  | known hpath => exact ⟨List.Subset.refl _, by simpa [Node.imports, Stmt.imports] using hpath⟩
  | pallet _ _ _ ih =>
    exact ⟨List.subset_append_of_subset_left _ ih.1, by simp [Node.imports, Stmt.imports]⟩
  | nil => exact ⟨List.Subset.refl _, List.nil_subset _⟩
  | cons _ _ ih ih' =>
    refine ⟨List.Subset.trans ih.1 ih'.1, ?_⟩
    exact List.append_subset.mpr ⟨List.Subset.trans ih.2 ih'.1, ih'.2⟩

/-- What is finished on the way through a node is imported by it, or by files that it leads to. -/
theorem Visits.reaches {path : String} (h : Visits e files done node vs done')
    (hpath : path ∈ done') :
    path ∈ done ∨ ∃ first ∈ node.imports, Relation.ReflTransGen (files.Imports e) first path := by
  induction h with
  | simpleExpr | simpleStmt | known | nil => exact .inl hpath
  | ifThen _ ih | expr _ ih | bare _ ih | whileLoop _ ih | fn _ ih | program _ ih => exact ih hpath
  | ifElse _ _ ih ih' | cons _ _ ih ih' =>
    rcases ih' hpath with hpath | ⟨first, hfirst, hleads⟩
    · refine (ih hpath).imp_right ?_
      rintro ⟨first, hfirst, hleads⟩
      exact ⟨first, List.mem_append_left _ hfirst, hleads⟩
    · exact .inr ⟨first, List.mem_append_right _ hfirst, hleads⟩
  | forLoop _ _ _ ih ih' ih'' =>
    rcases ih'' hpath with hpath | ⟨first, hfirst, hleads⟩
    · rcases ih' hpath with hpath | ⟨first, hfirst, hleads⟩
      · refine (ih hpath).imp_right ?_
        rintro ⟨first, hfirst, hleads⟩
        exact ⟨first, List.mem_append_left _ (List.mem_append_left _ hfirst), hleads⟩
      · exact .inr ⟨first, List.mem_append_left _ (List.mem_append_right _ hfirst), hleads⟩
    · exact .inr ⟨first, List.mem_append_right _ hfirst, hleads⟩
  | @pallet done done' vs last p _ hp _ ih =>
    have hlast : last ∈ (Node.stmt (.importPallet last)).imports := List.mem_singleton.mpr rfl
    rcases List.mem_append.mp hpath with hpath | hpath
    · refine (ih hpath).imp_right ?_
      rintro ⟨first, hfirst, hleads⟩
      exact ⟨last, hlast, .head ⟨p, hp, hfirst⟩ hleads⟩
    · exact .inr ⟨last, hlast, by rw [List.mem_singleton.mp hpath]⟩

theorem Visits.ordered (h : Visits e files done node vs done') (hdone : files.Ordered e done) :
    files.Ordered e done' := by
  induction h with
  | simpleExpr | simpleStmt | known | nil => exact hdone
  | ifThen _ ih | expr _ ih | bare _ ih | whileLoop _ ih | fn _ ih | program _ ih => exact ih hdone
  | ifElse _ _ ih ih' | cons _ _ ih ih' => exact ih' (ih hdone)
  | forLoop _ _ _ ih ih' ih'' => exact ih'' (ih' (ih hdone))
  | pallet hnew hp hvisits ih =>
    -- a file that was finished inside of itself would lead back to itself
    refine .snoc (ih hdone) (fun hmem => ?_) hp hvisits.finishes.2
    obtain ⟨first, hfirst, hleads⟩ := (hvisits.reaches hmem).resolve_left hnew
    exact (ih hdone).not_circular hmem (.head' ⟨_, hp, hfirst⟩ hleads)

/-- Once a program has been gone through, the finished files are those that it leads to, and none of
them leads back to itself. -/
theorem Visits.finished {p : Program} (h : Visits e files [] (.program p) vs done) :
    files.Ordered e done ∧ (∀ path, path ∈ done ↔ files.Reaches e p path) ∧
      ¬ files.Circular e p := by
  have hordered := h.ordered .nil
  have hmem : ∀ path, path ∈ done ↔ files.Reaches e p path := by
    intro path
    constructor
    · exact fun hpath => (h.reaches hpath).resolve_left (List.not_mem_nil)
    · rintro ⟨first, hfirst, hleads⟩
      exact hordered.leads (h.finishes.2 hfirst) hleads
  refine ⟨hordered, hmem, ?_⟩
  rintro ⟨path, hpath, hcircle⟩
  exact hordered.not_circular ((hmem path).mpr hpath) hcircle

end Visits

namespace Files

variable {files : Files} {e : Edition} {p : Program} {path : String}

theorem walk_mem {dir rest : List (List Char)} {text : String}
    (h : files.walk dir rest = .ok text) : ∃ t ∈ files.texts, text = t.2 := by
  induction rest generalizing dir with
  | nil => simp [walk] at h
  | cons w ws ih =>
    rw [walk] at h
    split_ifs at h
    · exact ih h
    · exact ih h
    · exact ih h
    · split at h
      · rename_i t ht
        obtain ⟨entry, hentry, rfl⟩ := Option.map_eq_some_iff.mp ht
        exact ⟨entry, List.mem_of_find?_eq_some hentry, (Except.ok.inj h).symm⟩
      · cases h
    · split at h <;> cases h

def programs (files : Files) (e : Edition) : List Program :=
  files.texts.map fun t =>
    (Parsed.ofLexemes e (Scan.ofSource e (String.ofList (newlines t.2.toList))).lexemes).program

theorem pallet?_mem (h : files.pallet? e path = some p) : p ∈ files.programs e := by
  rw [pallet?] at h
  split at h
  · cases h
  · rename_i source hread
    rw [read] at hread
    split_ifs at hread
    cases hwalk : files.walk [] (components (normalize ("tests\\" ++ path).toList)) with
    | error => rw [hwalk] at hread; cases hread
    | ok text =>
      obtain ⟨t, ht, rfl⟩ := walk_mem hwalk
      rw [hwalk] at hread
      obtain rfl := Except.ok.inj hread
      dsimp only at h
      split_ifs at h
      exact List.mem_map.mpr ⟨t, ht, Option.some.inj h⟩

theorem Reaches.mem (h : files.Reaches e p path) :
    path ∈ imports p ++ (files.programs e).flatMap imports := by
  obtain ⟨first, hfirst, hleads⟩ := h
  cases hleads with
  | refl => exact List.mem_append_left _ hfirst
  | tail _ hstep =>
    obtain ⟨q, hq, hmem⟩ := hstep
    exact List.mem_append_right _ (List.mem_flatMap.mpr ⟨q, pallet?_mem hq, hmem⟩)

/-- There are finitely many files, so without circles what holds of a file as soon as it holds of
all that it imports holds of all files that the program leads to. -/
theorem Reaches.induction {motive : String → Prop} (hnot : ¬ files.Circular e p)
    (step : ∀ path, files.Reaches e p path → (∀ next, files.Imports e path next → motive next) →
    motive path) (h : files.Reaches e p path) : motive path := by
  let below : {path // files.Reaches e p path} → {path // files.Reaches e p path} → Prop :=
    fun next path => Relation.TransGen (files.Imports e) path.1 next.1
  have hfinite : Finite {path // files.Reaches e p path} :=
    (List.finite_toSet (imports p ++ (files.programs e).flatMap imports)).subset fun _ h =>
      Reaches.mem h
  have htrans : IsTrans _ below := ⟨fun _ _ _ hab hbc => hbc.trans hab⟩
  have hirrefl : Std.Irrefl below := ⟨fun path hcircle => hnot ⟨path.1, path.2, hcircle⟩⟩
  have hfounded : WellFounded below := Finite.wellFounded_of_trans_of_irrefl below
  refine hfounded.induction (C := fun path => motive path.1) ⟨path, h⟩ fun path ih => ?_
  exact step path.1 path.2 fun next hnext => ih ⟨next, path.2.imported hnext⟩ (.single hnext)

end Files

end LimeLang
