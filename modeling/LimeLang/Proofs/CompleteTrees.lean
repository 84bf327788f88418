import LimeLang.Proofs.ReadTrees
import LimeLang.Token.Scan
import LimeLang.Tree.Document

/-! A tree without a missing part can be written, and reading leaves a part out only where it
records an error. So a program that was read without errors is complete. -/

namespace LimeLang

mutual

def Expr.isComplete : Expr → Bool
  | .missing | .openCall _ => false
  | .int _ | .float _ | .ident _ | .bool _ | .str _ => true
  | .infixed l _ r => l.isComplete && r.isComplete
  | .prefixed _ r => r.isComplete
  | .stepped l _ => l.isComplete
  | .call f args => f.isComplete && Expr.areComplete args
  | .ifThen c body => c.isComplete && Stmt.areComplete body
  | .ifElse c body alternative =>
    c.isComplete && (Stmt.areComplete body && Stmt.areComplete alternative)

def Expr.areComplete : List Expr → Bool
  | [] => true
  | x :: xs => x.isComplete && Expr.areComplete xs

def Stmt.isComplete : Stmt → Bool
  | .missing => false
  | .breakLoop | .continueLoop | .importPallet _ => true
  | .expr x | .bare x | .ret x | .letVar _ x _ | .assign _ _ x => x.isComplete
  | .fn _ params _ body => params.isSome && Stmt.areComplete body
  | .whileLoop c body => c.isComplete && Stmt.areComplete body
  | .forLoop init c next body =>
    init.isComplete && (c.isComplete && (next.isComplete && Stmt.areComplete body))

def Stmt.areComplete : List Stmt → Bool
  | [] => true
  | s :: ss => s.isComplete && Stmt.areComplete ss

end

theorem Expr.areComplete_iff {xs : List Expr} :
    Expr.areComplete xs = true ↔ ∀ x ∈ xs, x.isComplete = true := by
  induction xs with
  | nil => simp [Expr.areComplete]
  | cons x xs ih => simp [Expr.areComplete, ih]

theorem Stmt.areComplete_iff {ss : List Stmt} :
    Stmt.areComplete ss = true ↔ ∀ s ∈ ss, s.isComplete = true := by
  induction ss with
  | nil => simp [Stmt.areComplete]
  | cons s ss ih => simp [Stmt.areComplete, ih]

@[simp] theorem Document.missing?_node (kind : String) (fields : List (String × Document)) :
    (Document.node kind fields).missing? = Document.missingField? fields := by
  simp [Document.node, Document.missing?, Document.missingField?]

@[simp] theorem Document.missingField?_cons (name : String) (d : Document)
    (fields : List (String × Document)) :
    Document.missingField? ((name, d) :: fields) = d.missing?.or
      (Document.missingField? fields) := by
  rw [Document.missingField?]

@[simp] theorem Document.missingField?_nil : Document.missingField? [] = none := by
  rw [Document.missingField?]

@[simp] theorem Document.missing?_literal (l : Literal) :
    (Document.ofLiteral l).missing? = none := by
  cases l <;> rfl

@[simp] theorem Document.missing?_identifier (l : Literal) : (identifier l).missing? = none := by
  simp [identifier]

theorem Document.missingItem?_params (ps : List Param) :
    Document.missingItem? (ps.map Param.document) = none := by
  induction ps with
  | nil => rfl
  | cons p ps ih => simp [Document.missingItem?, Param.document, ih]

mutual

theorem Expr.missing?_document (e : Edition) : ∀ x : Expr,
    (x.document e).missing? = none ↔ x.isComplete = true
  | .missing | .openCall _ | .int _ | .float _ | .bool _ | .str _ | .ident _ => by
    simp [Expr.document, Expr.isComplete, Document.missing?]
  | .infixed l _ r => by
    simp [Expr.document, Expr.isComplete, Document.missing?, Expr.missing?_document e l,
      Expr.missing?_document e r]
  | .prefixed _ r => by
    simp [Expr.document, Expr.isComplete, Document.missing?, Expr.missing?_document e r]
  | .stepped l _ => by
    simp [Expr.document, Expr.isComplete, Document.missing?, Expr.missing?_document e l]
  | .call f args => by
    simp [Expr.document, Expr.isComplete, Document.missing?, Expr.missing?_document e f,
      Expr.missingItem?_documents e args]
  | .ifThen c body => by
    simp [Expr.document, Expr.isComplete, Document.missing?, Expr.missing?_document e c,
      Stmt.missingItem?_documents e body]
  | .ifElse c body alternative => by
    simp [Expr.document, Expr.isComplete, Document.missing?, Expr.missing?_document e c,
      Stmt.missingItem?_documents e body, Stmt.missingItem?_documents e alternative]

theorem Expr.missingItem?_documents (e : Edition) : ∀ xs : List Expr,
    Document.missingItem? (Expr.documents e xs) = none ↔ Expr.areComplete xs = true
  | [] => by simp [Expr.documents, Expr.areComplete, Document.missingItem?]
  | x :: xs => by
    simp [Expr.documents, Expr.areComplete, Document.missingItem?, Expr.missing?_document e x,
      Expr.missingItem?_documents e xs]

theorem Stmt.missing?_document (e : Edition) : ∀ s : Stmt,
    (s.document e).missing? = none ↔ s.isComplete = true
  | .missing | .breakLoop | .continueLoop | .importPallet _ => by
    simp [Stmt.document, Stmt.isComplete, Document.missing?]
  | .expr x | .bare x | .ret x | .letVar _ x _ => by
    simp [Stmt.document, Stmt.isComplete, Document.missing?, Expr.missing?_document e x]
  | .fn _ params _ body => by
    cases params with
    | none => simp [Stmt.document, Stmt.isComplete, Document.missing?]
    | some ps =>
      simp [Stmt.document, Stmt.isComplete, Document.missing?, Document.missingItem?_params,
        Stmt.missingItem?_documents e body]
  | .assign _ _ x => by
    by_cases h : e.has .compoundAssignment = true
    · simp [Stmt.document, Stmt.isComplete, h, Expr.missing?_document e x]
    · simp [Stmt.document, Stmt.isComplete, h, Expr.missing?_document e x]
  | .whileLoop c body => by
    simp [Stmt.document, Stmt.isComplete, Document.missing?, Expr.missing?_document e c,
      Stmt.missingItem?_documents e body]
  | .forLoop init c next body => by
    simp [Stmt.document, Stmt.isComplete, Document.missing?, Stmt.missing?_document e init,
      Expr.missing?_document e c, Stmt.missing?_document e next,
      Stmt.missingItem?_documents e body]

theorem Stmt.missingItem?_documents (e : Edition) : ∀ ss : List Stmt,
    Document.missingItem? (Stmt.documents e ss) = none ↔ Stmt.areComplete ss = true
  | [] => by simp [Stmt.documents, Stmt.areComplete, Document.missingItem?]
  | s :: ss => by
    simp [Stmt.documents, Stmt.areComplete, Document.missingItem?, Stmt.missing?_document e s,
      Stmt.missingItem?_documents e ss]

end

/-- A program can be written if and only if no part of it is missing. -/
theorem Program.missing?_document (e : Edition) (p : Program) :
    (Program.document e p).missing? = none ↔ Stmt.areComplete p = true := by
  have hitems : Document.missingItem?
      (p.map fun s => Document.record [(s.kind, s.document e)]) = none ↔
        Stmt.areComplete p = true := by
    induction p with
    | nil => simp [Stmt.areComplete, Document.missingItem?]
    | cons s p ih =>
      simp [Stmt.areComplete, Document.missingItem?, Document.missing?,
        Stmt.missing?_document e s, ih]
  simpa [Program.document, Document.missing?] using hitems

/-- With fuel `n`, every reader records an error if it leaves out a part of its result. Where a
reader goes on from something that was read before, that is taken to be complete. -/
structure Candid (e : Edition) (n : Nat) : Prop where
  moreParams (acc : List Param) : Reports (Parse.moreParams n acc) fun ps => ps.isSome = true
  params : Reports (Parse.params n) fun ps => ps.isSome = true
  expr (level : Nat) : Reports (Parse.expr e n level) fun x => x.isComplete = true
  continued (level : Nat) (left : Expr) : Reports (Parse.continued e n level left) fun x =>
    left.isComplete = true → x.isComplete = true
  arguments : Reports (Parse.arguments e n) fun xs => xs.any Expr.areComplete = true
  moreArguments (acc : List Expr) : Reports (Parse.moreArguments e n acc) fun xs =>
    Expr.areComplete acc = true → xs.any Expr.areComplete = true
  conditional : Reports (Parse.conditional e n) fun x => x.isComplete = true
  block : Reports (Parse.block e n) fun ss => Stmt.areComplete ss = true
  statements (inBlock : Bool) :
    Reports (Parse.statements e n inBlock) fun ss => Stmt.areComplete ss = true
  statement : Reports (Parse.statement e n) fun s => s.any Stmt.isComplete = true
  assignment : Reports (Parse.assignment e n) fun s => s.isComplete = true
  letVar : Reports (Parse.letVar e n) fun s => s.any Stmt.isComplete = true
  function : Reports (Parse.function e n) fun s => s.any Stmt.isComplete = true
  expressionStep : Reports (Parse.expressionStep e n) fun s => s.isComplete = true
  forLoop : Reports (Parse.forLoop e n) fun s => s.any Stmt.isComplete = true

theorem isComplete_inherited (e : Edition) :
    Inherited e (fun x => x.isComplete = true) fun s => s.isComplete = true := by
  constructor
  all_goals simp +contextual [Expr.isComplete, Stmt.isComplete, Expr.areComplete_iff,
    Stmt.areComplete_iff]

theorem candid (e : Edition) (n : Nat) : Candid e n := by
  have h := (isComplete_inherited e).hands n
  have hargs : ∀ xs : Option (List Expr), (∃ ys ∈ xs, ∀ y ∈ ys, y.isComplete = true) →
      xs.any Expr.areComplete = true := by
    rintro xs ⟨ys, rfl, hys⟩
    exact Expr.areComplete_iff.mpr hys
  have hstmt : ∀ s : Option Stmt, (∃ st ∈ s, st.isComplete = true) →
      s.any Stmt.isComplete = true := by
    rintro s ⟨st, rfl, hst⟩
    exact hst
  exact {
    moreParams := moreParams_reports n
    params := params_reports n
    expr := h.expr
    continued := h.continued
    arguments := h.arguments.mono hargs
    moreArguments := fun acc => (h.moreArguments acc).mono fun xs hxs hacc =>
      hargs xs (hxs (Expr.areComplete_iff.mp hacc))
    conditional := h.conditional
    block := h.block.mono fun _ => Stmt.areComplete_iff.mpr
    statements := fun inBlock => (h.statements inBlock).mono fun _ => Stmt.areComplete_iff.mpr
    statement := h.statement.mono hstmt
    assignment := h.assignment.mono fun _ hs => hs.1
    letVar := h.letVar.mono fun s hs =>
      hstmt s (by obtain ⟨st, hst, hS, -⟩ := hs; exact ⟨st, hst, hS⟩)
    function := h.function.mono hstmt
    expressionStep := h.expressionStep.mono fun _ hs => hs.1
    forLoop := h.forLoop.mono hstmt }

theorem Parsed.complete_of_errors_nil {e : Edition} {ls : List Lexeme}
    (h : (Parsed.ofLexemes e ls).errors = []) :
    Stmt.areComplete (Parsed.ofLexemes e ls).program = true :=
  Stmt.areComplete_iff.mpr ((isComplete_inherited e).program h)

/-- A source that is read without errors gives a program with no part missing, so the program can
be written. The reason is that no reader leaves out a part without recording an error. -/
theorem complete_of_no_errors (e : Edition) :
    (∀ source, (Scan.ofSource e source).failure = none →
      (Parsed.ofLexemes e (Scan.ofSource e source).lexemes).errors = [] →
        Stmt.areComplete (Parsed.ofLexemes e (Scan.ofSource e source).lexemes).program = true ∧
        (Program.document e (Parsed.ofLexemes e
          (Scan.ofSource e source).lexemes).program).missing? = none) ∧
      ∀ n, Candid e n := by
  refine ⟨fun source _ h => ?_, candid e⟩
  have hc := Parsed.complete_of_errors_nil h
  exact ⟨hc, (Program.missing?_document e _).mpr hc⟩

theorem complete_of_no_errors_loop :
    let source := "for (let i: int = 0; i < 3; i++) " ++
      "\x7b if i == 2 \x7b break; \x7d else \x7b g(i, -1); \x7d \x7d"
    (Scan.ofSource .latest source).failure = none ∧
      (Parsed.ofLexemes .latest (Scan.ofSource .latest source).lexemes).errors = [] ∧
      Stmt.areComplete (Parsed.ofLexemes .latest (Scan.ofSource .latest source).lexemes).program =
        true := by
  intro source
  have hok : (Scan.ofSource .latest source).failure = none := by decide +kernel
  have herr : (Parsed.ofLexemes .latest (Scan.ofSource .latest source).lexemes).errors = [] := by
    decide +kernel
  exact ⟨hok, herr, ((complete_of_no_errors .latest).1 source hok herr).1⟩

end LimeLang
