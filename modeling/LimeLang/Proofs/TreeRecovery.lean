import LimeLang.Command
import LimeLang.Proofs.DocumentTexts
import LimeLang.Proofs.DocumentTrees
import LimeLang.Proofs.SourceAccounting

/-! A complete tree is recovered from its document and from the text of the document. So is every
program that is read without errors: its floating point numbers are those of the source, and these
are numbers. -/

namespace LimeLang

variable {e : Edition}

theorem Number.Binary.isNumber_ofDecimal (whole fraction : List Nat) :
    (Number.Binary.ofDecimal whole fraction : Number.Double).IsNumber := by
  have hle : ∀ num den, Number.Format.double.magnitude num
      den ≤ Number.Format.double.infinityBits := by
    intro num den
    rw [Number.Format.magnitude]
    split
    · exact Nat.zero_le _
    · exact Nat.min_le_left _ _
  have hsign : Number.Format.double.infinityBits < Number.Format.double.signBit := by decide
  have hbits := hle ((whole ++ fraction).foldl (fun n d => 10 * n + d) 0) (10 ^ fraction.length)
  rw [Number.Binary.ofDecimal, Number.Binary.ofRatio, if_neg Bool.false_ne_true, Nat.zero_add]
  exact ⟨by dsimp only; omega, (Nat.mod_le _ _).trans hbits⟩

def Literal.IsNumber : Literal → Prop
  | .float x => x.IsNumber
  | .text _ | .int _ => True

@[simp] theorem Literal.isNumber_text (s : String) : (Literal.text s).IsNumber := trivial

theorem Reads.isNumber {cs w : List Char} {l : Lexeme} (h : Reads e cs w l) :
    l.literal.IsNumber := by
  cases h with
  | numeral _ h =>
    cases h with
    | int _ => trivial
    | secondPoint _ _ => trivial
    | float _ _ => exact Number.Binary.isNumber_ofDecimal _ _
  | word _ _ => trivial
  | string _ _ _ _ => trivial
  | operator _ _ _ => trivial
  | illegal _ _ _ => trivial

theorem Tokenization.isNumber {cs last : List Char} {ps : List Piece}
    (h : Tokenization e cs ps last) : ∀ l ∈ ps.map Piece.lexeme, l.literal.IsNumber := by
  induction h with
  | done _ => simp
  | piece _ hr _ ih => simpa using ⟨hr.isNumber, by simpa using ih⟩

def Document.Numeric (d : Document) : Prop := ∀ x ∈ d.floats, x.IsNumber

namespace Document

theorem mem_fieldFloats {fields : List (String × Document)} {x : Number.Double} :
    x ∈ fieldFloats fields ↔ ∃ f ∈ fields, x ∈ f.2.floats := by
  induction fields with
  | nil => simp [fieldFloats]
  | cons f fields ih => simp [fieldFloats, ih]

theorem mem_itemFloats {ds : List Document} {x : Number.Double} :
    x ∈ itemFloats ds ↔ ∃ d ∈ ds, x ∈ d.floats := by
  induction ds with
  | nil => simp [itemFloats]
  | cons d ds ih => simp [itemFloats, ih]

section Numeric

@[simp] theorem numeric_null : null.Numeric := by
  simp [Numeric, floats]

@[simp] theorem numeric_bool (b : Bool) : (bool b).Numeric := by
  simp [Numeric, floats]

@[simp] theorem numeric_int (n : Nat) : (int n).Numeric := by
  simp [Numeric, floats]

@[simp] theorem numeric_str (s : String) : (str s).Numeric := by
  simp [Numeric, floats]

@[simp] theorem numeric_float (x : Number.Double) : (float x).Numeric ↔ x.IsNumber := by
  simp [Numeric, floats]

@[simp] theorem numeric_list (ds : List Document) : (list ds).Numeric ↔ ∀ d ∈ ds, d.Numeric := by
  simp only [Numeric, floats, mem_itemFloats]
  constructor
  · intro h d hd x hx
    exact h x ⟨d, hd, hx⟩
  · rintro h x ⟨d, hd, hx⟩
    exact h d hd x hx

@[simp] theorem numeric_node (kind : String) (fields : List (String × Document)) :
    (node kind fields).Numeric ↔ ∀ f ∈ fields, f.2.Numeric := by
  simp only [Numeric, node, floats, fieldFloats, List.nil_append, mem_fieldFloats]
  constructor
  · intro h f hf x hx
    exact h x ⟨f, hf, hx⟩
  · rintro h x ⟨f, hf, hx⟩
    exact h f hf x hx

@[simp] theorem numeric_ofLiteral (l : Literal) : (ofLiteral l).Numeric ↔ l.IsNumber := by
  cases l <;> simp [ofLiteral, Literal.IsNumber]

@[simp] theorem numeric_identifier (l : Literal) : (identifier l).Numeric ↔ l.IsNumber := by
  simp [identifier]

@[simp] theorem numeric_param (p : Param) :
    p.document.Numeric ↔ p.name.IsNumber ∧ p.type.IsNumber := by
  simp [Param.document]

end Numeric

end Document

open Document

theorem Expr.mem_documents {xs : List Expr} {d : Document} :
    d ∈ Expr.documents e xs ↔ ∃ x ∈ xs, x.document e = d := by
  induction xs with
  | nil => simp [Expr.documents]
  | cons x xs ih => simp [Expr.documents, ih, eq_comm]

theorem Stmt.mem_documents {ss : List Stmt} {d : Document} :
    d ∈ Stmt.documents e ss ↔ ∃ s ∈ ss, s.document e = d := by
  induction ss with
  | nil => simp [Stmt.documents]
  | cons s ss ih => simp [Stmt.documents, ih, eq_comm]

@[simp] theorem Expr.numeric_documents {xs : List Expr} :
    (∀ d ∈ Expr.documents e xs, d.Numeric) ↔ ∀ x ∈ xs, (x.document e).Numeric := by
  simp [Expr.mem_documents]

@[simp] theorem Stmt.numeric_documents {ss : List Stmt} :
    (∀ d ∈ Stmt.documents e ss, d.Numeric) ↔ ∀ s ∈ ss, (s.document e).Numeric := by
  simp [Stmt.mem_documents]

def Part.Numeric (e : Edition) : Part → Prop
  | .expr x _ => (x.document e).Numeric
  | .args xs => ∀ x ∈ xs, (x.document e).Numeric
  | .block ss | .stmts ss => ∀ s ∈ ss, (s.document e).Numeric
  | .stmt s | .step s => (s.document e).Numeric

theorem ParamsWrittenAs.isNumber {ps : List Param} {ls : List Lexeme} {σ : List Slip}
    (h : ParamsWrittenAs ps ls σ) (hls : ∀ l ∈ ls, l.literal.IsNumber) :
    ∀ p ∈ ps, p.name.IsNumber ∧ p.type.IsNumber := by
  induction h with
  | none => simp
  | first _ =>
    simp only [List.forall_mem_cons] at hls
    simpa using ⟨hls.1, hls.2.2.1⟩
  | more _ _ _ _ ih =>
    simp only [List.forall_mem_append, List.forall_mem_cons] at hls
    rw [List.forall_mem_append, List.forall_mem_singleton]
    exact ⟨ih hls.1, hls.2.2.1, hls.2.2.2.2.1⟩

/-- The floating point numbers of a program come from its text. -/
theorem WrittenAs.numeric {part : Part} {ls : List Lexeme} {σ : List Slip}
    (h : WrittenAs e part ls σ) (hls : ∀ l ∈ ls, l.literal.IsNumber) : part.Numeric e := by
  induction h with
  | int n => simp [Part.Numeric, Expr.document]
  | float x => simpa [Part.Numeric, Expr.document, Literal.IsNumber] using hls
  | ident s => simp [Part.Numeric, Expr.document]
  | str s => simp [Part.Numeric, Expr.document]
  | trueWord _ | falseWord _ => simp [Part.Numeric, Expr.document]
  | group _ _ _ ih => exact ih (by grind)
  | infixed _ _ _ _ _ ihx ihy =>
    simpa [Part.Numeric, Expr.document] using And.intro (ihx (by grind)) (ihy (by grind))
  | prefixed _ _ _ ih => simpa [Part.Numeric, Expr.document] using ih (by grind)
  | stepped _ _ _ ih => simpa [Part.Numeric, Expr.document] using ih (by grind)
  | call _ _ _ _ _ ihf ihxs =>
    simpa [Part.Numeric, Expr.document] using And.intro (ihf (by grind)) (ihxs (by grind))
  | ifThen _ _ _ ihc ihbody =>
    simpa [Part.Numeric, Expr.document] using And.intro (ihc (by grind)) (ihbody (by grind))
  | ifElse _ _ _ _ _ ihc ihbody ihalternative =>
    simpa [Part.Numeric, Expr.document] using
      And.intro (ihc (by grind)) (And.intro (ihbody (by grind)) (ihalternative (by grind)))
  | noArgs => simp [Part.Numeric]
  | firstArg _ ih => simpa [Part.Numeric] using ih hls
  | moreArgs _ _ _ _ ihxs ihx =>
    exact List.forall_mem_append.mpr ⟨ihxs (by grind), List.forall_mem_singleton.mpr
      (ihx (by grind))⟩
  | block _ _ _ ih => exact ih (by grind)
  | openBlock _ _ ih => exact ih (by grind)
  | nil => simp [Part.Numeric]
  | cons _ _ ihs ihss => simpa [Part.Numeric] using And.intro (ihs (by grind)) (ihss (by grind))
  | expr _ ih => simpa [Part.Numeric, Stmt.document] using ih hls
  | closedExpr _ _ ih => simpa [Part.Numeric, Stmt.document] using ih (by grind)
  | letVar _ _ _ _ _ _ _ _ ih =>
    simpa [Part.Numeric, Stmt.document] using ih (by grind)
  | ret _ _ _ ih => simpa [Part.Numeric, Stmt.document] using ih (by grind)
  | @fn _ _ _ _ _ _ _ type _ _ _ _ _ _ _ hps _ _ _ ih =>
    have htype : type.literal.IsNumber := hls type (by simp)
    have hparams := hps.isNumber (by grind)
    simpa [Part.Numeric, Stmt.document, htype] using And.intro hparams (ih (by grind))
  | assign _ ih => exact ih (by grind)
  | whileLoop _ _ _ ihc ihbody =>
    simpa [Part.Numeric, Stmt.document] using And.intro (ihc (by grind)) (ihbody (by grind))
  | breakLoop _ => simp [Part.Numeric, Stmt.document]
  | continueLoop _ => simp [Part.Numeric, Stmt.document]
  | forLoop _ _ _ _ _ _ _ _ ihinit ihc ihnext ihbody =>
    simpa [Part.Numeric, Stmt.document] using And.intro (ihinit (by grind))
      (And.intro (ihc (by grind)) (And.intro (ihnext (by grind)) (ihbody (by grind))))
  | importPallet _ _ _ => simp [Part.Numeric, Stmt.document]
  | exprStep _ ih => simpa [Part.Numeric, Stmt.document] using ih hls
  | @assignStep x n target op ls σ _ ih =>
    have htarget : target.literal.IsNumber := hls target (by simp)
    have hop : op.literal.IsNumber := hls op (by simp)
    have hx : (x.document e).Numeric := ih (by grind)
    by_cases hcompound : e.has .compoundAssignment = true
    · simpa [Part.Numeric, Stmt.document, hcompound] using And.intro htarget (And.intro hop hx)
    · simpa [Part.Numeric, Stmt.document, hcompound] using And.intro htarget hx

theorem Program.numeric_document {p : Program} (h : ∀ s ∈ p, (s.document e).Numeric) :
    (Program.document e p).Numeric := by
  have hlabelled : ∀ (label : String) {d : Document}, d.Numeric →
      (record [(label, d)]).Numeric := by
    intro label d hd
    simpa [Numeric, floats, fieldFloats] using hd
  simp only [Program.document, numeric_node, List.forall_mem_singleton, numeric_list,
    List.forall_mem_map]
  exact fun s hs => hlabelled s.kind (h s hs)

theorem Parsed.numeric_of_errors_nil {source : String}
    (hscan : (Scan.ofSource e source).failure = none)
    (herr : (Parsed.ofLexemes e (Scan.ofSource e source).lexemes).errors = []) :
    (Program.document e (Parsed.ofLexemes e (Scan.ofSource e source).lexemes).program).Numeric := by
  obtain ⟨ps, last, ht⟩ := Tokenization.total e source.toList
  obtain ⟨-, -, -, hls⟩ := ht.ofSource_cases.resolve_right
    (by rintro ⟨f, hf, -⟩; simp [hscan] at hf)
  have hkind := ht.kind_ne_eof
  have hnumber := ht.isNumber
  rw [← hls] at hkind hnumber
  obtain ⟨σ, hw⟩ := Parsed.writtenAs_of_errors_nil hkind herr
  exact Program.numeric_document (hw.numeric hnumber)

theorem treeText_of_complete {s : Setting} {p : Program} (h : Stmt.areComplete p = true) :
    Command.treeText s p = .ok ((Program.document s.edition p).write 0) := by
  rw [Command.treeText, (Program.missing?_document s.edition p).mpr h]

def Program.ofText? (text : String) : Option Program :=
  (Document.ofText? text).bind Document.program?

theorem Program.ofText?_write {p : Program} (hc : Stmt.areComplete p = true)
    (hf : Stmt.allFit e p = true) (hx : (Program.document e p).Numeric) :
    Program.ofText? ((Program.document e p).write 0) = some p := by
  rw [ofText?, Document.ofText?_write ((Program.missing?_document e p).mpr hc) hx, Option.bind_some,
    Program.program?_document hc hf]

/-- Complete trees of an edition that have the same document are equal, and so are those that have
the same text: a tree is recovered from either. In particular, a program that is read without errors
is recovered from the text that is written for it. -/
theorem document_determines_tree (s : Setting) {p q : Program}
    (hp : Stmt.areComplete p = true) (hq : Stmt.areComplete q = true)
    (hfp : Stmt.allFit s.edition p = true) (hfq : Stmt.allFit s.edition q = true) :
    (Program.document s.edition p = Program.document s.edition q ↔ p = q) ∧
      (Program.document s.edition p).program? = some p ∧
      ((Program.document s.edition p).Numeric →
        (∃ text, Command.treeText s p = .ok text ∧ Program.ofText? text = some p) ∧
        ((Program.document s.edition q).Numeric →
          (Command.treeText s p = Command.treeText s q ↔ p = q))) ∧
      ∀ source, (Scan.ofSource s.edition source).failure = none →
        let read := Parsed.ofLexemes s.edition (Scan.ofSource s.edition source).lexemes
        read.errors = [] →
          ∃ text, Command.treeText s read.program = .ok text ∧
            Program.ofText? text = some read.program := by
  have hdoc := Program.program?_document hp hfp
  refine ⟨⟨fun h => ?_, fun h => h ▸ rfl⟩, hdoc,
    fun hx => ⟨⟨_, treeText_of_complete hp, Program.ofText?_write hp hfp hx⟩,
      fun hy => ⟨fun h => ?_, fun h => h ▸ rfl⟩⟩, ?_⟩
  · rw [h, Program.program?_document hq hfq] at hdoc
    exact (Option.some.inj hdoc).symm
  · have htext := Program.ofText?_write hp hfp hx
    rw [treeText_of_complete hp, treeText_of_complete hq] at h
    rw [Except.ok.inj h, Program.ofText?_write hq hfq hy] at htext
    exact (Option.some.inj htext).symm
  · intro source hscan read herr
    have hc := Parsed.complete_of_errors_nil herr
    exact ⟨_, treeText_of_complete hc, Program.ofText?_write hc (Parsed.fits_of_errors_nil herr)
      (Parsed.numeric_of_errors_nil hscan herr)⟩

/-- An empty branch is told from none, in a document and in its text. -/
theorem document_determines_tree_branches :
    let c : Expr := .infixed (.float (.ofDecimal [0] [1])) .lt (.str "\"\n")
    let p : Program := [.expr (.ifThen c [])]
    let q : Program := [.expr (.ifElse c [] [])]
    let s : Setting := ⟨.latest, "main", ""⟩
    (Stmt.areComplete p = true ∧ Stmt.areComplete q = true ∧ Stmt.allFit s.edition p = true ∧
      Stmt.allFit s.edition q = true) ∧
      Program.document s.edition p ≠ Program.document s.edition q ∧
      Command.treeText s p ≠ Command.treeText s q ∧
      ∃ text, Command.treeText s p = .ok text ∧ Program.ofText? text = some p := by
  intro c p q s
  have hx : (Program.document s.edition p).Numeric := by
    change ∀ x ∈ (Program.document s.edition p).floats, x.IsNumber
    decide +kernel
  have hy : (Program.document s.edition q).Numeric := by
    change ∀ x ∈ (Program.document s.edition q).floats, x.IsNumber
    decide +kernel
  have hne : p ≠ q := by simp [p, q]
  obtain ⟨hdoc, -, htext, -⟩ := document_determines_tree s (p := p) (q := q) rfl rfl rfl rfl
  obtain ⟨hrecovered, hequal⟩ := htext hx
  exact ⟨⟨rfl, rfl, rfl, rfl⟩, mt hdoc.mp hne, mt (hequal hy).mp hne, hrecovered⟩

end LimeLang
