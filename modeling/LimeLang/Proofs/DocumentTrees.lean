import LimeLang.Proofs.CompleteTrees

/-! A document determines the tree it was made from. It is read from the leaves up: the fields of a
record are read first, and the kind that stands in front of them says what node they make. -/

namespace LimeLang

variable {e : Edition}

def InfixOp.ofText? (s : String) : Option InfixOp :=
  [add, sub, mul, div, rem, pow, lt, gt, le, ge, eq, ne].find? fun op => op.text = s

def PrefixOp.ofText? (s : String) : Option PrefixOp := [neg, not].find? fun op => op.text = s

def StepOp.ofText? (s : String) : Option StepOp := [increment, decrement].find? fun op =>
    op.text = s

theorem mapM_map_some {α β : Type} (f : α → β) (g : β → Option α) (h : ∀ x, g (f x) = some x)
    (xs : List α) : (xs.map f).mapM g = some xs := by
  induction xs with
  | nil => rfl
  | cons x xs ih => simp [h, ih]

/-- What a part of a document stands for. An expression is a node as well, as the statement that is
only the expression. -/
inductive Element
  | null
  | bool (b : Bool)
  | literal (l : Literal)
  | param (p : Param)
  | node (s : Stmt)
  | block (ss : List Stmt)
  | list (elements : List Element)

namespace Element

def param? : Element → Option Param
  | param p => some p
  | _ => none

def stmt? : Element → Option Stmt
  | node s => some s
  | _ => none

def expr? : Element → Option Expr
  | node (.bare x) => some x
  | _ => none

theorem mapM_param? (ps : List Param) : (ps.map param).mapM param? = some ps :=
  mapM_map_some param param? (fun _ => rfl) ps

theorem mapM_stmt? (ss : List Stmt) : (ss.map node).mapM stmt? = some ss :=
  mapM_map_some node stmt? (fun _ => rfl) ss

theorem mapM_expr? (xs : List Expr) : (xs.map fun x => node (.bare x)).mapM expr? = some xs :=
  mapM_map_some _ expr? (fun _ => rfl) xs

/-- The name that an assignment goes to can be any literal. Where it is a word, it is a node. -/
def name : Literal → Element
  | .text s => node (.bare (.ident s))
  | l => literal l

def name? : Element → Option Literal
  | node (.bare (.ident s)) => some (.text s)
  | literal l => some l
  | _ => none

@[simp] theorem name?_name (l : Literal) : (name l).name? = some l := by
  cases l <;> rfl

/-- The node of the given kind with the given fields. Only an assignment has a field that some
editions leave out. -/
def ofKind : String → List Element → Option Element
  | "IntegerLiteral", [literal (.int n)] => some (node (.bare (.int n)))
  | "FloatLiteral", [literal (.float x)] => some (node (.bare (.float x)))
  | "IdentifierLiteral", [literal l] => some (name l)
  | "BooleanLiteral", [bool b] => some (node (.bare (.bool b)))
  | "StringLiteral", [literal (.text s)] => some (node (.bare (.str s)))
  | "InfixExpression", [node (.bare l), literal (.text op), node (.bare r)] =>
    (InfixOp.ofText? op).map fun op => node (.bare (.infixed l op r))
  | "PrefixExpression", [literal (.text op), node (.bare r)] =>
    (PrefixOp.ofText? op).map fun op => node (.bare (.prefixed op r))
  | "PostfixExpression", [node (.bare l), literal (.text op)] =>
    (StepOp.ofText? op).map fun op => node (.bare (.stepped l op))
  | "CallExpression", [node (.bare f), list args] =>
    (args.mapM expr?).map fun xs => node (.bare (.call f xs))
  | "IfStatement", [node (.bare c), block body, null] => some (node (.bare (.ifThen c body)))
  | "IfStatement", [node (.bare c), block body, block alternative] =>
    some (node (.bare (.ifElse c body alternative)))
  | "FunctionParameter", [literal name, literal type] => some (param ⟨name, type⟩)
  | "BlockStatement", [list elements] => (elements.mapM stmt?).map block
  | "Program", [list elements] => (elements.mapM stmt?).map block
  | "ExpressionStatement", [node (.bare x)] => some (node (.expr x))
  | "LetStatement", [node (.bare (.ident name)), node (.bare x), literal (.text type)] =>
    some (node (.letVar name x type))
  | "ReturnStatement", [node (.bare x)] => some (node (.ret x))
  | "FunctionStatement", [node (.bare (.ident name)), literal type, list params, block body] =>
    (params.mapM param?).map fun ps => node (.fn name (some ps) type body)
  | "AssignStatement", [target, literal op, node (.bare x)] =>
    target.name?.map fun l => node (.assign l op x)
  | "AssignStatement", [target, node (.bare x)] =>
    target.name?.map fun l => node (.assign l plainAssign x)
  | "WhileStatement", [node (.bare c), block body] => some (node (.whileLoop c body))
  | "BreakStatement", [] => some (node .breakLoop)
  | "ContinueStatement", [] => some (node .continueLoop)
  | "ForStatement", [node init, node (.bare c), node step, block body] =>
    some (node (.forLoop init c step body))
  | "ImportStatement", [literal (.text path)] => some (node (.importPallet path))
  | _, _ => none

/-- The fields of a record, put together. A record without a kind is a statement under its label. -/
def ofFields : List Element → Option Element
  | [node s] => some (node s)
  | literal (.text kind) :: elements => ofKind kind elements
  | _ => none

end Element

namespace Document

mutual

def element? : Document → Option Element
  | null => some .null
  | bool b => some (.bool b)
  | int n => some (.literal (.int n))
  | float x => some (.literal (.float x))
  | str s => some (.literal (.text s))
  | list items => (elements? items).map .list
  | record fields => (fieldElements? fields).bind Element.ofFields
  | missingNode | missingList => none

def elements? : List Document → Option (List Element)
  | [] => some []
  | d :: ds => (element? d).bind fun p => (elements? ds).map (p :: ·)

def fieldElements? : List (String × Document) → Option (List Element)
  | [] => some []
  | (_, d) :: fields => (element? d).bind fun p => (fieldElements? fields).map (p :: ·)

end

def program? (d : Document) : Option Program :=
  match d.element? with
  | some (.block ss) => some ss
  | _ => none

@[simp] theorem element?_ofLiteral (l : Literal) : (ofLiteral l).element? = some (.literal l) := by
  cases l <;> rfl

theorem element?_node (kind : String) (fields : List (String × Document)) :
    (node kind fields).element? = (fieldElements? fields).bind (Element.ofKind kind) := by
  simp only [node, element?, fieldElements?, Option.bind_some, Option.bind_map]
  rfl

theorem element?_list (ds : List Document) : (list ds).element? = (elements? ds).map .list := by
  rw [element?]

@[simp] theorem fieldElements?_cons (name : String) (d : Document)
    (fields : List (String × Document)) : fieldElements? ((name, d) :: fields) =
      d.element?.bind fun p => (fieldElements? fields).map (p :: ·) := by
  rw [fieldElements?]

@[simp] theorem fieldElements?_nil : fieldElements? [] = some [] := by
  rw [fieldElements?]

theorem elements?_map {α : Type} {f : α → Document} {g : α → Element} {xs : List α}
    (h : ∀ x ∈ xs, (f x).element? = some (g x)) : elements? (xs.map f) = some (xs.map g) := by
  induction xs with
  | nil => rfl
  | cons x xs ih =>
    rw [List.map_cons, elements?, h x List.mem_cons_self, ih fun y hy =>
      h y (List.mem_cons_of_mem x hy)]
    rfl

end Document

open Document

theorem Param.element?_document (p : Param) : p.document.element? = some (.param p) := by
  rw [Param.document, element?_node]
  simp
  rfl

theorem Param.element?_documents (ps : List Param) :
    (Document.list (ps.map Param.document)).element? = some (.list (ps.map .param)) := by
  rw [element?_list, elements?_map fun p _ => p.element?_document]
  rfl

theorem element?_identifier (l : Literal) : (identifier l).element? = some (.name l) := by
  rw [identifier, element?_node]
  simp
  rfl

theorem element?_block {ss : List Stmt}
    (h : elements? (Stmt.documents e ss) = some (ss.map .node)) :
    (node "BlockStatement" [("statements", .list (Stmt.documents e ss))]).element? =
      some (.block ss) := by
  rw [element?_node, fieldElements?_cons, element?_list, h]
  change ((ss.map Element.node).mapM Element.stmt?).map Element.block = _
  rw [Element.mapM_stmt?, Option.map_some]

mutual

/-- Whether a tree can belong to an edition: without compound assignments, every assignment is
plain. -/
def Expr.fits (e : Edition) : Expr → Bool
  | .missing | .int _ | .float _ | .ident _ | .bool _ | .str _ => true
  | .infixed l _ r => l.fits e && r.fits e
  | .prefixed _ x | .stepped x _ | .openCall x => x.fits e
  | .call f args => f.fits e && Expr.allFit e args
  | .ifThen c body => c.fits e && Stmt.allFit e body
  | .ifElse c body alternative => c.fits e && (Stmt.allFit e body && Stmt.allFit e alternative)

def Expr.allFit (e : Edition) : List Expr → Bool
  | [] => true
  | x :: xs => x.fits e && Expr.allFit e xs

def Stmt.fits (e : Edition) : Stmt → Bool
  | .missing | .breakLoop | .continueLoop | .importPallet _ => true
  | .expr x | .bare x | .ret x | .letVar _ x _ => x.fits e
  | .assign _ op x => (e.has .compoundAssignment || op = plainAssign) && x.fits e
  | .fn _ _ _ body => Stmt.allFit e body
  | .whileLoop c body => c.fits e && Stmt.allFit e body
  | .forLoop init c next body => init.fits e && (c.fits e && (next.fits e && Stmt.allFit e body))

def Stmt.allFit (e : Edition) : List Stmt → Bool
  | [] => true
  | s :: ss => s.fits e && Stmt.allFit e ss

end

mutual

theorem Expr.element?_document : ∀ x : Expr, x.isComplete = true → x.fits e = true →
    (x.document e).element? = some (.node (.bare x))
  | .missing, h, _ | .openCall _, h, _ => by simp [Expr.isComplete] at h
  | .int _, _, _ | .float _, _, _ | .bool _, _, _ | .str _, _, _ => rfl
  | .ident s, _, _ => element?_identifier (.text s)
  | .infixed l op r, h, hf => by
    simp only [Expr.isComplete, Expr.fits, Bool.and_eq_true] at h hf
    have hl := Expr.element?_document l h.1 hf.1
    have hr := Expr.element?_document r h.2 hf.2
    rw [Expr.document, element?_node]
    simp only [fieldElements?, element?, hl, hr, Option.bind_some, Option.map_some]
    cases op <;> rfl
  | .prefixed op x, h, hf => by
    have hx := Expr.element?_document x h hf
    rw [Expr.document, element?_node]
    simp only [fieldElements?, element?, hx, Option.bind_some, Option.map_some]
    cases op <;> rfl
  | .stepped x op, h, hf => by
    have hx := Expr.element?_document x h hf
    rw [Expr.document, element?_node]
    simp only [fieldElements?, element?, hx, Option.bind_some, Option.map_some]
    cases op <;> rfl
  | .call f args, h, hf => by
    simp only [Expr.isComplete, Expr.fits, Bool.and_eq_true] at h hf
    have hcallee := Expr.element?_document f h.1 hf.1
    have hargs := Expr.elements?_documents args h.2 hf.2
    rw [Expr.document, element?_node]
    simp only [fieldElements?, element?, hcallee, hargs, Option.bind_some, Option.map_some]
    exact congrArg (Option.map _) (Element.mapM_expr? args)
  | .ifThen c body, h, hf => by
    simp only [Expr.isComplete, Expr.fits, Bool.and_eq_true] at h hf
    have hc := Expr.element?_document c h.1 hf.1
    have hbody := element?_block (Stmt.elements?_documents body h.2 hf.2)
    rw [Expr.document, element?_node]
    simp only [fieldElements?, element?, hc, hbody, Option.bind_some, Option.map_some]
    rfl
  | .ifElse c body alternative, h, hf => by
    simp only [Expr.isComplete, Expr.fits, Bool.and_eq_true] at h hf
    have hc := Expr.element?_document c h.1 hf.1
    have hbody := element?_block (Stmt.elements?_documents body h.2.1 hf.2.1)
    have halternative := element?_block (Stmt.elements?_documents alternative h.2.2 hf.2.2)
    rw [Expr.document, element?_node]
    simp only [fieldElements?, hc, hbody, halternative, Option.bind_some, Option.map_some]
    rfl

theorem Expr.elements?_documents : ∀ xs : List Expr, Expr.areComplete xs = true →
    Expr.allFit e xs = true → elements? (Expr.documents e xs) = some (xs.map fun x =>
    .node (.bare x))
  | [], _, _ => rfl
  | x :: xs, h, hf => by
    simp only [Expr.areComplete, Expr.allFit, Bool.and_eq_true] at h hf
    rw [Expr.documents, elements?, Expr.element?_document x h.1 hf.1, Expr.elements?_documents xs
      h.2 hf.2]
    rfl

theorem Stmt.element?_document : ∀ s : Stmt, s.isComplete = true → s.fits e = true →
    (s.document e).element? = some (.node s)
  | .missing, h, _ => by simp [Stmt.isComplete] at h
  | .breakLoop, _, _ | .continueLoop, _, _ | .importPallet _, _, _ => rfl
  | .bare x, h, hf => Expr.element?_document x h hf
  | .expr x, h, hf => by
    have hx := Expr.element?_document x h hf
    rw [Stmt.document, element?_node]
    simp only [fieldElements?, hx, Option.bind_some, Option.map_some]
    rfl
  | .ret x, h, hf => by
    have hx := Expr.element?_document x h hf
    rw [Stmt.document, element?_node]
    simp only [fieldElements?, hx, Option.bind_some, Option.map_some]
    rfl
  | .letVar name x type, h, hf => by
    have hx := Expr.element?_document x h hf
    rw [Stmt.document, element?_node]
    simp only [fieldElements?, element?, element?_identifier, hx, Option.bind_some, Option.map_some]
    rfl
  | .fn name none type body, h, _ => by simp [Stmt.isComplete] at h
  | .fn name (some ps) type body, h, hf => by
    simp only [Stmt.isComplete, Option.isSome_some, Bool.true_and] at h
    have hbody := element?_block (Stmt.elements?_documents body h hf)
    rw [Stmt.document, element?_node]
    simp only [fieldElements?, element?_identifier, element?_ofLiteral, Param.element?_documents,
      hbody, Option.bind_some, Option.map_some]
    exact congrArg (Option.map _) (Element.mapM_param? ps)
  | .assign target op x, h, hf => by
    simp only [Stmt.fits, Bool.and_eq_true, Bool.or_eq_true, decide_eq_true_eq] at hf
    have hx := Expr.element?_document x h hf.2
    rw [Stmt.document, element?_node]
    by_cases hcompound : e.has .compoundAssignment = true
    · simp only [hcompound, if_true, List.cons_append, List.nil_append, fieldElements?,
        element?_identifier, element?_ofLiteral, hx, Option.bind_some, Option.map_some]
      exact congrArg (Option.map _) (Element.name?_name target)
    · obtain rfl : op = plainAssign := hf.1.resolve_left hcompound
      simp only [hcompound, Bool.false_eq_true, if_false, List.nil_append, fieldElements?,
        element?_identifier, hx, Option.bind_some, Option.map_some]
      exact congrArg (Option.map _) (Element.name?_name target)
  | .whileLoop c body, h, hf => by
    simp only [Stmt.isComplete, Stmt.fits, Bool.and_eq_true] at h hf
    have hc := Expr.element?_document c h.1 hf.1
    have hbody := element?_block (Stmt.elements?_documents body h.2 hf.2)
    rw [Stmt.document, element?_node]
    simp only [fieldElements?, hc, hbody, Option.bind_some, Option.map_some]
    rfl
  | .forLoop init c next body, h, hf => by
    simp only [Stmt.isComplete, Stmt.fits, Bool.and_eq_true] at h hf
    have hinit := Stmt.element?_document init h.1 hf.1
    have hc := Expr.element?_document c h.2.1 hf.2.1
    have hnext := Stmt.element?_document next h.2.2.1 hf.2.2.1
    have hbody := element?_block (Stmt.elements?_documents body h.2.2.2 hf.2.2.2)
    rw [Stmt.document, element?_node]
    simp only [fieldElements?, hinit, hc, hnext, hbody, Option.bind_some, Option.map_some]
    rfl

theorem Stmt.elements?_documents : ∀ ss : List Stmt, Stmt.areComplete ss = true →
    Stmt.allFit e ss = true → elements? (Stmt.documents e ss) = some (ss.map .node)
  | [], _, _ => rfl
  | s :: ss, h, hf => by
    simp only [Stmt.areComplete, Stmt.allFit, Bool.and_eq_true] at h hf
    rw [Stmt.documents, elements?, Stmt.element?_document s h.1 hf.1, Stmt.elements?_documents ss
      h.2 hf.2]
    rfl

end

theorem Expr.allFit_iff {xs : List Expr} : Expr.allFit e xs = true ↔ ∀ x ∈ xs, x.fits e = true := by
  induction xs with
  | nil => simp [Expr.allFit]
  | cons x xs ih => simp [Expr.allFit, ih]

theorem Stmt.allFit_iff {ss : List Stmt} : Stmt.allFit e ss = true ↔ ∀ s ∈ ss, s.fits e = true := by
  induction ss with
  | nil => simp [Stmt.allFit]
  | cons s ss ih => simp [Stmt.allFit, ih]

/-- What an edition reads belongs to the edition. -/
theorem Parsed.fits_of_errors_nil {ls : List Lexeme} (h : (Parsed.ofLexemes e ls).errors = []) :
    Stmt.allFit e (Parsed.ofLexemes e ls).program = true := by
  have hi : Inherited e (fun x => x.fits e = true) fun s => s.fits e = true := by
    constructor
    all_goals simp +contextual [Expr.fits, Stmt.fits, Expr.allFit_iff, Stmt.allFit_iff]
  exact Stmt.allFit_iff.mpr (hi.program h)

theorem Program.program?_document {p : Program} (hc : Stmt.areComplete p = true)
    (hf : Stmt.allFit e p = true) : (Program.document e p).program? = some p := by
  have hlabelled : ∀ s ∈ p,
      (Document.record [(s.kind, s.document e)]).element? = some (.node s) := by
    intro s hs
    have hs := Stmt.element?_document s (Stmt.areComplete_iff.mp hc s hs)
      (Stmt.allFit_iff.mp hf s hs)
    simp only [element?, fieldElements?, hs, Option.bind_some, Option.map_some]
    rfl
  have helement : (Program.document e p).element? = some (.block p) := by
    rw [Program.document, element?_node, fieldElements?_cons, element?_list,
      elements?_map hlabelled]
    exact congrArg (Option.map _) (Element.mapM_stmt? p)
  rw [program?, helement]

end LimeLang
