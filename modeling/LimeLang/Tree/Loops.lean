import LimeLang.Tree

/-! The headers of the `for` loops of a tree, wherever they stand in it. -/

namespace LimeLang

structure Header where
  init : Stmt
  step : Stmt

/-- The headers that an edition reads: a variable is declared, and the step is an assignment in the
first editions with loops and an expression later. -/
def Header.fits (e : Edition) (h : Header) : Bool :=
  match h.init, h.step with
  | .letVar .., .assign .. => !e.has .stepping
  | .letVar .., .bare _ => e.has .stepping
  | _, _ => false

mutual

def Expr.headers : Expr → List Header
  | .missing | .int _ | .float _ | .ident _ | .bool _ | .str _ => []
  | .infixed l _ r => l.headers ++ r.headers
  | .prefixed _ x | .stepped x _ | .openCall x => x.headers
  | .call f args => f.headers ++ argumentHeaders args
  | .ifThen c body => c.headers ++ headers body
  | .ifElse c body alternative => c.headers ++ (headers body ++ headers alternative)

def argumentHeaders : List Expr → List Header
  | [] => []
  | x :: xs => x.headers ++ argumentHeaders xs

def Stmt.headers : Stmt → List Header
  | .missing | .breakLoop | .continueLoop | .importPallet _ => []
  | .expr x | .bare x | .ret x | .letVar _ x _ | .assign _ _ x => x.headers
  | .fn _ _ _ body => headers body
  | .whileLoop c body => c.headers ++ headers body
  | .forLoop init c step body =>
    ⟨init, step⟩ :: (init.headers ++ (c.headers ++ (step.headers ++ headers body)))

def headers : List Stmt → List Header
  | [] => []
  | s :: ss => s.headers ++ headers ss

end

theorem mem_argumentHeaders {h : Header} {xs : List Expr} :
    h ∈ argumentHeaders xs ↔ ∃ x ∈ xs, h ∈ x.headers := by
  induction xs with
  | nil => simp [argumentHeaders]
  | cons x xs ih => simp [argumentHeaders, ih]

theorem mem_headers {h : Header} {ss : List Stmt} : h ∈ headers ss ↔ ∃ s ∈ ss, h ∈ s.headers := by
  induction ss with
  | nil => simp [headers]
  | cons s ss ih => simp [headers, ih]

@[simp] theorem argumentHeaders_eq_nil {xs : List Expr} :
    argumentHeaders xs = [] ↔ ∀ x ∈ xs, x.headers = [] := by
  simp only [List.eq_nil_iff_forall_not_mem, mem_argumentHeaders]
  grind

@[simp] theorem headers_eq_nil {ss : List Stmt} : headers ss = [] ↔ ∀ s ∈ ss, s.headers = [] := by
  simp only [List.eq_nil_iff_forall_not_mem, mem_headers]
  grind

end LimeLang
