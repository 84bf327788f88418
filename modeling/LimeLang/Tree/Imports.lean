import LimeLang.Tree

/-! The files that a program imports, in the order of the text. -/

namespace LimeLang

mutual

def Expr.imports : Expr → List String
  | .ifThen _ body => imports body
  | .ifElse _ body alternative => imports body ++ imports alternative
  | _ => []

def Stmt.imports : Stmt → List String
  | .expr x | .bare x => x.imports
  | .fn _ _ _ body | .whileLoop _ body => imports body
  | .forLoop init _ next body => init.imports ++ imports body ++ next.imports
  | .importPallet path => [path]
  | _ => []

def imports : List Stmt → List String
  | [] => []
  | s :: ss => s.imports ++ imports ss

end

theorem imports_append (p q : List Stmt) : imports (p ++ q) = imports p ++ imports q := by
  induction p with
  | nil => simp [imports]
  | cons s p ih => simp [imports, ih]

end LimeLang
