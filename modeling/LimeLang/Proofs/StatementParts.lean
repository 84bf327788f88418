import LimeLang.Compile.Statement

/-! A statement with a body is compiled in three parts: what comes before the body, the body, and
what comes behind it. -/

namespace LimeLang

open Code

/-- The block where the body of a loop begins and the one behind the loop. -/
structure LoopBlocks where
  entry : Place
  exit : Place

def Stmt.effect? : Stmt → Option Expr
  | .expr x | .bare x => some x
  | _ => none

namespace Gen

def openWhile (e : Edition) (c : Expr) : Gen LoopBlocks := do
  let test ← value e c
  let n ← countUp
  let entry ← addBlock ("while_loop_entry_" ++ toString n)
  let exit ← addBlock ("while_loop_otherwise_" ++ toString n)
  branchOn test.value entry exit
  moveToStart entry
  return ⟨entry, exit⟩

/-- The end of a loop: its condition decides between the body and what follows. -/
def closeWhile (e : Edition) (c : Expr) (l : LoopBlocks) : Gen Unit := do
  let test ← value e c
  branchOn test.value l.entry l.exit
  moveToStart l.exit

/-- The blocks of a `for` loop. Its body begins without a test. -/
def startFor : Gen LoopBlocks := do
  let n ← countUp
  let entry ← addBlock ("for_loop_entry_" ++ toString n)
  let exit ← addBlock ("for_loop_otherwise_" ++ toString n)
  modify fun s => { s with loops := s.loops.enter entry exit }
  branch entry
  moveToStart entry
  return ⟨entry, exit⟩

def openFor (e : Edition) (importer : String → Gen Unit) (init : Stmt) : Gen LoopBlocks := do
  enterScope
  statement e importer init
  startFor

def closeFor (e : Edition) (c : Expr) (l : LoopBlocks) : Gen Unit := do
  closeWhile e c l
  modify fun s => { s with loops := s.loops.leave }

/-- A conditional without alternative up to its body; gives the block behind it. -/
def openThen (e : Edition) (c : Expr) : Gen Place := do
  let test ← value e c
  let p ← branchPlace
  let onTrue ← addBlock (suffixed p.block ".if")
  let after ← addBlock (suffixed p.block ".endif")
  branchOn test.value onTrue after
  moveTo (some onTrue)
  return after

/-- A conditional with alternative up to its body; gives the blocks of the alternative and behind
it. -/
def openElse (e : Edition) (c : Expr) : Gen (Place × Place) := do
  let test ← value e c
  let p ← branchPlace
  let onTrue ← addBlock (suffixed p.block ".if")
  let onFalse ← addBlock (suffixed p.block ".else")
  let after ← addBlock (suffixed p.block ".endif")
  branchOn test.value onTrue onFalse
  moveTo (some onTrue)
  return (onFalse, after)

/-- The end of a branch, with the block to go on in. -/
def closeArm (after next : Place) : Gen Unit := do
  closeWith after
  moveTo (some next)

def closeRoutine (name : String) (b : Binding) (s : Session) : Gen Unit := do
  leaveScopes s.scopes.length
  define (.text name) b
  resumeBuilder s.builder s.place

variable {e : Edition} {importer : String → Gen Unit} {c : Expr} {body alternative : List Stmt}

theorem statement_whileLoop : statement e importer (.whileLoop c body) = (do
    let l ← openWhile e c
    statements e importer body
    closeWhile e c l) := by
  rw [statement]
  simp only [openWhile, closeWhile, bind_assoc, pure_bind]

theorem statement_forLoop {init next : Stmt} :
    statement e importer (.forLoop init c next body) = (do
    let l ← openFor e importer init
    statements e importer body
    statement e importer next
    closeFor e c l) := by
  rw [statement]
  simp only [openFor, startFor, closeFor, closeWhile, bind_assoc, pure_bind]

theorem effect_ifThen : effect e importer (.ifThen c body) = (do
    let after ← openThen e c
    statements e importer body
    closeArm after after) := by
  rw [effect]
  simp only [openThen, closeArm, bind_assoc, pure_bind]

theorem effect_ifElse : effect e importer (.ifElse c body alternative) = (do
    let l ← openElse e c
    statements e importer body
    closeArm l.2 l.1
    statements e importer alternative
    closeArm l.2 l.2) := by
  rw [effect]
  simp only [openElse, closeArm, bind_assoc, pure_bind]

theorem statement_fn {name : String} {params : List Param} {type : Literal} :
    statement e importer (.fn name (some params) type body) = (do
      let s ← get
      let b ← openRoutine e name params type
      statements e importer body
      closeRoutine name b s) := by
  rw [statement]
  rfl

theorem statement_effect {st : Stmt} {x : Expr}
    (h : st.effect? = some x) : statement e importer st = effect e importer x := by
  cases st with
  | expr y | bare y =>
    obtain rfl := Option.some.inj h
    rw [statement]
  | _ => cases h

theorem statements_singleton (st : Stmt) :
    statements e importer [st] = statement e importer st := by
  rw [statements, statements]
  exact bind_pure _

theorem statements_append (ss ts : List Stmt) : statements e importer (ss ++ ts) = (do
    statements e importer ss
    statements e importer ts) := by
  induction ss with
  | nil => rw [List.nil_append, statements, pure_bind]
  | cons s ss ih => rw [List.cons_append, statements, statements, ih, bind_assoc]

end Gen

end LimeLang
