import LimeLang.Compile

/-! Which programs use variables only where their slots are sure to have been made. Names are found
through scopes that know nothing of control flow: a branch makes no scope, and a routine sees the
variables of those around it. So it is checked which names are safe at each point of a program. -/

namespace LimeLang

/-- What is known of names at a point of a program. -/
structure Known where
  /-- Names whose slots have been made on every way to this point, by the current routine. -/
  own : List Literal
  /-- Names that may stand for slots. -/
  all : List Literal
  /-- Whether the current routine is inside of a `for`. -/
  inLoop : Bool

namespace Known

def empty : Known := ⟨[], [], false⟩

/-- A name may be used if its slot has been made, or if it stands for no slot. -/
def admits (k : Known) (name : Literal) : Bool :=
  k.own.any (·.same name) || !k.all.any (·.same name)

def declare (k : Known) (name : Literal) :
    Known := { k with own := name :: k.own, all := name :: k.all }

/-- Behind code that may have been left out. What was declared there stays visible. -/
def behind (k k' : Known) : Known := { k with all := k'.all }

def inside (k : Known) (params : List Param) : Known :=
  ⟨params.map Param.name, params.map Param.name ++ k.all, false⟩

end Known

mutual

def Expr.isClear (k : Known) : Expr → Bool
  | .ident s => k.admits (.text s)
  | .infixed l _ r => l.isClear k && r.isClear k
  | .prefixed _ r => r.isClear k
  | .call f args => f.literal?.all k.admits && areClear k args
  | _ => true

def areClear (k : Known) : List Expr → Bool
  | [] => true
  | x :: xs => x.isClear k && areClear k xs

end

/-- What an import does to the names that are known. -/
abbrev Imports := String → Known → Option Known

mutual

def Expr.scope? (imports : Imports) (k : Known) : Expr → Option Known
  | .stepped x _ => if x.literal?.all k.admits then some k else none
  | .ifThen c body =>
    if c.isClear k then (scopes? imports k body).map k.behind else none
  | .ifElse c body alternative =>
    if c.isClear k then do
      let k₁ ← scopes? imports k body
      let k₂ ← scopes? imports (k.behind k₁) alternative
      return k.behind k₂
    else none
  | x => if x.isClear k then some k else none

def Stmt.scope? (imports : Imports) (k : Known) : Stmt → Option Known
  | .missing => some k
  | .expr x | .bare x => x.scope? imports k
  | .letVar name x _ =>
    if x.isClear k && k.admits (.text name) then some (k.declare (.text name)) else none
  | .ret x => if x.isClear k then some k else none
  | .fn _ params _ body => (scopes? imports (k.inside (params.getD [])) body).map fun _ => k
  | .assign target _ x => if k.admits target && x.isClear k then some k else none
  | .whileLoop c body =>
    if c.isClear k then do
      let k₁ ← scopes? imports k body
      if c.isClear k₁ then return k.behind k₁ else none
    else none
  | .breakLoop | .continueLoop => if k.inLoop then some k else none
  | .forLoop init c next body => do
    let k₁ ← init.scope? imports k
    let k₂ ← scopes? imports { k₁ with inLoop := true } body
    let k₃ ← next.scope? imports k₂
    if c.isClear k₃ then return k₁.behind k₃ else none
  | .importPallet path => imports path k

def scopes? (imports : Imports) (k : Known) : List Stmt → Option Known
  | [] => some k
  | st :: ss => do
    let k₁ ← st.scope? imports k
    scopes? imports k₁ ss

end

section Inversion

variable {imports : Imports} {k k' : Known} {c x : Expr} {body alternative : List Stmt}

theorem Expr.scope?_stepped {op : StepOp} : (Expr.stepped x op).scope? imports k = some k' ↔
    x.literal?.all k.admits = true ∧ k = k' := by
  exact Option.ite_none_right_eq_some.trans (and_congr_right' Option.some_inj)

theorem Expr.scope?_ifThen : (Expr.ifThen c body).scope? imports k = some k' ↔
    c.isClear k = true ∧ ∃ k₁, scopes? imports k body = some k₁ ∧ k.behind k₁ = k' := by
  exact Option.ite_none_right_eq_some.trans (and_congr_right' Option.map_eq_some_iff)

theorem Expr.scope?_ifElse : (Expr.ifElse c body alternative).scope? imports k = some k' ↔
    c.isClear k = true ∧ ∃ k₁, scopes? imports k body = some k₁ ∧
      ∃ k₂, scopes? imports (k.behind k₁) alternative = some k₂ ∧ k.behind k₂ = k' := by
  simp [Expr.scope?, Option.bind_eq_some_iff]

theorem Stmt.scope?_letVar {name type : String} :
    (Stmt.letVar name x type).scope? imports k = some k' ↔
    (x.isClear k && k.admits (.text name)) = true ∧ k.declare (.text name) = k' := by
  exact Option.ite_none_right_eq_some.trans (and_congr_right' Option.some_inj)

theorem Stmt.scope?_ret : (Stmt.ret x).scope? imports k = some k' ↔
    x.isClear k = true ∧ k = k' := by
  exact Option.ite_none_right_eq_some.trans (and_congr_right' Option.some_inj)

theorem Stmt.scope?_fn {name : String} {params : Option (List Param)} {type : Literal} :
    (Stmt.fn name params type body).scope? imports k = some k' ↔
      ∃ k₁, scopes? imports (k.inside (params.getD [])) body = some k₁ ∧ k = k' := by
  exact Option.map_eq_some_iff

theorem Stmt.scope?_assign {target op : Literal} :
    (Stmt.assign target op x).scope? imports k = some k' ↔
    (k.admits target && x.isClear k) = true ∧ k = k' := by
  exact Option.ite_none_right_eq_some.trans (and_congr_right' Option.some_inj)

theorem Stmt.scope?_whileLoop : (Stmt.whileLoop c body).scope? imports k = some k' ↔
    c.isClear k = true ∧ ∃ k₁, scopes? imports k body = some k₁ ∧ c.isClear k₁ = true ∧
      k.behind k₁ = k' := by
  simp [Stmt.scope?, Option.bind_eq_some_iff]

theorem Stmt.scope?_forLoop {init next : Stmt} :
    (Stmt.forLoop init c next body).scope? imports k = some k' ↔
      ∃ k₁, init.scope? imports k = some k₁ ∧
      ∃ k₂, scopes? imports { k₁ with inLoop := true } body = some k₂ ∧
      ∃ k₃, next.scope? imports k₂ = some k₃ ∧ c.isClear k₃ = true ∧ k₁.behind k₃ = k' := by
  simp [Stmt.scope?, Option.bind_eq_some_iff]

end Inversion

/-- A file may turn out to be imported already, so what it declares is not relied on. -/
def Files.scope? (e : Edition) (files : Files) : Nat → Imports
  | 0, _, k => some k
  | depth + 1, path, k =>
    match files.read (Files.normalize ("tests\\" ++ path).toList) with
    | .error _ => some k
    | .ok source =>
      let parsed := Parsed.ofLexemes e (Scan.ofSource e source).lexemes
      (scopes? (files.scope? e depth) k parsed.program).map fun k' =>
        { k with all := k'.all ++ k.all }

/-- Every name is used by the routine that declares it, and where its declaration has been
executed. -/
def Program.isScoped (e : Edition) (files : Files) (p : Program) : Bool :=
  (scopes? (files.scope? e Gen.maxImportDepth) .empty p).isSome

end LimeLang
