import LimeLang.Proofs.Growth
import LimeLang.Proofs.IntegerPrograms

/-! Which code stands for which integer program, said without the generator. -/

namespace LimeLang

open Code

variable {is : List Instr} {P : Point}

namespace InfixOp

def machineOp? : InfixOp → Option BinaryOp
  | add => some .add
  | sub => some .sub
  | mul => some .mul
  | div => some .sdiv
  | rem => some .srem
  | _ => none

end InfixOp

abbrev Env := String → Option String

def slotOf (n : String) : Operand := .result n (.pointer .i32)

def functionOperand (f : String) (k : Nat) : Operand :=
  .global f (.pointer (.function .i32 (List.replicate k .i32) false))

section Code

variable (fs : Signatures) (env : Env)

mutual

inductive ExprCode : Expr → List Instr → Operand → Prop
  | int {k : Nat} : ExprCode (.int k) [] (.int .i32 k)
  | ident {x n m : String} (hx : env x = some n) :
    ExprCode (.ident x) [⟨m, .load (slotOf n)⟩] (.result m .i32)
  | infixed {l r : Expr} {op : InfixOp} {b : BinaryOp} {is js : List Instr} {v w : Operand}
    {m : String} (hl : ExprCode l is v) (hr : ExprCode r js w) (hop : op.machineOp? = some b) :
    ExprCode (.infixed l op r) (is ++ js ++ [⟨m, .binary b v w⟩]) (.result m .i32)
  | neg {x : Expr} {is : List Instr} {v : Operand} {m : String} (hx : ExprCode x is v) :
    ExprCode (.prefixed .neg x) (is ++ [⟨m, .binary .mul v (.int .i32 (-1))⟩]) (.result m .i32)
  | call {f : String} {args : List Expr} {is : List Instr} {vs : List Operand} {m : String}
    (hf : (f, args.length) ∈ fs) (hargs : ArgsCode args is vs) :
    ExprCode (.call (.ident f) args)
      (is ++ [⟨m, .call (functionOperand f args.length) (vs.map some)⟩]) (.result m .i32)

inductive ArgsCode : List Expr → List Instr → List Operand → Prop
  | nil : ArgsCode [] [] []
  | cons {x : Expr} {xs : List Expr} {is js : List Instr} {v : Operand} {vs : List Operand}
    (hx : ExprCode x is v) (hxs : ArgsCode xs js vs) : ArgsCode (x :: xs) (is ++ js) (v :: vs)

end

inductive TestCode : Expr → List Instr → Operand → Prop
  | compare {l r : Expr} {op : InfixOp} {rel : Relation} {is js : List Instr} {v w : Operand}
    {m : String}
    (hl : ExprCode fs env l is v) (hr : ExprCode fs env r js w) (hop : op.relation? = some rel) :
    TestCode (.infixed l op r) (is ++ js ++ [⟨m, .icmp rel v (some w)⟩]) (.result m .i1)

end Code

theorem ExprCode.operand {fs : Signatures} {env : Env} {x : Expr} {v : Operand}
    (h : ExprCode fs env x is v) :
    v.ty = .i32 ∧ ∀ m t, v = .result m t → m ∈ is.map Instr.name := by
  cases h with
  | int => exact ⟨rfl, by simp⟩
  | _ => exact ⟨rfl, by simp_all⟩

/-- The results have names of their own, none of which is that of a slot. -/
structure Fresh (env : Env) (is : List Instr) : Prop where
  nodup : (is.map Instr.name).Nodup
  apart : ∀ x n, env x = some n → n ∉ is.map Instr.name

section Freshness

variable {env : Env} {is js : List Instr}

theorem Fresh.left (h : Fresh env (is ++ js)) : Fresh env is where
  nodup := (List.nodup_append.mp (List.map_append ▸ h.nodup)).1
  apart := fun x n hx hn => h.apart x n hx (by
    rw [List.map_append]
    exact List.mem_append_left _ hn)

theorem Fresh.right (h : Fresh env (is ++ js)) : Fresh env js where
  nodup := (List.nodup_append.mp (List.map_append ▸ h.nodup)).2.1
  apart := fun x n hx hn => h.apart x n hx (by
    rw [List.map_append]
    exact List.mem_append_right _ hn)

theorem Fresh.not_mem_right (h : Fresh env (is ++ js)) {n : String} (hn : n ∈ is.map Instr.name) :
    n ∉ js.map Instr.name := by
  have hh := h.nodup
  rw [List.map_append] at hh
  exact fun hm => (List.nodup_append.mp hh).2.2 n hn n hm rfl

end Freshness

/-- A point in the code of a routine: so many instructions of a block come before it. -/
structure Point where
  block : String
  index : Nat

def Point.after (P : Point) (is : List Instr) : Point := ⟨P.block, P.index + is.length⟩

def Point.start (block : String) : Point := ⟨block, 0⟩

section Points

variable (a : Assembly) (ρ : String)

def Segment (P : Point) (is : List Instr) : Prop :=
  ∃ before behind, a.code? ⟨ρ, P.block⟩ = some (before ++ (is ++ behind)) ∧ before.length = P.index

def IsBlock (β : String) : Prop := (a.code? ⟨ρ, β⟩).isSome = true

structure Straight (env : Env) (P : Point) (is : List Instr) : Prop where
  segment : Segment a ρ P is
  fresh : Fresh env is

end Points

/-- The code that stores in slot `n` what an assignment of `w` gives. -/
inductive AssignCode (n : String) (w : Operand) : String → List Instr → Prop
  | plain {m : String} : AssignCode n w "=" [⟨m, .store w (slotOf n)⟩]
  | loaded {k m : String} : AssignCode n w "=" [⟨k, .load (slotOf n)⟩, ⟨m, .store w (slotOf n)⟩]
  | update {op : String} {o : InfixOp} {b : BinaryOp} {j k m : String}
    (ho : InfixOp.ofAssignment? op = some o) (hb : o.machineOp? = some b) :
    AssignCode n w op [⟨k, .load (slotOf n)⟩, ⟨j, .binary b (.result k .i32) w⟩,
      ⟨m, .store (.result j .i32) (slotOf n)⟩]

section Statements

variable (a : Assembly) (ρ : String) (fs : Signatures)

structure Decides (env : Env) (c : Expr) (t e : String) (P : Point) : Prop where
  test : ∃ is w m, TestCode fs env c is w ∧ Straight a ρ env P (is ++ [⟨m, .condBr (some w) t e⟩])
  onTrue : IsBlock a ρ t
  onFalse : IsBlock a ρ e

mutual

/-- The code of a statement leads from one point to another one. -/
inductive StmtCode (env : Env) : Stmt → Point → Point → Prop
  | assign {x op k : String} {v : Expr} {is js : List Instr} {w : Operand} {P : Point}
    (hv : ExprCode fs env v is w) (hx : env x = some k) (hop : AssignCode k w op js)
    (hs : Straight a ρ env P (is ++ js)) :
    StmtCode env (.assign (.text x) (.text op) v) P (P.after (is ++ js))
  | step {x k i j m : String} {op : StepOp} {b : BinaryOp} {P : Point} {js : List Instr}
    (hx : env x = some k) (hb : b = if op = .increment then .add else .sub)
    (hjs : js = [⟨i, .load (slotOf k)⟩, ⟨j, .binary b (.result i .i32) (.int .i32 1)⟩,
      ⟨m, .store (.result j .i32) (slotOf k)⟩])
    (hs : Straight a ρ env P js) : StmtCode env (.expr (.stepped (.ident x) op)) P (P.after js)
  | call {f : Expr} {args : List Expr} {is : List Instr} {w : Operand} {P : Point}
    (hv : ExprCode fs env (.call f args) is w) (hs : Straight a ρ env P is) :
    StmtCode env (.expr (.call f args)) P (P.after is)
  | ifThen {c : Expr} {body : List Stmt} {t e : String} {P : Point}
    (hc : Decides a ρ fs env c t e P)
    (hbody : ArmCode env body (.start t) e) : StmtCode env (.expr (.ifThen c body)) P (.start e)
  | ifElse {c : Expr} {body alternative : List Stmt} {t u e : String} {P : Point}
    (hc : Decides a ρ fs env c t u P) (hbody : ArmCode env body (.start t) e)
    (halt : ArmCode env alternative (.start u) e) :
    StmtCode env (.expr (.ifElse c body alternative)) P (.start e)
  | whileLoop {c : Expr} {body : List Stmt} {t e : String} {P Q : Point}
    (hc : Decides a ρ fs env c t e P) (hbody : StmtsCode env body (.start t) Q)
    (hc' : Decides a ρ fs env c t e Q) : StmtCode env (.whileLoop c body) P (.start e)
  | ret {v : Expr} {is : List Instr} {w : Operand} {m : String} {P Q : Point}
    (hv : ExprCode fs env v is w) (hs : Straight a ρ env P (is ++ [⟨m, .ret (some w)⟩])) :
    StmtCode env (.ret v) P Q

inductive StmtsCode (env : Env) : List Stmt → Point → Point → Prop
  | nil {P : Point} : StmtsCode env [] P P
  | cons {s : Stmt} {ss : List Stmt} {P Q R : Point} (hs : StmtCode env s P Q)
    (hss : StmtsCode env ss Q R) : StmtsCode env (s :: ss) P R

/-- One way of a conditional. Unless it returns, it ends with a jump to where the ways meet. -/
inductive ArmCode (env : Env) : List Stmt → Point → String → Prop
  | jumps {ss : List Stmt} {P Q : Point} {m e : String} (hs : StmtsCode env ss P Q)
    (hj : Segment a ρ Q [⟨m, .br e⟩]) (he : IsBlock a ρ e) : ArmCode env ss P e
  | returns {ss : List Stmt} {P Q : Point} {e : String} (hs : StmtsCode env ss P Q)
    (hret : ss.getLast?.any Stmt.isReturn = true) : ArmCode env ss P e

end

inductive BodyCode : Env → List Stmt → Point → Prop
  | nil {env : Env} {P : Point} : BodyCode env [] P
  | letVar {env : Env} {x n m type : String} {v : Expr} {w : Operand} {is : List Instr}
    {ss : List Stmt} {P : Point} (hv : ExprCode fs env v is w) (hx : env x = none)
    (hs : Straight a ρ env P (is ++ [⟨n, .alloca .i32⟩, ⟨m, .store w (slotOf n)⟩]))
    (hss : BodyCode (Function.update env x (some n)) ss
      (P.after (is ++ [⟨n, .alloca .i32⟩, ⟨m, .store w (slotOf n)⟩]))) :
    BodyCode env (.letVar x v type :: ss) P
  | stmt {env : Env} {s : Stmt} {ss : List Stmt} {P Q : Point} (hs : StmtCode a ρ fs env s P Q)
    (hss : BodyCode env ss Q) : BodyCode env (s :: ss) P

/-- The code that gives slots to the parameters with labels `xs` and names `ps`. -/
inductive ParamCode : List String → List String → Env → List Instr → Env → Prop
  | nil {env : Env} : ParamCode [] [] env [] env
  | cons {x p n m : String} {xs ps : List String} {env env' : Env} {is : List Instr}
    (hx : env x = none) (hxs : ParamCode xs ps (Function.update env x (some n)) is env') :
    ParamCode (x :: xs) (p :: ps) env
      (⟨n, .alloca .i32⟩ :: ⟨m, .store (.result p .i32) (slotOf n)⟩ :: is) env'

/-- The code of a function that may call those of `fs`. -/
structure FunctionCode (params : List Param) (body : List Stmt) (r : Routine) (entry : Block)
    (bs : List Block) (env : Env) (is : List Instr) : Prop where
  routine : a.routine? ρ = some r
  blocks : r.blocks = entry :: bs
  slots : ParamCode (params.map Param.label) (r.params.map Prod.fst) (fun _ => none) is env
  names : (r.params.map Prod.fst ++ is.map Instr.name).Nodup
  labels : (params.map Param.label).Nodup
  segment : Segment a ρ (.start entry.name) is
  code : BodyCode a ρ fs env body ((Point.start entry.name).after is)
  returns : body.getLast?.any Stmt.isReturn = true

end Statements

section Growing

variable {a b : Assembly} {ρ : String} {fs : Signatures} {env : Env}

theorem Segment.grows (h : Segment a ρ P is) (hg : a.Grows b) : Segment b ρ P is := by
  obtain ⟨before, behind, hcode, hlen⟩ := h
  obtain ⟨more, hmore⟩ := hg.code hcode
  exact ⟨before, behind ++ more, by simp [hmore], hlen⟩

theorem IsBlock.grows {β : String} (h : IsBlock a ρ β) (hg : a.Grows b) : IsBlock b ρ β := by
  obtain ⟨is, his⟩ := Option.isSome_iff_exists.mp h
  obtain ⟨more, hmore⟩ := hg.code his
  simp [IsBlock, hmore]

theorem Straight.grows (h : Straight a ρ env P is) (hg : a.Grows b) :
    Straight b ρ env P is := ⟨h.segment.grows hg, h.fresh⟩

theorem Decides.grows {c : Expr} {t e : String} (h : Decides a ρ fs env c t e P) (hg : a.Grows b) :
    Decides b ρ fs env c t e P := by
  obtain ⟨⟨is, w, m, hc, hs⟩, ht, he⟩ := h
  exact ⟨⟨is, w, m, hc, hs.grows hg⟩, ht.grows hg, he.grows hg⟩

mutual

theorem StmtCode.grows (hg : a.Grows b) : ∀ {s : Stmt} {P Q : Point}, StmtCode a ρ fs env s P Q →
    StmtCode b ρ fs env s P Q
  | _, _, _, .assign hv hx hop hs => .assign hv hx hop (hs.grows hg)
  | _, _, _, .step hx hb hjs hs => .step hx hb hjs (hs.grows hg)
  | _, _, _, .call hv hs => .call hv (hs.grows hg)
  | _, _, _, .ifThen hc hbody => .ifThen (hc.grows hg) (hbody.grows hg)
  | _, _, _, .ifElse hc hbody halt => .ifElse (hc.grows hg) (hbody.grows hg) (halt.grows hg)
  | _, _, _, .whileLoop hc hbody hc' => .whileLoop (hc.grows hg) (hbody.grows hg) (hc'.grows hg)
  | _, _, _, .ret hv hs => .ret hv (hs.grows hg)

theorem StmtsCode.grows (hg : a.Grows b) : ∀ {ss : List Stmt} {P Q : Point},
    StmtsCode a ρ fs env ss P Q → StmtsCode b ρ fs env ss P Q
  | _, _, _, .nil => .nil
  | _, _, _, .cons hs hss => .cons (hs.grows hg) (hss.grows hg)

theorem ArmCode.grows (hg : a.Grows b) : ∀ {ss : List Stmt} {P : Point} {e : String},
    ArmCode a ρ fs env ss P e → ArmCode b ρ fs env ss P e
  | _, _, _, .jumps hs hj he => .jumps (hs.grows hg) (hj.grows hg) (he.grows hg)
  | _, _, _, .returns hs hret => .returns (hs.grows hg) hret

end

theorem BodyCode.grows (hg : a.Grows b) {ss : List Stmt} (h : BodyCode a ρ fs env ss P) :
    BodyCode b ρ fs env ss P := by
  induction h with
  | nil => exact .nil
  | letVar hv hx hs _ ih => exact .letVar hv hx (hs.grows hg) ih
  | stmt hs _ ih => exact .stmt (hs.grows hg) ih

theorem FunctionCode.grows {params : List Param} {body : List Stmt} {r : Routine} {entry : Block}
    {bs : List Block} (h : FunctionCode a ρ fs params body r entry bs env is) (hg : a.Grows b) :
    ∃ r' entry' bs', FunctionCode b ρ fs params body r' entry' bs' env is := by
  obtain ⟨r', hr', hgrow⟩ := hg ρ r h.routine
  obtain ⟨entry', bs', hblocks, hname⟩ := hgrow.entry h.blocks
  refine ⟨r', entry', bs', hr', hblocks, ?_, ?_, h.labels, ?_, ?_, h.returns⟩
  · rw [hgrow.params]
    exact h.slots
  · rw [hgrow.params]
    exact h.names
  · rw [hname]
    exact h.segment.grows hg
  · rw [hname]
    exact h.code.grows hg

end Growing

end LimeLang
