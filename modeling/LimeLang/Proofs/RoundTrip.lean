import LimeLang.Proofs.ReadingFuel
import LimeLang.Proofs.Spelling

/-! Reading the canonical text of a program gives the program back, and what follows it is read
as if it stood alone. -/

namespace LimeLang

/-- Reading from `s` gives `a` and goes to `t`. -/
def Yields {α : Type} (x : Reader α) (s : Reading) (a : α) (t : Reading) : Prop := x s = (a, t)

namespace Yields

variable {α β : Type} {a : α} {b : β} {s t u : Reading} {l m : Lexeme} {ls : List Lexeme}
  {errs : List ParseError}

theorem pure : Yields (Pure.pure a) s a s := rfl

theorem bind {x : Reader α} {f : α → Reader β} (h : Yields x s a t) (hf : Yields (f a) t b u) :
    Yields (x >>= f) s b u := by
  change f (x s).1 (x s).2 = (b, u)
  rw [h]
  exact hf

theorem advance {x : Reader β} (h : Yields x ⟨ls, errs⟩ b u) :
    Yields (Reader.advance >>= fun _ => x) ⟨l :: ls, errs⟩ b u := h

theorem current {f : Lexeme → Reader β} (h : Yields (f l) ⟨l :: ls, errs⟩ b u) :
    Yields (Reader.current >>= f) ⟨l :: ls, errs⟩ b u := h

theorem peekKind {f : Kind → Reader β} (h : Yields (f m.kind) ⟨l :: m :: ls, errs⟩ b u) :
    Yields (Reader.peekKind >>= f) ⟨l :: m :: ls, errs⟩ b u := h

theorem peekAny {f : Kind → Reader β} (h : ∀ k, Yields (f k) s b u) :
    Yields (Reader.peekKind >>= f) s b u := h s.peek.kind

theorem skipToSemicolon {x : Reader β} (h : Yields x ⟨.semicolon :: ls, errs⟩ b u)
    (hl : l.kind ≠ .semicolon) :
    Yields (Reader.skipToSemicolon >>= fun _ => x) ⟨l :: .semicolon :: ls, errs⟩ b u := by
  refine bind (a := ()) (t := ⟨.semicolon :: ls, errs⟩) ?_ h
  simp [Yields, Reader.skipToSemicolon, hl, Lexeme.semicolon]

theorem expect {k : Kind} {f : Bool → Reader β} (hk : m.kind = k)
    (h : Yields (f true) ⟨m :: ls, errs⟩ b u) :
    Yields (Reader.expect k >>= f) ⟨l :: m :: ls, errs⟩ b u := by
  refine bind (a := true) (t := ⟨m :: ls, errs⟩) ?_ h
  simp [Yields, Reader.expect, Reading.peek, Reading.advance, hk]

theorem ite_pos {c : Prop} [Decidable c] {x y : Reader α} (hc : c) (h : Yields x s a t) :
    Yields (if c then x else y) s a t := by
  rwa [if_pos hc]

theorem ite_neg {c : Prop} [Decidable c] {x y : Reader α} (hc : ¬ c) (h : Yields y s a t) :
    Yields (if c then x else y) s a t := by
  rwa [if_neg hc]

end Yields

def ReadsBack (e : Edition) (x : Expr) : Prop :=
  ∀ (r : List Lexeme) (errs : List ParseError) (n : Nat),
    8 * ((x.lexemes e).length + r.length) + 10 ≤ n →
      ∃ l, Yields (Parse.expr e n 0) ⟨x.lexemes e ++ .rparen :: r, errs⟩ x ⟨l :: .rparen :: r, errs⟩

section Expressions

variable {e : Edition} {x : Expr} {l m : Lexeme} {r : List Lexeme} {errs : List ParseError}

theorem continued_stops {n level : Nat} (hm : m.kind.continuation? e = none) (hn : 0 < n) :
    Yields (Parse.continued e n level x) ⟨l :: m :: r, errs⟩ x ⟨l :: m :: r, errs⟩ := by
  obtain ⟨n, rfl⟩ := Nat.exists_eq_succ_of_ne_zero hn.ne'
  rw [Parse.continued]
  refine .peekKind ?_
  rw [hm]
  exact .pure

theorem ReadsBack.grouped (hx : ReadsBack e x) {n level : Nat}
    (hn : 8 * ((x.lexemes e).length + 2 + r.length) + 2 ≤ n) {y : Expr} {t : Reading}
    (h : Yields (Parse.continued e (n - 1) level x) ⟨.rparen :: r, errs⟩ y t) :
    Yields (Parse.expr e n level) ⟨grouped (x.lexemes e) ++ r, errs⟩ y t := by
  obtain _ | n := n
  · omega
  obtain ⟨l, hl⟩ := hx r errs n (by omega)
  rw [LimeLang.grouped, List.cons_append, List.append_assoc, Parse.expr]
  exact .current (.advance (.bind hl (.expect rfl h)))

theorem ReadsBack.stops (hx : ReadsBack e x) {n level : Nat} (hm : m.kind.continuation? e = none)
    (hn : 8 * ((x.lexemes e).length + 3 + r.length) + 2 ≤ n) :
    Yields (Parse.expr e n level) ⟨LimeLang.grouped (x.lexemes e) ++ m :: r, errs⟩ x
      ⟨.rparen :: m :: r, errs⟩ :=
  hx.grouped (by rw [List.length_cons]; omega) (continued_stops hm (by omega))

theorem arguments_stop (lss : List (List Lexeme)) (r : List Lexeme) :
    ∃ m r', lss.flatMap (fun ms => .comma :: ms) ++ .rparen :: r = m :: r' ∧
      m.kind.continuation? e = none := by
  cases lss with
  | nil => exact ⟨.rparen, r, rfl, rfl⟩
  | cons ls lss => exact ⟨.comma, _, rfl, rfl⟩

theorem moreArguments_reads {args acc : List Expr} (h : ∀ x ∈ args, ReadsBack e x) {n : Nat}
    (hn : 8 * (((argumentLexemes e args).flatMap fun ms => .comma :: ms).length + r.length) +
    17 ≤ n) : Yields (Parse.moreArguments e n acc)
      ⟨l :: ((argumentLexemes e args).flatMap (fun ms => .comma :: ms) ++ .rparen :: r), errs⟩
      (some (acc ++ args)) ⟨.rparen :: r, errs⟩ := by
  induction args generalizing acc l n with
  | nil =>
    obtain _ | n := n
    · omega
    rw [argumentLexemes, Parse.moreArguments, List.append_nil]
    exact .peekKind (.ite_neg (by simp [Lexeme.rparen]) (.expect rfl (.ite_pos rfl .pure)))
  | cons x xs ih =>
    obtain _ | n := n
    · omega
    obtain ⟨m, r', hr, hm⟩ := arguments_stop (e := e) (argumentLexemes e xs) r
    have hlen := congrArg List.length hr
    simp only [argumentLexemes, List.flatMap_cons, List.length_append, List.length_cons, grouped,
      List.length_nil] at hn hlen
    have hxs : ∀ y ∈ xs, ReadsBack e y := fun y hy => h y (by simp [hy])
    have hh : Yields (Parse.moreArguments e n (acc ++ [x])) ⟨.rparen :: m :: r', errs⟩
        (some (acc ++ x :: xs)) ⟨.rparen :: r, errs⟩ := by
      rw [← hr, List.append_cons acc x xs]
      exact ih (n := n) hxs (by omega)
    rw [argumentLexemes, Parse.moreArguments, List.flatMap_cons, List.append_assoc, hr]
    refine .peekKind (.ite_pos rfl (.advance (.advance (.bind ?_ hh))))
    exact (h x (by simp)).stops hm (by omega)

theorem arguments_reads {args : List Expr} (h : ∀ x ∈ args, ReadsBack e x) {n : Nat}
    (hn : 8 * ((separated (argumentLexemes e args)).length + r.length) + 19 ≤ n) :
    Yields (Parse.arguments e n)
      ⟨grouped (separated (argumentLexemes e args)) ++ r, errs⟩ (some args)
        ⟨.rparen :: r, errs⟩ := by
  obtain _ | n := n
  · omega
  rw [grouped, Parse.arguments]
  cases args with
  | nil => exact .peekKind (.ite_pos rfl (.advance .pure))
  | cons x xs =>
    obtain ⟨m, r', hr, hm⟩ := arguments_stop (e := e) (argumentLexemes e xs) r
    have hlen := congrArg List.length hr
    simp only [argumentLexemes, separated, List.length_append, List.length_cons, grouped,
      List.length_nil] at hn hlen
    have hxs : ∀ y ∈ xs, ReadsBack e y := fun y hy => h y (by simp [hy])
    have hh : Yields (Parse.moreArguments e n [x]) ⟨.rparen :: m :: r', errs⟩ (some (x :: xs))
        ⟨.rparen :: r, errs⟩ := by
      rw [← hr]
      exact moreArguments_reads hxs (by omega)
    rw [argumentLexemes, separated, List.cons_append, List.append_assoc, List.append_assoc,
      List.singleton_append, hr]
    refine .peekKind (.ite_neg (by simp [Lexeme.lparen]) (.advance (.bind ?_ hh)))
    exact (h x (by simp)).stops hm (by omega)

theorem InfixOp.continuation (op : InfixOp) : op.kind.continuation? e = some (.infixed op) := by
  cases op <;> rfl

theorem InfixOp.level_pos (op : InfixOp) : 0 < op.level := by
  cases op <;> decide

theorem StepOp.continuation (op : StepOp) : op.kind.continuation? e = some (.step op) := by
  cases op <;> rfl

theorem continued_operator {y : Expr} {op : InfixOp} (hy : ReadsBack e y) {n : Nat}
    (hn : 8 * ((y.lexemes e).length + r.length) + 40 ≤ n) :
    Yields (Parse.continued e n 0 x) ⟨l :: .infixOp op :: (grouped (y.lexemes e) ++ .rparen :: r),
      errs⟩ (.infixed x op y) ⟨.rparen :: .rparen :: r, errs⟩ := by
  obtain _ | n := n
  · omega
  rw [Parse.continued]
  refine .peekKind ?_
  simp only [Lexeme.infixOp, op.continuation]
  refine .ite_pos op.level_pos (.advance (.advance (.bind (hy.stops rfl (by omega)) ?_)))
  exact continued_stops rfl (by omega)

theorem continued_step {op : StepOp} {n : Nat} (hn : 2 ≤ n) :
    Yields (Parse.continued e n 0 x) ⟨l :: .step op :: .rparen :: r, errs⟩
      (.stepped x op) ⟨.step op :: .rparen :: r, errs⟩ := by
  obtain _ | n := n
  · omega
  rw [Parse.continued]
  refine .peekKind ?_
  simp only [Lexeme.step, op.continuation]
  exact .ite_pos (by simp [Continuation.level, stepLevel])
    (.advance (continued_stops rfl (by omega)))

theorem continued_call {args : List Expr} (hc : e.has .calls = true)
    (hp : args = [] ∨ e.has .parameters = true) (h : ∀ x ∈ args, ReadsBack e x) {n : Nat}
    (hn : 8 * ((separated (argumentLexemes e args)).length + r.length) + 40 ≤ n) :
    Yields (Parse.continued e n 0 x)
      ⟨l :: (grouped (separated (argumentLexemes e args)) ++ .rparen :: r), errs⟩
      (.call x args) ⟨.rparen :: .rparen :: r, errs⟩ := by
  obtain _ | n := n
  · omega
  have hstop : Yields (Parse.continued e n 0 (.call x args)) ⟨.rparen :: .rparen :: r, errs⟩
    (.call x args) ⟨.rparen :: .rparen :: r, errs⟩ := continued_stops rfl (by omega)
  have hk : Kind.continuation? e Lexeme.lparen.kind = some .call := by
    simp [Lexeme.lparen, Kind.continuation?, hc]
  rw [Parse.continued]
  refine .peekKind ?_
  rw [hk]
  refine .ite_pos (by simp [Continuation.level, callLevel]) (.advance ?_)
  by_cases hf : e.has .parameters = true
  · refine .ite_pos hf (.bind (arguments_reads h ?_) hstop)
    rw [List.length_cons]
    omega
  · obtain rfl := hp.resolve_right hf
    exact .ite_neg hf (.expect rfl hstop)

end Expressions

theorem readsBack_atom {e : Edition} {x : Expr} {l : Lexeme} (hl : x.lexemes e = [l])
    (h : ∀ ⦃n ls errs t⦄, Yields (Parse.continued e n 0 x) ⟨l :: ls, errs⟩ x t →
      Yields (Parse.expr e (n + 1) 0) ⟨l :: ls, errs⟩ x t) : ReadsBack e x := by
  intro r errs n hn
  obtain _ | n := n
  · omega
  rw [hl]
  exact ⟨l, h (continued_stops rfl (by omega))⟩

mutual

theorem Expr.readsBack {e : Edition} : ∀ x : Expr, x.isPrintable e = true → ReadsBack e x
  | .missing | .openCall _ | .ifThen .. | .ifElse .. => by simp [Expr.isPrintable]
  | .int n => fun _ => readsBack_atom (by rw [Expr.lexemes]) fun _ _ _ _ ht => by
    rw [Parse.expr]
    exact .current ht
  | .float x => fun _ => readsBack_atom (by rw [Expr.lexemes]) fun _ _ _ _ ht => by
    rw [Parse.expr]
    exact .current ht
  | .ident s => by
    intro h
    simp only [Expr.isPrintable, Bool.and_eq_true] at h
    refine readsBack_atom (by rw [Expr.lexemes]) fun _ _ _ _ ht => ?_
    rw [Parse.expr]
    exact .current (.ite_pos h.1 ht)
  | .bool true => fun _ => readsBack_atom (by rw [Expr.lexemes]) fun _ _ _ _ ht => by
    rw [Parse.expr]
    exact .current ht
  | .bool false => fun _ => readsBack_atom (by rw [Expr.lexemes]) fun _ _ _ _ ht => by
    rw [Parse.expr]
    exact .current ht
  | .str s => fun _ => readsBack_atom (by rw [Expr.lexemes]) fun _ _ _ _ ht => by
    rw [Parse.expr]
    exact .current ht
  | .infixed l op r => by
    intro h
    simp only [Expr.isPrintable, Bool.and_eq_true] at h
    intro rest errs n hn
    simp only [Expr.lexemes, grouped, List.length_append, List.length_cons, List.length_nil] at hn
    rw [Expr.lexemes, List.append_assoc, List.cons_append]
    exact ⟨_, (Expr.readsBack l h.1.2).grouped (by simp [grouped]; omega)
      (continued_operator (Expr.readsBack r h.2) (by omega))⟩
  | .prefixed op r => by
    intro h
    simp only [Expr.isPrintable, Bool.and_eq_true] at h
    intro rest errs n hn
    simp only [Expr.lexemes, grouped, List.length_append, List.length_cons, List.length_nil] at hn
    obtain _ | n := n
    · omega
    have hr : Yields (Parse.expr e n prefixLevel) ⟨grouped (r.lexemes e) ++ .rparen :: rest, errs⟩ r
      ⟨.rparen :: .rparen :: rest, errs⟩ := (Expr.readsBack r h.2).stops rfl (by omega)
    rw [Expr.lexemes, List.cons_append, Parse.expr]
    refine ⟨.rparen, .current ?_⟩
    cases op with
    | neg => exact .ite_pos h.1 (.advance (.bind hr (continued_stops rfl (by omega))))
    | not => exact .advance (.bind hr (continued_stops rfl (by omega)))
  | .stepped l op => by
    intro h
    simp only [Expr.isPrintable, Bool.and_eq_true] at h
    intro rest errs n hn
    simp only [Expr.lexemes, grouped, List.length_append, List.length_cons, List.length_nil] at hn
    rw [Expr.lexemes, List.append_assoc]
    exact ⟨_, (Expr.readsBack l h.2).grouped (by simp; omega) (continued_step (by omega))⟩
  | .call f args => by
    intro h
    simp only [Expr.isPrintable, Bool.and_eq_true, Bool.or_eq_true, List.isEmpty_iff] at h
    intro rest errs n hn
    simp only [Expr.lexemes, grouped, List.length_append, List.length_cons, List.length_nil] at hn
    rw [Expr.lexemes, List.append_assoc]
    exact ⟨_, (Expr.readsBack f h.1.1.2).grouped (by simp [grouped]; omega)
      (continued_call h.1.1.1 h.2 (readsBack_arguments args h.1.2) (by omega))⟩

theorem readsBack_arguments {e : Edition} : ∀ args : List Expr,
    Expr.isPrintable.arePrintable e args = true → ∀ x ∈ args, ReadsBack e x
  | [] => by simp
  | y :: ys => by
    intro h
    simp only [Expr.isPrintable.arePrintable, Bool.and_eq_true] at h
    exact List.forall_mem_cons.mpr ⟨Expr.readsBack y h.1, readsBack_arguments ys h.2⟩

end

/-- The statement is read back from its lexemes, up to the last of them. -/
structure StmtReadsBack (e : Edition) (s : Stmt) : Prop where
  head : ∃ l ls, s.lexemes e = l :: ls ∧ l.kind ≠ .eof ∧ l.kind ≠ .rbrace
  reads : ∀ (r : List Lexeme) (errs : List ParseError) (n : Nat),
    8 * ((s.lexemes e).length + r.length) + 4 ≤ n →
      ∃ l, Yields (Parse.statement e n) ⟨s.lexemes e ++ r, errs⟩ (some s) ⟨l :: r, errs⟩

/-- The statements are read back in front of anything that can be read. -/
def ListReadsBack (e : Edition) (ss : List Stmt) : Prop :=
  ∀ (inBlock : Bool) (r : List Lexeme) (errs : List ParseError) (n : Nat),
    8 * ((lexemes e ss).length + r.length) + 5 ≤ n →
      Parse.statements e n inBlock ⟨lexemes e ss ++ r, errs⟩ =
        (ss ++ (Parse.statements e n inBlock ⟨r, errs⟩).1,
          (Parse.statements e n inBlock ⟨r, errs⟩).2)

section Statements

variable {e : Edition} {x : Expr} {l m : Lexeme} {r : List Lexeme} {errs : List ParseError}
  {n : Nat}

theorem listReadsBack_cons {s : Stmt} {ss : List Stmt} (hs : StmtReadsBack e s)
    (hss : ListReadsBack e ss) : ListReadsBack e (s :: ss) := by
  intro inBlock r errs n hn
  rw [lexemes, List.length_append] at hn
  obtain _ | n := n
  · omega
  obtain ⟨k, ks, hk, heof, hbrace⟩ := hs.head
  have hpos : 0 < (s.lexemes e).length := by simp [hk]
  obtain ⟨l, hl⟩ := hs.reads (lexemes e ss ++ r) errs n (by rw [List.length_append]; omega)
  have hh := hss inBlock r errs n (by omega)
  rw [statements_fuel e inBlock ⟨r, errs⟩ (m := n) (n := n + 1) (by dsimp only; omega) (by omega)]
    at hh
  rw [lexemes, List.append_assoc]
  rw [hk, List.cons_append] at hl ⊢
  conv_lhs => rw [Parse.statements]
  exact Yields.current (.ite_neg (by simp [heof, hbrace]) (.bind hl (.advance (.bind hh .pure))))

theorem statements_rbrace (hn : 0 < n) :
    Yields (Parse.statements e n true) ⟨.rbrace :: r, errs⟩ [] ⟨.rbrace :: r, errs⟩ := by
  obtain ⟨n, rfl⟩ := Nat.exists_eq_succ_of_ne_zero hn.ne'
  rw [Parse.statements]
  exact .current (.ite_pos (by simp [Lexeme.rbrace]) .pure)

theorem ListReadsBack.block {body : List Stmt} (h : ListReadsBack e body)
    (hn : 8 * ((lexemes e body).length + r.length) + 14 ≤ n) :
    Yields (Parse.block e n) ⟨braced (lexemes e body) ++ r, errs⟩ body ⟨.rbrace :: r, errs⟩ := by
  obtain _ | n := n
  · omega
  have hb := h true (.rbrace :: r) errs n (by rw [List.length_cons]; omega)
  rw [statements_rbrace (by omega)] at hb
  rw [braced, List.cons_append, List.append_assoc, Parse.block]
  simp only [List.append_nil] at hb
  exact .advance hb

theorem letVar_reads {name type : String} (hx : ReadsBack e x)
    (hn : 8 * (((Stmt.letVar name x type).lexemes e).length + r.length) + 3 ≤ n) :
    Yields (Parse.letVar e n) ⟨(Stmt.letVar name x type).lexemes e ++ r, errs⟩
      (some (.letVar name x type)) ⟨.semicolon :: r, errs⟩ := by
  simp only [Stmt.lexemes, grouped, List.length_append, List.length_cons, List.length_nil] at hn
  obtain _ | n := n
  · omega
  have hv : Yields (Parse.expr e n 0) ⟨grouped (x.lexemes e) ++ .semicolon :: r, errs⟩ x
    ⟨.rparen :: .semicolon :: r, errs⟩ := hx.stops rfl (by omega)
  simp only [Stmt.lexemes, List.cons_append, List.append_assoc, List.nil_append, Parse.letVar]
  exact .expect rfl (.ite_neg (by simp) (.current (.expect rfl (.ite_neg (by simp) (.expect rfl
    (.ite_neg (by simp) (.current (.expect rfl (.ite_neg (by simp) (.advance (.bind hv
      (.skipToSemicolon .pure (by simp [Lexeme.rparen])))))))))))))

theorem assignment_reads {target op : Literal} (hx : ReadsBack e x) (ho : e.isAssignment op = true)
    (hm : m.kind.continuation? e = none)
    (hn : 8 * ((x.lexemes e).length + r.length) + 43 ≤ n) :
    Yields (Parse.assignment e n)
      ⟨⟨.ident, target⟩ :: ⟨assignKind op, op⟩ :: (grouped (x.lexemes e) ++ m :: r), errs⟩
      (.assign target op x) ⟨m :: r, errs⟩ := by
  obtain _ | n := n
  · omega
  have hv : Yields (Parse.expr e n 0) ⟨grouped (x.lexemes e) ++ m :: r, errs⟩ x
    ⟨.rparen :: m :: r, errs⟩ := hx.stops hm (by omega)
  have hop : (if e.has .compoundAssignment = true then op else plainAssign) = op := by
    obtain ⟨s, hs, rfl, -, hf⟩ := Edition.isAssignment_cases ho
    simp only [assignments, List.mem_cons, List.not_mem_nil, or_false] at hs
    rcases hs with rfl | rfl | rfl | rfl | rfl <;> simp_all [plainAssign]
  rw [Parse.assignment]
  refine .current (.advance (.current (.advance (.bind hv (.advance ?_)))))
  rw [hop]
  exact .pure

theorem moreParams_reads {ps acc : List Param}
    (hn : 8 * (((ps.map (Param.lexemes e)).flatMap fun ms => .comma :: ms).length + r.length) +
    9 ≤ n) : Yields (Parse.moreParams n acc)
      ⟨l :: ((ps.map (Param.lexemes e)).flatMap (fun ms => .comma :: ms) ++ .rparen :: r), errs⟩
      (some (acc ++ ps)) ⟨.rparen :: r, errs⟩ := by
  induction ps generalizing acc l n with
  | nil =>
    obtain _ | n := n
    · omega
    rw [Parse.moreParams, List.append_nil]
    exact .peekKind (.ite_neg (by simp [Lexeme.rparen]) (.expect rfl (.ite_pos rfl .pure)))
  | cons p ps ih =>
    obtain _ | n := n
    · omega
    simp only [Param.lexemes, List.map_cons, List.flatMap_cons, List.length_append,
      List.length_cons] at hn
    have hh : Yields (Parse.moreParams n (acc ++ [p]))
        ⟨.type e p.type :: ((ps.map (Param.lexemes e)).flatMap (fun ms => .comma :: ms) ++
          .rparen :: r), errs⟩ (some (acc ++ p :: ps)) ⟨.rparen :: r, errs⟩ := by
      rw [List.append_cons acc p ps]
      exact ih (n := n) (by omega)
    rw [Parse.moreParams]
    exact .peekKind (.ite_pos rfl (.advance (.advance (.current (.expect rfl (.ite_pos rfl (.advance
      (.current hh))))))))

theorem params_reads {ps : List Param}
    (hn : 8 * ((separated (ps.map (Param.lexemes e))).length + r.length) + 9 ≤ n) :
    Yields (Parse.params n) ⟨grouped (separated (ps.map (Param.lexemes e))) ++ r, errs⟩ (some ps)
      ⟨.rparen :: r, errs⟩ := by
  rw [grouped, Parse.params]
  cases ps with
  | nil => exact .peekKind (.ite_pos rfl (.advance .pure))
  | cons p ps =>
    simp only [Param.lexemes, List.map_cons, separated, List.length_append, List.length_cons] at hn
    have hh : Yields (Parse.moreParams n [p])
        ⟨.type e p.type :: ((ps.map (Param.lexemes e)).flatMap (fun ms => .comma :: ms) ++
          .rparen :: r), errs⟩ (some (p :: ps)) ⟨.rparen :: r, errs⟩ := moreParams_reads (by omega)
    simp only [List.map_cons, separated, Param.lexemes, List.cons_append, List.append_assoc,
      List.nil_append]
    exact .peekKind (.ite_neg (by simp) (.advance (.current (.expect rfl (.ite_pos rfl (.advance
      (.current hh)))))))

theorem function_reads {name : String} {ps : List Param} {type : Literal} {body : List Stmt}
    (hp : ps.isEmpty = true ∨ e.has .parameters = true) (hbody : ListReadsBack e body)
    (hn : 8 * (((Stmt.fn name (some ps) type body).lexemes e).length + r.length) + 3 ≤ n) :
    Yields (Parse.function e n) ⟨(Stmt.fn name (some ps) type body).lexemes e ++ r, errs⟩
      (some (.fn name (some ps) type body)) ⟨.rbrace :: r, errs⟩ := by
  simp only [Stmt.lexemes, Option.getD_some, grouped, braced, List.length_append, List.length_cons,
    List.length_nil] at hn
  obtain _ | n := n
  · omega
  have hb : Yields (Parse.block e n) ⟨braced (lexemes e body) ++ r, errs⟩ body
    ⟨.rbrace :: r, errs⟩ := hbody.block (by omega)
  have hps : Yields (Parse.params n) ⟨grouped (separated (ps.map (Param.lexemes e))) ++
        .arrow :: .type e type :: (braced (lexemes e body) ++ r), errs⟩ (some ps)
      ⟨.rparen :: .arrow :: .type e type :: (braced (lexemes e body) ++ r), errs⟩ :=
    params_reads (by simp [braced]; omega)
  simp only [Stmt.lexemes, Option.getD_some, List.cons_append, List.append_assoc, Parse.function]
  refine .expect rfl (.ite_neg (by simp) (.current (.expect rfl (.ite_neg (by simp) ?_))))
  by_cases hf : e.has .parameters = true
  · refine .ite_pos hf (.bind hps (.ite_neg (by simp [hf]) ?_))
    exact .expect rfl (.ite_neg (by simp) (.advance (.current (.expect rfl (.ite_neg (by simp)
      (.bind hb .pure))))))
  · obtain rfl := List.isEmpty_iff.mp (hp.resolve_right hf)
    refine .ite_neg hf (.bind .pure (.ite_pos (by simp [hf]) (.expect rfl (.ite_neg (by simp) ?_))))
    exact .expect rfl (.ite_neg (by simp) (.advance (.current (.expect rfl (.ite_neg (by simp)
      (.bind hb .pure))))))

theorem conditional_reads {body : List Stmt} (hx : ReadsBack e x) (hbody : ListReadsBack e body)
    (hm : m.kind ≠ .elseWord)
    (hn : 8 * (((Expr.ifThen x body).lexemes e).length + r.length) + 9 ≤ n) :
    Yields (Parse.conditional e n) ⟨(Expr.ifThen x body).lexemes e ++ m :: r, errs⟩ (.ifThen x body)
      ⟨.rbrace :: m :: r, errs⟩ := by
  simp only [Expr.lexemes, grouped, braced, List.length_append, List.length_cons, List.length_nil]
    at hn
  obtain _ | n := n
  · omega
  have hb : Yields (Parse.block e n) ⟨braced (lexemes e body) ++ m :: r, errs⟩ body
    ⟨.rbrace :: m :: r, errs⟩ := hbody.block (by rw [List.length_cons]; omega)
  have hc : Yields (Parse.expr e n 0) ⟨grouped (x.lexemes e) ++ (braced (lexemes e body) ++ m :: r),
      errs⟩ x ⟨.rparen :: (braced (lexemes e body) ++ m :: r), errs⟩ :=
    hx.stops rfl (by simp; omega)
  simp only [Expr.lexemes, List.cons_append, List.append_assoc, Parse.conditional]
  exact .advance (.bind hc (.expect rfl (.ite_pos rfl (.bind hb (.peekKind (.ite_neg hm .pure))))))

theorem conditional_else_reads {body alternative : List Stmt} (hx : ReadsBack e x)
    (hbody : ListReadsBack e body) (halt : ListReadsBack e alternative)
    (hn : 8 * (((Expr.ifElse x body alternative).lexemes e).length + r.length) + 1 ≤ n) :
    Yields (Parse.conditional e n) ⟨(Expr.ifElse x body alternative).lexemes e ++ r, errs⟩
      (.ifElse x body alternative) ⟨.rbrace :: r, errs⟩ := by
  simp only [Expr.lexemes, grouped, braced, List.length_append, List.length_cons, List.length_nil]
    at hn
  obtain _ | n := n
  · omega
  have ha : Yields (Parse.block e n) ⟨braced (lexemes e alternative) ++ r, errs⟩ alternative
    ⟨.rbrace :: r, errs⟩ := halt.block (by omega)
  have hb : Yields (Parse.block e n) ⟨braced (lexemes e body) ++ ⟨.elseWord, .text "else"⟩ ::
      (braced (lexemes e alternative) ++ r), errs⟩ body ⟨.rbrace :: ⟨.elseWord, .text "else"⟩ ::
      (braced (lexemes e alternative) ++ r), errs⟩ := hbody.block (by simp [braced]; omega)
  have hc : Yields (Parse.expr e n 0) ⟨grouped (x.lexemes e) ++ (braced (lexemes e body) ++
      ⟨.elseWord, .text "else"⟩ :: (braced (lexemes e alternative) ++ r)), errs⟩ x
      ⟨.rparen :: (braced (lexemes e body) ++
        ⟨.elseWord, .text "else"⟩ :: (braced (lexemes e alternative) ++ r)), errs⟩ :=
    hx.stops rfl (by simp [braced]; omega)
  simp only [Expr.lexemes, List.cons_append, List.append_assoc, Parse.conditional]
  exact .advance (.bind hc (.expect rfl (.ite_pos rfl (.bind hb (.peekKind (.ite_pos rfl (.advance
    (.expect rfl (.ite_pos rfl (.bind ha .pure))))))))))

theorem conditional_statement {y : Expr} {ls : List Lexeme} (hl : l.kind = .ifWord) (hn : 3 ≤ n)
    (h : ∀ m, n = m + 2 → Yields (Parse.conditional e m) ⟨l :: ls, errs⟩ y
      ⟨.rbrace :: .semicolon :: r, errs⟩) :
    Yields (Parse.statement e n) ⟨l :: ls, errs⟩ (some (.expr y)) ⟨.semicolon :: r, errs⟩ := by
  obtain ⟨n, rfl⟩ : ∃ m, n = m + 2 := ⟨n - 2, by omega⟩
  obtain ⟨k, literal⟩ := l
  obtain rfl : k = .ifWord := hl
  have hx : Yields (Parse.expr e (n + 1) 0) ⟨⟨.ifWord, literal⟩ :: ls, errs⟩ y
      ⟨.rbrace :: .semicolon :: r, errs⟩ := by
    rw [Parse.expr]
    exact .current (.bind (h n rfl) (continued_stops rfl (by omega)))
  rw [Parse.statement]
  exact .current (.peekAny fun _ => .ite_neg (by simp) (.bind hx (.peekKind (.ite_pos rfl
    (.advance .pure)))))

theorem step_reads {β : Type} {f : Stmt → Reader β} {b : β} {t : Reading} {step : Stmt}
    (hs : step.isStep e = true) (hn : 8 * ((stepLexemes e step).length + r.length) + 35 ≤ n)
    (h : Yields (f step) ⟨.rparen :: r, errs⟩ b t) :
    Yields (if e.has .stepping then Parse.expressionStep e n >>= f else Parse.assignment e n >>= f)
      ⟨stepLexemes e step ++ .rparen :: r, errs⟩ b t := by
  rw [Stmt.isStep.eq_def] at hs
  split at hs
  · simp only [Bool.and_eq_true, Bool.not_eq_true'] at hs
    simp only [stepLexemes, grouped, List.length_append, List.length_cons, List.length_nil] at hn
    simp only [stepLexemes, List.cons_append]
    refine .ite_neg (by simp [hs.1.1.1]) (.bind ?_ h)
    exact assignment_reads (Expr.readsBack _ hs.2) hs.1.2 rfl (by omega)
  · rename_i x
    simp only [Bool.and_eq_true] at hs
    simp only [stepLexemes, grouped, List.length_append, List.length_cons, List.length_nil] at hn
    obtain _ | n := n
    · omega
    have hv : Yields (Parse.expr e n 0) ⟨grouped (x.lexemes e) ++ .rparen :: r, errs⟩ x
      ⟨.rparen :: .rparen :: r, errs⟩ := (Expr.readsBack x hs.2).stops rfl (by omega)
    rw [stepLexemes, Parse.expressionStep]
    exact .ite_pos hs.1 (.bind (.bind hv (.advance .pure)) h)
  · simp at hs

theorem forLoop_reads {name type : String} {y : Expr} {step : Stmt} {body : List Stmt}
    (hx : ReadsBack e x) (hy : ReadsBack e y) (hs : step.isStep e = true)
    (hbody : ListReadsBack e body)
    (hn : 8 * (((Stmt.forLoop (.letVar name x type) y step body).lexemes e).length + r.length) +
      3 ≤ n) :
    Yields (Parse.forLoop e n) ⟨(Stmt.forLoop (.letVar name x type) y step body).lexemes e ++ r,
      errs⟩ (some (.forLoop (.letVar name x type) y step body)) ⟨.rbrace :: r, errs⟩ := by
  rw [Stmt.lexemes] at hn
  simp only [grouped, braced, List.length_append, List.length_cons, List.length_nil] at hn
  obtain _ | n := n
  · omega
  have hb : Yields (Parse.block e n) ⟨braced (lexemes e body) ++ r, errs⟩ body
    ⟨.rbrace :: r, errs⟩ := hbody.block (by omega)
  have hc : Yields (Parse.expr e n 0) ⟨grouped (y.lexemes e) ++ .semicolon :: (stepLexemes e step ++
        .rparen :: (braced (lexemes e body) ++ r)), errs⟩ y
      ⟨.rparen :: .semicolon :: (stepLexemes e step ++ .rparen :: (braced (lexemes e body) ++ r)),
          errs⟩ :=
    hy.stops rfl (by simp [braced]; omega)
  have hi : Yields (Parse.letVar e n)
        ⟨(Stmt.letVar name x type).lexemes e ++ (grouped (y.lexemes e) ++
        .semicolon :: (stepLexemes e step ++ .rparen :: (braced (lexemes e body) ++ r))), errs⟩
      (some (.letVar name x type)) ⟨.semicolon :: (grouped (y.lexemes e) ++
        .semicolon :: (stepLexemes e step ++ .rparen :: (braced (lexemes e body) ++ r))), errs⟩ :=
    letVar_reads hx (by simp [braced, grouped]; omega)
  rw [Stmt.lexemes, Parse.forLoop]
  simp only [Stmt.lexemes, List.cons_append, List.append_assoc, List.nil_append] at hi ⊢
  exact .expect rfl (.ite_neg (by simp) (.expect rfl (.ite_neg (by simp) (.bind hi (.advance
    (.bind hc (.expect rfl (.ite_neg (by simp) (.advance (step_reads hs (by simp [braced]; omega)
      (.expect rfl (.ite_neg (by simp) (.bind hb .pure)))))))))))))

end Statements

theorem readsBack_cases (e : Edition) : PrintableCases e (StmtReadsBack e) (ListReadsBack e) where
  expr := by
    intro x hc hx
    refine ⟨⟨_, _, Stmt.lexemes_expr hc, by simp [Lexeme.lparen], by simp [Lexeme.lparen]⟩, ?_⟩
    intro r errs n hn
    rw [Stmt.lexemes_expr hc] at hn ⊢
    simp only [grouped, List.length_append, List.length_cons, List.length_nil] at hn
    obtain _ | n := n
    · omega
    have hv : Yields (Parse.expr e n 0) ⟨grouped (x.lexemes e) ++ .semicolon :: r, errs⟩ x
      ⟨.rparen :: .semicolon :: r, errs⟩ := (Expr.readsBack x hx).stops rfl (by omega)
    rw [List.append_assoc, Parse.statement]
    exact ⟨_, .current (.peekAny fun _ => .ite_neg (by simp [Lexeme.lparen])
      (.bind hv (.peekKind (.ite_pos rfl (.advance .pure)))))⟩
  ifThen := by
    intro c body _ hc hbody
    have hl : (Stmt.expr (.ifThen c body)).lexemes e =
        (Expr.ifThen c body).lexemes e ++ [.semicolon] := by simp [Stmt.lexemes, Expr.isConditional]
    refine ⟨⟨_, _, by rw [hl, Expr.lexemes, List.cons_append], by simp, by simp⟩, ?_⟩
    intro r errs n hn
    rw [hl, List.length_append, List.length_singleton] at hn
    rw [hl, List.append_assoc, Expr.lexemes, List.cons_append]
    refine ⟨_, conditional_statement rfl (by omega) fun m hm => ?_⟩
    have hr : Yields (Parse.conditional e m) ⟨(Expr.ifThen c body).lexemes e ++ .semicolon :: r,
        errs⟩ (.ifThen c body) ⟨.rbrace :: .semicolon :: r, errs⟩ :=
      conditional_reads (Expr.readsBack c hc) hbody (by simp [Lexeme.semicolon]) (by omega)
    rwa [Expr.lexemes, List.cons_append] at hr
  ifElse := by
    intro c body alternative _ hc hbody halt
    have hl : (Stmt.expr (.ifElse c body alternative)).lexemes e =
        (Expr.ifElse c body alternative).lexemes e ++ [.semicolon] := by
      simp [Stmt.lexemes, Expr.isConditional]
    refine ⟨⟨_, _, by rw [hl, Expr.lexemes, List.cons_append], by simp, by simp⟩, ?_⟩
    intro r errs n hn
    rw [hl, List.length_append, List.length_singleton] at hn
    rw [hl, List.append_assoc, Expr.lexemes, List.cons_append]
    refine ⟨_, conditional_statement rfl (by omega) fun m hm => ?_⟩
    have hr : Yields (Parse.conditional e m)
        ⟨(Expr.ifElse c body alternative).lexemes e ++ .semicolon :: r, errs⟩
        (.ifElse c body alternative) ⟨.rbrace :: .semicolon :: r, errs⟩ :=
      conditional_else_reads (Expr.readsBack c hc) hbody halt (by rw [List.length_cons]; omega)
    rwa [Expr.lexemes, List.cons_append] at hr
  letVar := by
    intro name x type h
    have hx : x.isPrintable e = true := by
      simp only [Stmt.isPrintable, Bool.and_eq_true] at h
      exact h.1.2
    refine ⟨⟨_, _, by rw [Stmt.lexemes], by simp, by simp⟩, fun r errs n hn => ?_⟩
    obtain _ | n := n
    · omega
    have hr : Yields (Parse.letVar e n) ⟨(Stmt.letVar name x type).lexemes e ++ r, errs⟩
      (some (.letVar name x type)) ⟨.semicolon :: r, errs⟩ :=
        letVar_reads (Expr.readsBack x hx) (by omega)
    rw [Stmt.lexemes] at hr ⊢
    rw [Parse.statement]
    exact ⟨_, .current (.peekKind (.ite_neg (by simp) hr))⟩
  ret := by
    intro x _ hx
    refine ⟨⟨_, _, by rw [Stmt.lexemes], by simp, by simp⟩, fun r errs n hn => ?_⟩
    simp only [Stmt.lexemes, grouped, List.length_append, List.length_cons, List.length_nil] at hn
    obtain _ | n := n
    · omega
    have hv : Yields (Parse.expr e n 0) ⟨grouped (x.lexemes e) ++ .semicolon :: r, errs⟩ x
      ⟨.rparen :: .semicolon :: r, errs⟩ := (Expr.readsBack x hx).stops rfl (by omega)
    rw [Stmt.lexemes, List.cons_append, List.append_assoc, Parse.statement]
    exact ⟨_, .current (.peekAny fun _ => .ite_neg (by simp) (.advance (.bind hv (.expect rfl
      (.ite_pos rfl .pure)))))⟩
  fn := by
    intro name params returnType body _ _ _ hp _ hbody
    refine ⟨⟨_, _, by rw [Stmt.lexemes], by simp, by simp⟩, fun r errs n hn => ?_⟩
    obtain _ | n := n
    · omega
    have hr : Yields (Parse.function e n)
      ⟨(Stmt.fn name (some params) returnType body).lexemes e ++ r, errs⟩
      (some (.fn name (some params) returnType body)) ⟨.rbrace :: r, errs⟩ :=
      function_reads hp hbody (by omega)
    rw [Stmt.lexemes] at hr ⊢
    rw [Parse.statement]
    exact ⟨_, .current (.peekKind (.ite_neg (by simp) hr))⟩
  assign := by
    intro target op x hf _ ho hx
    refine ⟨⟨_, _, by rw [Stmt.lexemes], by simp, by simp⟩, fun r errs n hn => ?_⟩
    simp only [Stmt.lexemes, grouped, List.length_append, List.length_cons, List.length_nil] at hn
    obtain _ | n := n
    · omega
    have hk : (assignKind op).isAssignment e = true := by
      obtain ⟨s, hs, -, hk, -⟩ := Edition.isAssignment_cases ho
      simp only [assignments, List.mem_cons, List.not_mem_nil, or_false] at hs
      rw [hk]
      rcases hs with rfl | rfl | rfl | rfl | rfl <;> simp [Kind.isAssignment, hf]
    have hr : Yields (Parse.assignment e n) ⟨⟨.ident, target⟩ :: ⟨assignKind op, op⟩ ::
        (grouped (x.lexemes e) ++ .semicolon :: r), errs⟩ (.assign target op x)
            ⟨.semicolon :: r, errs⟩ :=
      assignment_reads (Expr.readsBack x hx) ho rfl (by omega)
    rw [Stmt.lexemes, List.cons_append, List.cons_append, List.append_assoc, Parse.statement]
    exact ⟨_, .current (.peekKind (.ite_pos (by simp [hk]) (.bind hr .pure)))⟩
  whileLoop := by
    intro c body _ hc hbody
    refine ⟨⟨_, _, by rw [Stmt.lexemes], by simp, by simp⟩, fun r errs n hn => ?_⟩
    simp only [Stmt.lexemes, grouped, braced, List.length_append, List.length_cons, List.length_nil]
      at hn
    obtain _ | n := n
    · omega
    have hb : Yields (Parse.block e n) ⟨braced (lexemes e body) ++ r, errs⟩ body
      ⟨.rbrace :: r, errs⟩ := hbody.block (by omega)
    have hv : Yields (Parse.expr e n 0) ⟨grouped (c.lexemes e) ++ (braced (lexemes e body) ++ r),
        errs⟩ c ⟨.rparen :: (braced (lexemes e body) ++ r), errs⟩ :=
      (Expr.readsBack c hc).stops rfl (by simp; omega)
    rw [Stmt.lexemes, List.cons_append, List.append_assoc, Parse.statement]
    exact ⟨_, .current (.peekAny fun _ => .ite_neg (by simp) (.advance (.bind hv (.expect rfl
      (.ite_pos rfl (.bind hb .pure))))))⟩
  breakLoop := by
    intro _
    refine ⟨⟨_, _, by rw [Stmt.lexemes], by simp, by simp⟩, fun r errs n hn => ?_⟩
    obtain _ | n := n
    · omega
    rw [Stmt.lexemes, Parse.statement]
    exact ⟨_, .current (.peekKind (.ite_neg (by simp) (.advance .pure)))⟩
  continueLoop := by
    intro _
    refine ⟨⟨_, _, by rw [Stmt.lexemes], by simp, by simp⟩, fun r errs n hn => ?_⟩
    obtain _ | n := n
    · omega
    rw [Stmt.lexemes, Parse.statement]
    exact ⟨_, .current (.peekKind (.ite_neg (by simp) (.advance .pure)))⟩
  forLoop := by
    intro name x type c next body _ h hc hs hbody
    have hx : x.isPrintable e = true := by
      simp only [Stmt.isPrintable, Bool.and_eq_true] at h
      exact h.1.2
    refine ⟨⟨_, _, by rw [Stmt.lexemes], by simp, by simp⟩, fun r errs n hn => ?_⟩
    obtain _ | n := n
    · omega
    have hr : Yields (Parse.forLoop e n)
        ⟨(Stmt.forLoop (.letVar name x type) c next body).lexemes e ++ r, errs⟩
        (some (.forLoop (.letVar name x type) c next body)) ⟨.rbrace :: r, errs⟩ :=
      forLoop_reads (Expr.readsBack x hx) (Expr.readsBack c hc) hs hbody (by omega)
    rw [Stmt.lexemes] at hr ⊢
    rw [Parse.statement]
    exact ⟨_, .current (.peekAny fun _ => .ite_neg (by simp) hr)⟩
  importPallet := by
    intro path _ _
    refine ⟨⟨_, _, by rw [Stmt.lexemes], by simp, by simp⟩, fun r errs n hn => ?_⟩
    obtain _ | n := n
    · omega
    rw [Stmt.lexemes, Parse.statement]
    exact ⟨_, .current (.peekKind (.ite_neg (by simp) (.expect rfl (.ite_pos rfl (.current
      (.expect rfl (.ite_pos rfl .pure)))))))⟩
  nil := fun _ _ _ _ _ => rfl
  cons := fun _ _ _ => listReadsBack_cons

theorem ofLexemes_append {e : Edition} {p : Program} (hp : arePrintable e p = true)
    (ls : List Lexeme) :
    Parsed.ofLexemes e (lexemes e p ++ ls) =
      ⟨p ++ (Parsed.ofLexemes e ls).program, (Parsed.ofLexemes e ls).errors⟩ := by
  have hh := (readsBack_cases e).stmts p hp false ls [] (8 * (lexemes e p ++ ls).length + 8)
    (by rw [List.length_append]; omega)
  rw [← statements_fuel e false ⟨ls, []⟩ (m := 8 * ls.length + 8) (by dsimp only; omega)
    (by rw [List.length_append]; omega)] at hh
  simp only [Parsed.ofLexemes, hh]

/-- Reading the canonical text of a program and any readable text behind it gives the program and
then all that the second text gives alone, errors included. -/
theorem print_append_roundtrip (e : Edition) (p : Program) (q : String)
    (hp : arePrintable e p = true) (hq : (Scan.ofSource e q).failure = none) :
    (Scan.ofSource e (Program.print e p ++ q)).failure = none ∧
      (Parsed.ofLexemes e (Scan.ofSource e (Program.print e p ++ q)).lexemes).program =
        p ++ (Parsed.ofLexemes e (Scan.ofSource e q).lexemes).program ∧
      (Parsed.ofLexemes e (Scan.ofSource e (Program.print e p ++ q)).lexemes).errors =
        (Parsed.ofLexemes e (Scan.ofSource e q).lexemes).errors := by
  obtain ⟨hok, hl⟩ := ofSource_print hp hq
  refine ⟨hok, ?_⟩
  rw [hl, ofLexemes_append hp]
  exact ⟨rfl, rfl⟩

/-- A function with a loop, a conditional in it and a fraction, in front of a broken declaration. -/
theorem print_append_roundtrip_loop :
    let p : Program := [.fn "f" (some [⟨.text "a", .text "int"⟩]) (.text "float")
      [.forLoop (.letVar "i" (.int 0) "int") (.infixed (.ident "i") .lt (.ident "a"))
        (.bare (.stepped (.ident "i") .increment))
        [.expr (.ifElse (.bool true) [.breakLoop] [.assign (.text "i") (.text "+=") (.int 2)])],
       .ret (.float ⟨4609434218613702656⟩)]]
    arePrintable .latest p = true ∧ (Scan.ofSource .latest "let 3").failure = none ∧
      (Parsed.ofLexemes .latest
        (Scan.ofSource .latest (Program.print .latest p ++ "let 3")).lexemes).program =
        p ++ (Parsed.ofLexemes .latest (Scan.ofSource .latest "let 3").lexemes).program := by
  intro p
  have hp : arePrintable .latest p = true := by decide +kernel
  have hq : (Scan.ofSource .latest "let 3").failure = none := by decide +kernel
  exact ⟨hp, hq, (print_append_roundtrip .latest p "let 3" hp hq).2.1⟩

end LimeLang
