import LimeLang.Tree.Loops
import LimeLang.Tree.Parse

/-! Reading without errors builds trees in known ways. What these ways keep up holds of every
program that is read without errors. -/

namespace LimeLang

theorem Reader.expect_bind {β : Type} {k : Kind} {s : Reading} (hk : s.peek.kind = k) (f : Bool →
    Reader β) : (Reader.expect k >>= f) s = f true s.advance := by
  change f (Reader.expect k s).1 (Reader.expect k s).2 = _
  rw [Reader.expect, if_pos hk]

theorem Reader.expect_bind_of_ne {β : Type} {k : Kind} {s : Reading} (hk : s.peek.kind ≠ k)
    (f : Bool → Reader β) : (Reader.expect k >>= f) s =
      (Reader.report (.expected k s.peek.kind) >>= fun _ => f false) s := by
  change f (Reader.expect k s).1 (Reader.expect k s).2 = _
  rw [Reader.expect, if_neg hk]
  rfl

/-- The reader only adds errors, and if it adds none then its result has the property. -/
def Reports {α : Type} (x : Reader α) (P : α → Prop) : Prop :=
  ∀ s : Reading, ∃ new, (x s).2.errors = s.errors ++ new ∧ (new = [] → P (x s).1)

namespace Reports

variable {α β : Type} {P : α → Prop} {Q : β → Prop}

theorem mono {P' : α → Prop} {x : Reader α} (h : Reports x P) (hP : ∀ a, P a → P' a) :
    Reports x P' := by
  intro s
  obtain ⟨new, herr, hnew⟩ := h s
  exact ⟨new, herr, fun hn => hP _ (hnew hn)⟩

theorem pure {a : α} (h : P a) : Reports (Pure.pure a) P :=
  fun _ => ⟨[], (List.append_nil _).symm, fun _ => h⟩

theorem bind {x : Reader α} {f : α → Reader β} (h : Reports x P)
    (hf : ∀ a, Reports (f a) fun b => P a → Q b) : Reports (x >>= f) Q := by
  intro s
  obtain ⟨first, hfirst, hp⟩ := h s
  obtain ⟨second, hsecond, hq⟩ := hf (x s).1 (x s).2
  refine ⟨first ++ second, ?_, ?_⟩
  · change (f (x s).1 (x s).2).2.errors = _
    rw [hsecond, hfirst, List.append_assoc]
  · intro hn
    obtain ⟨hf, hs⟩ := List.append_eq_nil_iff.mp hn
    exact hq hs (hp hf)

theorem report {x : Reader β} (e : ParseError) (h : Reports x fun _ => True) :
    Reports (Reader.report e >>= fun _ => x) Q := by
  intro s
  obtain ⟨new, herr, -⟩ := h (s.report e)
  refine ⟨e :: new, ?_, by simp⟩
  change (x (s.report e)).2.errors = _
  rw [herr]
  simp [Reading.report]

theorem current {f : Lexeme → Reader β} (h : ∀ l, Reports (f l) Q) :
    Reports (Reader.current >>= f) Q := fun s => h s.current s

theorem peekKind {f : Kind → Reader β} (h : ∀ k, Reports (f k) Q) :
    Reports (Reader.peekKind >>= f) Q := fun s => h s.peek.kind s

theorem advance {x : Reader β} (h : Reports x Q) : Reports (Reader.advance >>= fun _ => x) Q :=
  fun s => h s.advance

theorem skipToSemicolon {x : Reader β} (h : Reports x Q) :
    Reports (Reader.skipToSemicolon >>= fun _ => x) Q :=
  fun s => h { s with rest := s.rest.dropWhile fun l => l.kind ≠ .semicolon }

theorem expect {k : Kind} {f : Bool → Reader β} (ht : Reports (f true) Q)
    (hf : Reports (f false) fun _ => True) : Reports (Reader.expect k >>= f) Q := by
  intro s
  by_cases hk : s.peek.kind = k
  · rw [Reader.expect_bind hk]
    exact ht s.advance
  · rw [Reader.expect_bind_of_ne hk]
    exact report _ hf s

theorem ite {c : Prop} [Decidable c] {x y : Reader α} (ht : c → Reports x P)
    (hf : ¬ c → Reports y P) : Reports (if c then x else y) P := by
  split
  · exact ht ‹c›
  · exact hf ‹¬ c›

end Reports

/-- Properties of expressions and statements that hold of what an edition reads as soon as they hold
of its parts. -/
structure Inherited (e : Edition) (X : Expr → Prop) (S : Stmt → Prop) : Prop where
  int (n : Nat) : X (.int n)
  float (x : Number.Double) : X (.float x)
  ident (s : String) : X (.ident s)
  bool (b : Bool) : X (.bool b)
  str (s : String) : X (.str s)
  infixed {l r : Expr} (op : InfixOp) (hl : X l) (hr : X r) : X (.infixed l op r)
  prefixed {x : Expr} (op : PrefixOp) (hx : X x) : X (.prefixed op x)
  stepped {x : Expr} (op : StepOp) (hx : X x) : X (.stepped x op)
  call {f : Expr} {xs : List Expr} (hf : X f) (hxs : ∀ x ∈ xs, X x) : X (.call f xs)
  ifThen {c : Expr} {body : List Stmt} (hc : X c) (hbody : ∀ s ∈ body, S s) : X (.ifThen c body)
  ifElse {c : Expr} {body alternative : List Stmt} (hc : X c) (hbody : ∀ s ∈ body, S s)
    (halternative : ∀ s ∈ alternative, S s) : X (.ifElse c body alternative)
  expr {x : Expr} (hx : X x) : S (.expr x)
  bare {x : Expr} (hx : X x) : S (.bare x)
  ret {x : Expr} (hx : X x) : S (.ret x)
  letVar {x : Expr} (name type : String) (hx : X x) : S (.letVar name x type)
  assign {x : Expr} {op : Literal} (target : Literal)
    (hop : e.has .compoundAssignment = true ∨ op = plainAssign) (hx : X x) : S (.assign target op x)
  fn {body : List Stmt} (name : String) (ps : List Param) (type : Literal)
    (hbody : ∀ s ∈ body, S s) : S (.fn name (some ps) type body)
  whileLoop {c : Expr} {body : List Stmt} (hc : X c) (hbody : ∀ s ∈ body, S s) :
    S (.whileLoop c body)
  forLoop {init step : Stmt} {c : Expr} {body : List Stmt}
    (hheader : Header.fits e ⟨init, step⟩ = true)
    (hinit : S init) (hc : X c) (hstep : S step) (hbody : ∀ s ∈ body, S s) :
      S (.forLoop init c step body)
  breakLoop : S .breakLoop
  continueLoop : S .continueLoop
  importPallet (path : String) : S (.importPallet path)

/-- With fuel `n`, the properties hold of what is read, or an error is recorded. Where a reader goes
on from something that was read before, they are taken to hold of that. -/
structure Hands (e : Edition) (X : Expr → Prop) (S : Stmt → Prop) (n : Nat) : Prop where
  expr (level : Nat) : Reports (Parse.expr e n level) X
  continued (level : Nat) (left : Expr) : Reports (Parse.continued e n level left) fun x =>
    X left → X x
  arguments : Reports (Parse.arguments e n) fun xs => ∃ ys ∈ xs, ∀ y ∈ ys, X y
  moreArguments (acc : List Expr) : Reports (Parse.moreArguments e n acc) fun xs =>
    (∀ y ∈ acc, X y) → ∃ ys ∈ xs, ∀ y ∈ ys, X y
  conditional : Reports (Parse.conditional e n) X
  block : Reports (Parse.block e n) fun ss => ∀ s ∈ ss, S s
  statements (inBlock : Bool) : Reports (Parse.statements e n inBlock) fun ss => ∀ s ∈ ss, S s
  statement : Reports (Parse.statement e n) fun s => ∃ st ∈ s, S st
  assignment : Reports (Parse.assignment e n) fun s => S s ∧ ∃ target op x, s = .assign target op x
  letVar : Reports (Parse.letVar e n) fun s => ∃ st ∈ s, S st ∧
    ∃ name x type, st = .letVar name x type
  function : Reports (Parse.function e n) fun s => ∃ st ∈ s, S st
  expressionStep : Reports (Parse.expressionStep e n) fun s => S s ∧ ∃ x, s = .bare x
  forLoop : Reports (Parse.forLoop e n) fun s => ∃ st ∈ s, S st

theorem moreParams_reports (n : Nat) (acc : List Param) :
    Reports (Parse.moreParams n acc) fun ps => ps.isSome = true := by
  induction n generalizing acc with
  | zero => exact .report _ (.pure trivial)
  | succ n ih =>
    rw [Parse.moreParams]
    refine .peekKind fun k => .ite (fun _ => ?_) fun _ => .expect (.pure rfl) (.pure trivial)
    refine .advance (.advance (.current fun l => .expect ?_ (.pure trivial)))
    exact .advance (.current fun t => ih _)

theorem params_reports (n : Nat) : Reports (Parse.params n) fun ps => ps.isSome = true := by
  rw [Parse.params]
  refine .peekKind fun k => .ite (fun _ => .advance (.pure rfl)) fun _ => ?_
  refine .advance (.current fun name => ?_)
  exact .expect (.advance (.current fun type => moreParams_reports n _)) (.pure trivial)

/-- What is read of a function behind its parameters. -/
def Parse.signatureEnd (e : Edition) (n : Nat) (name : String) (ps : Option (List Param)) :
    Reader (Option Stmt) := do
  if !(← Reader.expect .arrow) then return none
  Reader.advance
  let returnType := (← Reader.current).literal
  if !(← Reader.expect .lbrace) then return none
  return some (.fn name ps returnType (← block e n))

namespace Inherited

variable {e : Edition} {X : Expr → Prop} {S : Stmt → Prop} {n : Nat}

theorem of_zero : Hands e X S 0 where
  expr _ := .report _ (.pure trivial)
  continued _ _ := .report _ (.pure trivial)
  arguments := .report _ (.pure trivial)
  moreArguments _ := .report _ (.pure trivial)
  conditional := .report _ (.pure trivial)
  block := .report _ (.pure trivial)
  statements _ := .report _ (.pure trivial)
  statement := .report _ (.pure trivial)
  assignment := .report _ (.pure trivial)
  letVar := .report _ (.pure trivial)
  function := .report _ (.pure trivial)
  expressionStep := .report _ (.pure trivial)
  forLoop := .report _ (.pure trivial)

variable (hi : Inherited e X S) (h : Hands e X S n)

include h in
theorem block_succ : Reports (Parse.block e (n + 1)) fun ss => ∀ s ∈ ss, S s := by
  rw [Parse.block]
  exact .advance (h.statements _)

include h in
theorem statements_succ (inBlock : Bool) :
    Reports (Parse.statements e (n + 1) inBlock) fun ss => ∀ s ∈ ss, S s := by
  rw [Parse.statements]
  refine .current fun l => .ite (fun _ => .pure (by simp)) fun _ => .bind h.statement fun s =>
    .advance ?_
  refine .bind (h.statements _) fun ss => .pure ?_
  rintro hss ⟨st, rfl, hst⟩
  exact List.forall_mem_cons.mpr ⟨hst, hss⟩

include h in
theorem arguments_succ : Reports (Parse.arguments e (n + 1)) fun xs =>
    ∃ ys ∈ xs, ∀ y ∈ ys, X y := by
  rw [Parse.arguments]
  refine .peekKind fun k => .ite (fun _ => .advance (.pure ⟨[], rfl, by simp⟩)) fun _ => ?_
  refine .advance (.bind (h.expr _) fun x => ?_)
  exact (h.moreArguments _).mono fun xs hxs hx => hxs (by simpa using hx)

include h in
theorem moreArguments_succ (acc : List Expr) : Reports (Parse.moreArguments e (n + 1) acc) fun xs =>
    (∀ y ∈ acc, X y) → ∃ ys ∈ xs, ∀ y ∈ ys, X y := by
  rw [Parse.moreArguments]
  refine .peekKind fun k => .ite (fun _ => ?_) fun _ => .expect ?_ (.pure trivial)
  · refine .advance (.advance (.bind (h.expr _) fun x => (h.moreArguments _).mono ?_))
    intro xs hxs hx hacc
    exact hxs (List.forall_mem_append.mpr ⟨hacc, by simpa using hx⟩)
  · exact .pure fun hacc => ⟨acc, rfl, hacc⟩

include hi h

theorem continued_succ (level : Nat) (left : Expr) :
    Reports (Parse.continued e (n + 1) level left) fun x => X left → X x := by
  rw [Parse.continued]
  refine .peekKind fun k => ?_
  split
  · exact .pure id
  · rename_i c hc
    refine .ite (fun _ => .advance ?_) fun _ => .pure id
    split
    · refine .advance (.bind (h.expr _) fun right => (h.continued _ _).mono fun x hx => ?_)
      exact fun hr hl => hx (hi.infixed _ hl hr)
    · exact (h.continued _ _).mono fun x hx hl => hx (hi.stepped _ hl)
    · refine .ite (fun _ => .bind h.arguments fun args => ?_) fun _ => .expect ?_ ?_
      · split
        · refine (h.continued _ _).mono fun x hx hargs hl => hx ?_
          obtain ⟨ys, hys, hX⟩ := hargs
          obtain rfl := Option.some.inj hys
          exact hi.call hl hX
        · exact (h.continued _ _).mono fun x _ hargs => by simp at hargs
      · exact (h.continued _ _).mono fun x hx hl => hx (hi.call hl (by simp))
      · exact (h.continued _ _).mono fun _ _ => trivial

theorem expr_succ (level : Nat) : Reports (Parse.expr e (n + 1) level) X := by
  have hatom : ∀ x : Expr, X x → Reports (Parse.continued e n level x) X :=
    fun x hx => (h.continued level x).mono fun y hy => hy hx
  have hno : ∀ k, Reports (do Reader.report (.noPrefix k); return Expr.missing) X :=
    fun k => .report _ (.pure trivial)
  have hprefixed : ∀ op, Reports (do
      Reader.advance
      Parse.continued e n level (.prefixed op (← Parse.expr e n prefixLevel))) X :=
    fun op => .advance (.bind (h.expr _) fun right => (h.continued _ _).mono fun y hy hr =>
      hy (hi.prefixed _ hr))
  rw [Parse.expr]
  refine .current fun l => ?_
  split
  · exact hatom _ (hi.int _)
  · exact hatom _ (hi.float _)
  · exact .ite (fun _ => hatom _ (hi.ident _)) fun _ => hno _
  · exact hatom _ (hi.bool _)
  · exact hatom _ (hi.bool _)
  · exact hatom _ (hi.str _)
  · refine .advance (.bind (h.expr _) fun inner => .expect (h.continued level inner) ?_)
    exact (h.continued _ _).mono fun _ _ => trivial
  · exact .bind h.conditional fun x => h.continued level x
  · exact .ite (fun _ => hprefixed _) fun _ => hno _
  · exact hprefixed _
  · exact hno _

theorem conditional_succ : Reports (Parse.conditional e (n + 1)) X := by
  rw [Parse.conditional]
  refine .advance (.bind (h.expr _) fun c => .expect ?_ (.pure trivial))
  refine .bind h.block fun body => .peekKind fun k => .ite (fun _ => ?_) fun _ => ?_
  · refine .advance (.expect ?_ (.pure trivial))
    exact .bind h.block fun alternative => .pure fun ha hb hc => hi.ifElse hc hb ha
  · exact .pure fun hb hc => hi.ifThen hc hb

theorem assignment_succ : Reports (Parse.assignment e (n + 1)) fun s =>
    S s ∧ ∃ target op x, s = .assign target op x := by
  rw [Parse.assignment]
  refine .current fun target => .advance
    (.current fun op => .advance (.bind (h.expr _) fun x => ?_))
  have hop : e.has .compoundAssignment = true ∨
      (if e.has .compoundAssignment then op.literal else plainAssign) = plainAssign := by
    split
    · exact .inl ‹_›
    · exact .inr rfl
  exact .advance (.pure fun hx => ⟨hi.assign _ hop hx, _, _, _, rfl⟩)

theorem letVar_succ : Reports (Parse.letVar e (n + 1)) fun s =>
    ∃ st ∈ s, S st ∧ ∃ name x type, st = .letVar name x type := by
  rw [Parse.letVar]
  refine .expect (.current fun name => .expect (.expect (.current fun type => ?_)
    (.pure trivial)) (.pure trivial)) (.pure trivial)
  refine .expect (.advance (.bind (h.expr _) fun x => .skipToSemicolon ?_)) (.pure trivial)
  exact .pure fun hx => ⟨_, rfl, hi.letVar _ _ hx, _, _, _, rfl⟩

theorem signatureEnd (name : String) (ps : Option (List Param)) :
    Reports (Parse.signatureEnd e n name ps) fun s => ps.isSome = true → ∃ st ∈ s, S st := by
  rw [Parse.signatureEnd]
  refine .expect (.advance (.current fun t => .expect ?_ (.pure trivial))) (.pure trivial)
  refine .bind h.block fun body => .pure fun hb hps => ?_
  obtain ⟨qs, rfl⟩ := Option.isSome_iff_exists.mp hps
  exact ⟨_, rfl, hi.fn _ _ _ hb⟩

theorem function_succ : Reports (Parse.function e (n + 1)) fun s => ∃ st ∈ s, S st := by
  rw [Parse.function]
  refine .expect (.current fun name => .expect ?_ (.pure trivial)) (.pure trivial)
  refine .ite (fun hh => absurd hh (by simp)) fun _ => .ite (fun _ => ?_) fun _ => ?_
  · refine .bind (params_reports n) fun ps => .ite (fun _ => ?_) fun _ => hi.signatureEnd h _ _
    exact .expect (hi.signatureEnd h _ _) (.pure trivial)
  · refine .bind (.pure (P := fun ps => ps.isSome = true) rfl) fun ps => ?_
    refine .ite (fun _ => ?_) fun _ => hi.signatureEnd h _ _
    exact .expect (hi.signatureEnd h _ _) (.pure trivial)

theorem expressionStep_succ : Reports (Parse.expressionStep e (n + 1)) fun s =>
    S s ∧ ∃ x, s = .bare x := by
  rw [Parse.expressionStep]
  exact .bind (h.expr _) fun x => .advance (.pure fun hx => ⟨hi.bare hx, x, rfl⟩)

theorem forLoop_succ : Reports (Parse.forLoop e (n + 1)) fun s => ∃ st ∈ s, S st := by
  have hbody : ∀ (init : Option Stmt) (c : Expr) (step : Stmt), Reports (do
      if !(← Reader.expect .lbrace) then return none
      return some (Stmt.forLoop (init.getD .missing) c step (← Parse.block e n)))
      fun s => Header.fits e ⟨init.getD .missing, step⟩ = true ∧ S step → X c →
        (∃ st ∈ init, S st) → ∃ st ∈ s, S st := by
    intro init c step
    refine .expect (.bind h.block fun body => .pure ?_) (.pure trivial)
    rintro hb ⟨hfits, hstep⟩ hc ⟨st, rfl, hst⟩
    exact ⟨_, rfl, hi.forLoop hfits hst hc hstep hb⟩
  rw [Parse.forLoop]
  refine .expect (.expect ?_ (.pure trivial)) (.pure trivial)
  refine .ite (fun hh => absurd hh (by simp)) fun _ => .bind h.letVar fun init => .advance ?_
  refine .bind (h.expr _) fun c => .expect ?_ (.pure trivial)
  refine .ite (fun hh => absurd hh (by simp)) fun _ => .advance (.ite (fun he => ?_) fun he => ?_)
  · refine .bind h.expressionStep fun step => (hbody init c step).mono ?_
    rintro s hs ⟨hstep, x, rfl⟩ hc ⟨st, rfl, hst, name, y, type, rfl⟩
    exact hs ⟨by simpa [Header.fits] using he, hstep⟩ hc ⟨_, rfl, hst⟩
  · refine .bind h.assignment fun step => (hbody init c step).mono ?_
    rintro s hs ⟨hstep, target, op, x, rfl⟩ hc ⟨st, rfl, hst, name, y, type, rfl⟩
    exact hs ⟨by simpa [Header.fits] using he, hstep⟩ hc ⟨_, rfl, hst⟩

theorem statement_succ : Reports (Parse.statement e (n + 1)) fun s => ∃ st ∈ s, S st := by
  rw [Parse.statement]
  refine .current fun l => .peekKind fun k => .ite (fun _ => ?_) fun _ => ?_
  · exact .bind h.assignment fun s => .pure fun hs => ⟨s, rfl, hs.1⟩
  split
  · exact h.letVar.mono fun s hs => by obtain ⟨st, hst, hS, -⟩ := hs; exact ⟨st, hst, hS⟩
  · exact h.function
  · refine .advance (.bind (h.expr _) fun x => .expect (.pure fun hx => ?_) (.pure trivial))
    exact ⟨_, rfl, hi.ret hx⟩
  · refine .advance (.bind (h.expr _) fun c => .expect ?_ (.pure trivial))
    exact .bind h.block fun body => .pure fun hb hc => ⟨_, rfl, hi.whileLoop hc hb⟩
  · exact .advance (.pure ⟨_, rfl, hi.breakLoop⟩)
  · exact .advance (.pure ⟨_, rfl, hi.continueLoop⟩)
  · exact h.forLoop
  · refine .expect (.current fun path => ?_) (.pure trivial)
    exact .expect (.pure ⟨_, rfl, hi.importPallet _⟩) (.pure trivial)
  · refine .bind (h.expr _) fun x => .peekKind fun k => ?_
    exact .ite (fun _ => .advance (.pure fun hx => ⟨_, rfl, hi.expr hx⟩)) fun _ =>
      .pure fun hx => ⟨_, rfl, hi.expr hx⟩

omit h in
theorem hands (n : Nat) : Hands e X S n := by
  induction n with
  | zero => exact of_zero
  | succ n h => exact {
      expr := hi.expr_succ h
      continued := hi.continued_succ h
      arguments := arguments_succ h
      moreArguments := moreArguments_succ h
      conditional := hi.conditional_succ h
      block := block_succ h
      statements := statements_succ h
      statement := hi.statement_succ h
      assignment := hi.assignment_succ h
      letVar := hi.letVar_succ h
      function := hi.function_succ h
      expressionStep := hi.expressionStep_succ h
      forLoop := hi.forLoop_succ h }

omit h in
theorem program {ls : List Lexeme} (herr : (Parsed.ofLexemes e ls).errors = []) :
    ∀ s ∈ (Parsed.ofLexemes e ls).program, S s := by
  obtain ⟨new, hnew, hS⟩ := (hi.hands (8 * ls.length + 8)).statements false ⟨ls, []⟩
  have hnil : new = [] := by simpa [Parsed.ofLexemes, hnew] using herr
  exact hS hnil

end Inherited

/-- An edition reads the headers of loops in its own form. -/
theorem Parsed.headers_fit {e : Edition} {ls : List Lexeme}
    (herr : (Parsed.ofLexemes e ls).errors = []) :
    ∀ h ∈ headers (Parsed.ofLexemes e ls).program, h.fits e = true := by
  have hi : Inherited e (fun x => ∀ h ∈ x.headers, h.fits e = true)
      (fun s => ∀ h ∈ s.headers, h.fits e = true) := by
    constructor
    all_goals simp +contextual only [Expr.headers, Stmt.headers, List.mem_append, List.mem_cons,
      mem_argumentHeaders, mem_headers]
    all_goals grind
  intro h hh
  obtain ⟨s, hs, hmem⟩ := mem_headers.mp hh
  exact hi.program herr s hs h hmem

end LimeLang
