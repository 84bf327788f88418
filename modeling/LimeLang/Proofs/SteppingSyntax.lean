import LimeLang.Proofs.ReadTrees
import LimeLang.Proofs.Tokenization

/-! The editions in which a loop steps by an expression read all but loops as the edition before
them does. They give up its headers, so a program without errors there is read alike exactly if
there is no `for` loop anywhere in it. -/

namespace LimeLang

/-- Where the first reader adds no error and its result has the property, the second reader does the
same. Then `c` holds, which says what that tells of the parts that were read before. -/
def Mirrors {α : Type} (c : Prop) (x y : Reader α) (Q : α → Prop) : Prop :=
  ∀ s : Reading, ∃ new, (x s).2.errors = s.errors ++ new ∧ (new = [] → Q (x s).1 → c ∧ y s = x s)

namespace Mirrors

variable {α β : Type} {c : Prop} {P : α → Prop} {Q : β → Prop}

theorem reports {x y : Reader α} (h : Mirrors c x y P) : Reports x fun _ => True := by
  intro s
  obtain ⟨new, herr, -⟩ := h s
  exact ⟨new, herr, fun _ => trivial⟩

theorem of_reports {x y : Reader α} (h : Reports x fun a => ¬ P a) : Mirrors c x y P := by
  intro s
  obtain ⟨new, herr, hnew⟩ := h s
  exact ⟨new, herr, fun hn hP => absurd hP (hnew hn)⟩

theorem same {x : Reader α} (h : Reports x fun _ => True) : Mirrors True x x P := by
  intro s
  obtain ⟨new, herr, -⟩ := h s
  exact ⟨new, herr, fun _ _ => ⟨trivial, rfl⟩⟩

theorem telling {c' : Prop} {x y : Reader α} (h : Mirrors c x y P) (hc : c → c') :
    Mirrors c' x y P := by
  intro s
  obtain ⟨new, herr, hnew⟩ := h s
  exact ⟨new, herr, fun hn hP => ⟨hc (hnew hn hP).1, (hnew hn hP).2⟩⟩

theorem pure {a : α} (h : P a → c) : Mirrors c (Pure.pure a) (Pure.pure a) P :=
  fun _ => ⟨[], (List.append_nil _).symm, fun _ hP => ⟨h hP, rfl⟩⟩

theorem bind {x y : Reader α} {f g : α → Reader β} (h : Mirrors True x y P)
    (hf : ∀ a, Mirrors (c ∧ P a) (f a) (g a) Q) : Mirrors c (x >>= f) (y >>= g) Q := by
  intro s
  obtain ⟨first, hfirst, hx⟩ := h s
  obtain ⟨second, hsecond, hnext⟩ := hf (x s).1 (x s).2
  refine ⟨first ++ second, ?_, ?_⟩
  · change (f (x s).1 (x s).2).2.errors = _
    rw [hsecond, hfirst, List.append_assoc]
  · intro hn hQ
    obtain ⟨hn₁, hn₂⟩ := List.append_eq_nil_iff.mp hn
    obtain ⟨⟨hc, hP⟩, hg⟩ := hnext hn₂ hQ
    refine ⟨hc, ?_⟩
    change g (y s).1 (y s).2 = f (x s).1 (x s).2
    rw [(hx hn₁ hP).2, hg]

theorem report {x y : Reader β} (e : ParseError) (h : Reports x fun _ => True) :
    Mirrors c (Reader.report e >>= fun _ => x) y Q :=
  .of_reports (.report e h)

theorem current {f g : Lexeme → Reader β} (h : ∀ l, Mirrors c (f l) (g l) Q) :
    Mirrors c (Reader.current >>= f) (Reader.current >>= g) Q := fun s => h s.current s

theorem peekKind {f g : Kind → Reader β} (h : ∀ k, Mirrors c (f k) (g k) Q) :
    Mirrors c (Reader.peekKind >>= f) (Reader.peekKind >>= g) Q := fun s => h s.peek.kind s

theorem advance {x y : Reader β} (h : Mirrors c x y Q) :
    Mirrors c (Reader.advance >>= fun _ => x) (Reader.advance >>= fun _ => y) Q :=
    fun s => h s.advance

theorem skipToSemicolon {x y : Reader β} (h : Mirrors c x y Q) :
    Mirrors c (Reader.skipToSemicolon >>= fun _ => x) (Reader.skipToSemicolon >>= fun _ => y) Q :=
  fun s => h { s with rest := s.rest.dropWhile fun l => l.kind ≠ .semicolon }

theorem expect {k : Kind} {f g : Bool → Reader β} (ht : Mirrors c (f true) (g true) Q)
    (hf : Reports (f false) fun _ => True) :
      Mirrors c (Reader.expect k >>= f) (Reader.expect k >>= g) Q := by
  intro s
  by_cases hk : s.peek.kind = k
  · rw [Reader.expect_bind hk, Reader.expect_bind hk]
    exact ht s.advance
  · rw [Reader.expect_bind_of_ne hk f]
    exact report _ hf s

theorem ite {p : Prop} [Decidable p] {x x' y y' : Reader α} (ht : p → Mirrors c x x' P)
    (hf : ¬ p → Mirrors c y y' P) : Mirrors c (if p then x else y) (if p then x' else y') P := by
  split
  · exact ht ‹p›
  · exact hf ‹¬ p›

end Mirrors

/-- With fuel `n`, the two editions read alike what has no loops. -/
structure ReadsAlike (d e : Edition) (n : Nat) : Prop where
  expr (level : Nat) : Mirrors True (Parse.expr d n level) (Parse.expr e n level) (·.headers = [])
  continued (level : Nat) (left : Expr) :
    Mirrors (left.headers = []) (Parse.continued d n level left)
    (Parse.continued e n level left) (·.headers = [])
  arguments : Mirrors True (Parse.arguments d n) (Parse.arguments e n) fun xs =>
    ∀ ys ∈ xs, ∀ y ∈ ys, y.headers = []
  moreArguments (acc : List Expr) : Mirrors (∀ y ∈ acc, y.headers = [])
    (Parse.moreArguments d n acc)
    (Parse.moreArguments e n acc) fun xs => ∀ ys ∈ xs, ∀ y ∈ ys, y.headers = []
  conditional : Mirrors True (Parse.conditional d n) (Parse.conditional e n) (·.headers = [])
  block : Mirrors True (Parse.block d n) (Parse.block e n) fun ss => ∀ s ∈ ss, s.headers = []
  statements (inBlock : Bool) : Mirrors True (Parse.statements d n inBlock)
    (Parse.statements e n inBlock) fun ss => ∀ s ∈ ss, s.headers = []
  statement : Mirrors True (Parse.statement d n) (Parse.statement e n) fun s =>
    ∀ st ∈ s, st.headers = []
  assignment : Mirrors True (Parse.assignment d n) (Parse.assignment e n) (·.headers = [])
  letVar : Mirrors True (Parse.letVar d n) (Parse.letVar e n) fun s => ∀ st ∈ s, st.headers = []
  function : Mirrors True (Parse.function d n) (Parse.function e n) fun s =>
    ∀ st ∈ s, st.headers = []
  forLoop : Mirrors True (Parse.forLoop d n) (Parse.forLoop e n) fun s => ∀ st ∈ s, st.headers = []

namespace ReadsAlike

variable {d e : Edition} {n : Nat}

theorem of_zero : ReadsAlike d e 0 where
  expr _ := .report _ (.pure trivial)
  continued _ _ := .report _ (.pure trivial)
  arguments := .report _ (.pure trivial)
  moreArguments _ := .report _ (.pure trivial)
  conditional := .report _ (.pure trivial)
  block := .report _ (.pure trivial)
  statements _ := .report _ (.pure trivial)
  statement := .report _ (.pure trivial)
  assignment := .report _ (.pure trivial)
  letVar := .report _ (.pure trivial)
  function := .report _ (.pure trivial)
  forLoop := .report _ (.pure trivial)

variable (h : ReadsAlike d e n)

include h

theorem block_succ : Mirrors True (Parse.block d (n + 1)) (Parse.block e (n + 1)) fun ss =>
    ∀ s ∈ ss, s.headers = [] := by
  rw [Parse.block, Parse.block]
  exact .advance (h.statements _)

theorem statements_succ (inBlock : Bool) : Mirrors True (Parse.statements d (n + 1) inBlock)
    (Parse.statements e (n + 1) inBlock) fun ss => ∀ s ∈ ss, s.headers = [] := by
  rw [Parse.statements, Parse.statements]
  refine .current fun l => .ite (fun _ => .pure fun _ => trivial) fun _ =>
    .bind h.statement fun s => .advance ?_
  refine .bind (h.statements _) fun ss => .pure fun hss => ?_
  obtain ⟨hs, hss⟩ := List.forall_mem_append.mp hss
  exact ⟨⟨trivial, by simpa using hs⟩, hss⟩

theorem arguments_succ : Mirrors True (Parse.arguments d (n + 1)) (Parse.arguments e (n + 1))
    fun xs =>
    ∀ ys ∈ xs, ∀ y ∈ ys, y.headers = [] := by
  rw [Parse.arguments, Parse.arguments]
  refine .peekKind fun k => .ite (fun _ => .advance (.pure fun _ => trivial)) fun _ => ?_
  refine .advance (.bind (h.expr _) fun x => ?_)
  exact (h.moreArguments _).telling (by simp)

theorem moreArguments_succ (acc : List Expr) : Mirrors (∀ y ∈ acc, y.headers = [])
    (Parse.moreArguments d (n + 1) acc) (Parse.moreArguments e (n + 1) acc) fun xs =>
      ∀ ys ∈ xs, ∀ y ∈ ys, y.headers = [] := by
  rw [Parse.moreArguments, Parse.moreArguments]
  refine .peekKind fun k => .ite (fun _ => ?_) fun _ => .expect ?_ (.pure trivial)
  · refine .advance (.advance (.bind (h.expr _) fun x => (h.moreArguments _).telling fun hacc =>
      ?_))
    obtain ⟨hacc, hx⟩ := List.forall_mem_append.mp hacc
    exact ⟨hacc, by simpa using hx⟩
  · exact .pure fun hacc => hacc acc rfl

theorem conditional_succ : Mirrors True (Parse.conditional d (n + 1)) (Parse.conditional e (n + 1))
    (·.headers = []) := by
  rw [Parse.conditional, Parse.conditional]
  refine .advance (.bind (h.expr _) fun x => .expect ?_ (.pure trivial))
  refine .bind h.block fun body => .peekKind fun k => .ite (fun _ => ?_) fun _ => ?_
  · refine .advance (.expect ?_ (.pure trivial))
    exact .bind h.block fun alternative => .pure (by simp [Expr.headers, and_assoc])
  · exact .pure (by simp [Expr.headers])

theorem letVar_succ : Mirrors True (Parse.letVar d (n + 1)) (Parse.letVar e (n + 1)) fun s =>
    ∀ st ∈ s, st.headers = [] := by
  rw [Parse.letVar, Parse.letVar]
  refine .expect (.current fun name => .expect (.expect (.current fun type => ?_)
    (.pure trivial)) (.pure trivial)) (.pure trivial)
  refine .expect (.advance (.bind (h.expr _) fun x => .skipToSemicolon ?_)) (.pure trivial)
  exact .pure (by simp [Stmt.headers])

theorem forLoop_succ (hd : d.has .stepping = false) : Mirrors True (Parse.forLoop d (n + 1))
    (Parse.forLoop e (n + 1)) fun s => ∀ st ∈ s, st.headers = [] := by
  refine .of_reports ?_
  rw [Parse.forLoop, hd]
  refine .expect (.expect ?_ (.pure trivial)) (.pure trivial)
  refine .ite (fun hh => absurd hh (by simp)) fun _ => .bind h.letVar.reports fun init =>
    .advance ?_
  refine .bind (h.expr _).reports fun x => .expect ?_ (.pure trivial)
  refine .ite (fun hh => absurd hh (by simp)) fun _ => .advance ?_
  refine .bind h.assignment.reports fun step => .expect ?_ (.pure trivial)
  exact .bind h.block.reports fun body => .pure (by simp [Stmt.headers])

section Features

variable (hd : d.has .compoundAssignment = true) (he : e.has .compoundAssignment = true)

omit h

include hd he

theorem has_eq {f : Feature} (hf : f.since ≤ Feature.compoundAssignment.since) :
    d.has f = e.has f :=
  (Edition.has_of_since_le hf hd).trans (Edition.has_of_since_le hf he).symm

theorem continuation?_eq (k : Kind) : k.continuation? d = k.continuation? e := by
  cases k <;> simp only [Kind.continuation?, has_eq hd he (f := .calls) (by decide)]

theorem isAssignment_eq (k : Kind) : k.isAssignment d = k.isAssignment e := by
  cases k <;> simp only [Kind.isAssignment, has_eq hd he (f := .reassignment) (by decide)]

include h

theorem continued_succ (level : Nat) (left : Expr) : Mirrors (left.headers = [])
    (Parse.continued d (n + 1) level left) (Parse.continued e (n + 1) level left)
      (·.headers = []) := by
  rw [Parse.continued, Parse.continued, has_eq hd he (f := .parameters) (by decide)]
  refine .peekKind fun k => ?_
  rw [continuation?_eq hd he]
  split
  · exact .pure id
  · refine .ite (fun _ => .advance ?_) fun _ => .pure id
    split
    · refine .advance (.bind (h.expr _) fun right => (h.continued _ _).telling ?_)
      simp [Expr.headers]
    · exact (h.continued _ _).telling (by simp [Expr.headers])
    · refine .ite (fun _ => .bind h.arguments fun args => ?_) fun _ =>
        .expect ?_ (h.continued _ _).reports
      · cases args with
        | some args => exact (h.continued _ _).telling (by simp [Expr.headers])
        | none => exact (h.continued _ _).telling (by simp [Expr.headers])
      · exact (h.continued _ _).telling (by simp [Expr.headers])

theorem expr_succ (level : Nat) : Mirrors True (Parse.expr d (n + 1) level)
    (Parse.expr e (n + 1) level) (·.headers = []) := by
  have hatom : ∀ x : Expr, Mirrors True (Parse.continued d n level x) (Parse.continued e n level x)
      (·.headers = []) := fun x => (h.continued level x).telling fun _ => trivial
  have hno : ∀ k, Mirrors True (do Reader.report (.noPrefix k); return Expr.missing)
      (do Reader.report (.noPrefix k); return Expr.missing) (·.headers = []) :=
    fun k => .report _ (.pure trivial)
  have hprefixed : ∀ op, Mirrors True
      (do Reader.advance; Parse.continued d n level (.prefixed op (← Parse.expr d n prefixLevel)))
      (do Reader.advance; Parse.continued e n level (.prefixed op (← Parse.expr e n prefixLevel)))
      (·.headers = []) :=
    fun op => .advance (.bind (h.expr _) fun right =>
      (h.continued _ _).telling (by simp [Expr.headers]))
  rw [Parse.expr, Parse.expr, has_eq hd he (f := .functions) (by decide),
    has_eq hd he (f := .compoundAssignment) (by decide)]
  refine .current fun l => ?_
  split
  · exact hatom _
  · exact hatom _
  · exact .ite (fun _ => hatom _) fun _ => hno _
  · exact hatom _
  · exact hatom _
  · exact hatom _
  · refine .advance (.bind (h.expr _) fun inner => .expect ?_ (h.continued _ _).reports)
    exact (h.continued level inner).telling fun hinner => ⟨trivial, hinner⟩
  · exact .bind h.conditional fun x => (h.continued level x).telling fun hx => ⟨trivial, hx⟩
  · exact .ite (fun _ => hprefixed _) fun _ => hno _
  · exact hprefixed _
  · exact hno _

theorem assignment_succ : Mirrors True (Parse.assignment d (n + 1)) (Parse.assignment e (n + 1))
    (·.headers = []) := by
  rw [Parse.assignment, Parse.assignment, has_eq hd he (f := .compoundAssignment) (by decide)]
  refine .current fun target => .advance
    (.current fun op => .advance (.bind (h.expr _) fun x => ?_))
  exact .advance (.pure (by simp [Stmt.headers]))

theorem function_succ : Mirrors True (Parse.function d (n + 1)) (Parse.function e (n + 1)) fun s =>
    ∀ st ∈ s, st.headers = [] := by
  have hparams : Reports (Parse.params n) fun _ => True := (params_reports n).mono fun _ _ =>
    trivial
  rw [Parse.function, Parse.function, Edition.has_of_since_le (by decide) hd,
    Edition.has_of_since_le (by decide) he]
  refine .expect (.current fun name => .expect ?_ (.pure trivial)) (.pure trivial)
  refine .bind (.same (P := fun _ => True) hparams) fun ps => ?_
  refine .expect (.advance (.current fun type => .expect ?_ (.pure trivial))) (.pure trivial)
  exact .bind h.block fun body => .pure (by simp [Stmt.headers])

theorem statement_succ : Mirrors True (Parse.statement d (n + 1)) (Parse.statement e (n + 1))
    fun s =>
    ∀ st ∈ s, st.headers = [] := by
  rw [Parse.statement, Parse.statement]
  refine .current fun l => .peekKind fun k => ?_
  rw [isAssignment_eq hd he]
  refine .ite (fun _ => ?_) fun _ => ?_
  · exact .bind h.assignment fun s => .pure (by simp)
  split
  · exact h.letVar
  · exact h.function
  · exact .advance (.bind (h.expr _) fun x =>
      .expect (.pure (by simp [Stmt.headers])) (.pure trivial))
  · refine .advance (.bind (h.expr _) fun x => .expect ?_ (.pure trivial))
    exact .bind h.block fun body => .pure (by simp [Stmt.headers])
  · exact .advance (.pure fun _ => trivial)
  · exact .advance (.pure fun _ => trivial)
  · exact h.forLoop
  · refine .expect (.current fun path => ?_) (.pure trivial)
    exact .expect (.pure fun _ => trivial) (.pure trivial)
  · refine .bind (h.expr _) fun x => .peekKind fun k => ?_
    exact .ite (fun _ => .advance (.pure (by simp [Stmt.headers]))) fun _ =>
      .pure (by simp [Stmt.headers])

end Features

omit h in
theorem all (hd : d.has .compoundAssignment = true) (hd' : d.has .stepping = false)
    (he : e.has .compoundAssignment = true) (n : Nat) : ReadsAlike d e n := by
  induction n with
  | zero => exact of_zero
  | succ n h => exact {
      expr := h.expr_succ hd he
      continued := h.continued_succ hd he
      arguments := h.arguments_succ
      moreArguments := h.moreArguments_succ
      conditional := h.conditional_succ
      block := h.block_succ
      statements := h.statements_succ
      statement := h.statement_succ hd he
      assignment := h.assignment_succ hd he
      letVar := h.letVar_succ
      function := h.function_succ hd he
      forLoop := h.forLoop_succ hd' }

end ReadsAlike

theorem Header.stepping_of_fits {d e : Edition} {h : Header} (hd : h.fits d = true)
    (he : h.fits e = true) : d.has .stepping = e.has .stepping := by
  obtain ⟨init, step⟩ := h
  cases init <;> cases step <;> simp_all [Header.fits]

theorem Parsed.alike_of_no_headers {d e : Edition} (hd : d.has .compoundAssignment = true)
    (hd' : d.has .stepping = false) (he : e.has .compoundAssignment = true) {ls : List Lexeme}
    (herr : (Parsed.ofLexemes d ls).errors = [])
      (hnone : headers (Parsed.ofLexemes d ls).program = []) :
    Parsed.ofLexemes e ls = Parsed.ofLexemes d ls := by
  obtain ⟨new, hnew, hsame⟩ := (ReadsAlike.all hd hd' he (8 * ls.length + 8)).statements false
    ⟨ls, []⟩
  have hnil : new = [] := by simpa [Parsed.ofLexemes, hnew] using herr
  have hread := (hsame hnil (headers_eq_nil.mp hnone)).2
  simp only [Parsed.ofLexemes, hread]

theorem Parsed.no_headers_of_alike {d e : Edition} (hde : d.has .stepping ≠ e.has .stepping)
    {ls : List Lexeme} (herr : (Parsed.ofLexemes d ls).errors = [])
    (hsame : Parsed.ofLexemes e ls = Parsed.ofLexemes d ls) :
    headers (Parsed.ofLexemes d ls).program = [] := by
  have hfits := Parsed.headers_fit herr
  have hfits' := Parsed.headers_fit (hsame ▸ herr : (Parsed.ofLexemes e ls).errors = [])
  rw [hsame] at hfits'
  refine List.eq_nil_iff_forall_not_mem.mpr fun h hh => ?_
  exact hde (Header.stepping_of_fits (hfits h hh) (hfits' h hh))

theorem Scan.lexemes_eq_of_tokens {s t : Scan}
    (h : s.tokens.map Token.toLexeme = t.tokens.map Token.toLexeme) : s.lexemes = t.lexemes := by
  rw [s.lexemes_eq_filter, t.lexemes_eq_filter, h]

/-- A source in which the last edition with steps that assign and a later one find the same tokens:
if it has no errors in the former, then it is read alike in the latter exactly if there is no `for`
loop in it. -/
theorem stepping_reads_alike {d e : Edition} (hd : d.number = 14) (he : e.has .stepping = true)
    (source : String)
    (hsame : (Scan.ofSource e source).tokens.map Token.toLexeme =
      (Scan.ofSource d source).tokens.map Token.toLexeme)
    (herr : (Parsed.ofLexemes d (Scan.ofSource d source).lexemes).errors = []) :
    Parsed.ofLexemes e (Scan.ofSource e source).lexemes =
        Parsed.ofLexemes d (Scan.ofSource d source).lexemes ↔
      headers (Parsed.ofLexemes d (Scan.ofSource d source).lexemes).program = [] := by
  have hassigns : d.has .compoundAssignment = true := by simp [Edition.has, Feature.since, hd]
  have hstays : d.has .stepping = false := by simp [Edition.has, Feature.since, hd]
  rw [Scan.lexemes_eq_of_tokens hsame]
  constructor
  · intro halike
    exact Parsed.no_headers_of_alike (by simp [hstays, he]) herr halike
  · intro hnone
    exact Parsed.alike_of_no_headers hassigns hstays (Edition.has_of_since_le (by decide) he) herr
      hnone

theorem stepping_reads_alike_nested :
    let d : Edition := ⟨14, by decide⟩
    let e : Edition := ⟨15, by decide⟩
    let source := "while n > 0 \x7b if n == -1 \x7b break; \x7d else \x7b n -= f(n) * 2; \x7d \x7d"
    d.number = 14 ∧ e.has .stepping = true ∧
      (Scan.ofSource e source).tokens.map Token.toLexeme =
        (Scan.ofSource d source).tokens.map Token.toLexeme ∧
      (Parsed.ofLexemes d (Scan.ofSource d source).lexemes).errors = [] ∧
      Parsed.ofLexemes e (Scan.ofSource e source).lexemes =
        Parsed.ofLexemes d (Scan.ofSource d source).lexemes := by
  intro d e source
  have hsame : (Scan.ofSource e source).tokens.map Token.toLexeme =
      (Scan.ofSource d source).tokens.map Token.toLexeme := by
    decide +kernel
  have herr : (Parsed.ofLexemes d (Scan.ofSource d source).lexemes).errors = [] := by decide +kernel
  have hnone : headers (Parsed.ofLexemes d (Scan.ofSource d source).lexemes).program = [] :=
    List.length_eq_zero_iff.mp (by decide +kernel)
  exact ⟨rfl, rfl, hsame, herr, (stepping_reads_alike rfl rfl source hsame herr).mpr hnone⟩

/-- The loop of the documentation is refused as soon as loops step by an expression. -/
theorem assigning_loop_refused :
    let source := "for (let i: int = 0; i < 10; i = i + 1) \x7b \x7d"
    (Parsed.ofLexemes ⟨14, by decide⟩ (Scan.ofSource ⟨14, by decide⟩ source).lexemes).errors = [] ∧
      ∀ e : Edition, e.has .stepping = true →
        (Scan.ofSource e source).tokens.map Token.toLexeme =
          (Scan.ofSource ⟨14, by decide⟩ source).tokens.map Token.toLexeme ∧
        (Parsed.ofLexemes e (Scan.ofSource e source).lexemes).errors ≠ [] := by
  refine ⟨by decide +kernel, fun e he => ?_⟩
  obtain rfl | rfl | rfl : e = ⟨15, by decide⟩ ∨ e = ⟨16, by decide⟩ ∨ e = ⟨17, by decide⟩ := by
    obtain ⟨n, hn⟩ := e
    have hle : 15 ≤ n := of_decide_eq_true he
    simp only [Edition.mk.injEq]
    omega
  all_goals decide +kernel

end LimeLang
