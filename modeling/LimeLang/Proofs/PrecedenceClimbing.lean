import LimeLang.Proofs.CompleteTrees
import LimeLang.Proofs.ExpressionGrammar
import LimeLang.Proofs.RoundTrip
import LimeLang.Proofs.Totality

/-! Precedence climbing in the editions that have only expressions: it records no error exactly on
the texts of the grammar, and then its trees are those that the levels of the operators ask for. -/

namespace LimeLang

variable {n : Nat} {l : Lexeme} {errs : List ParseError} {x : Expr} {s t : Reading}
  {rest : List Lexeme}

theorem Reading.report_errors_ne (s : Reading) (e : ParseError) :
    (s.report e).errors ≠ s.errors := by
  simp [Reading.report]

theorem Yields.of_bind {α β : Type} {x : Reader α} {f : α → Reader β} {P : α → Prop} {Q : α → β →
    Prop} {s u : Reading} {b : β} (hx : Reports x P) (hf : ∀ a, Reports (f a) (Q a))
    (h : Yields (x >>= f) s b u) (herr : u.errors = s.errors) :
    ∃ a t, Yields x s a t ∧ t.errors = s.errors ∧ Yields (f a) t b u ∧ u.errors = t.errors := by
  obtain ⟨first, hfirst, -⟩ := hx s
  obtain ⟨second, hsecond, -⟩ := hf (x s).1 (x s).2
  have hu : u.errors = s.errors ++ (first ++ second) := by
    have hrun : (f (x s).1 (x s).2).2 = u := congrArg Prod.snd h
    rw [← hrun, hsecond, hfirst, List.append_assoc]
  have hnil : first ++ second = [] := List.append_right_eq_self.mp (hu.symm.trans herr)
  obtain ⟨rfl, rfl⟩ := List.append_eq_nil_iff.mp hnil
  rw [List.append_nil] at hfirst
  exact ⟨(x s).1, (x s).2, rfl, hfirst, h, herr.trans hfirst.symm⟩

theorem Yields.of_expect {β : Type} {k : Kind} {f : Bool → Reader β} {Q : β → Prop} {s u : Reading}
    {b : β} (hf : Reports (f false) Q) (h : Yields (Reader.expect k >>= f) s b u)
    (herr : u.errors = s.errors) : s.peek.kind = k ∧ Yields (f true) s.advance b u := by
  by_cases hk : s.peek.kind = k
  · exact ⟨hk, (Reader.expect_bind hk f).symm.trans h⟩
  · replace h : f false (s.report (.expected k s.peek.kind)) = (b, u) :=
      (Reader.expect_bind_of_ne hk f).symm.trans h
    obtain ⟨new, hnew, -⟩ := hf (s.report (.expected k s.peek.kind))
    have hlen := congrArg List.length (herr.symm.trans ((congrArg (·.2.errors) h).symm.trans hnew))
    simp [Reading.report] at hlen

/-- No operator above `level` stands at the beginning. -/
def StopsAt (level : Nat) (ls : List Lexeme) : Prop :=
  ∀ op ms, ls = .infixOp op :: ms → op.level ≤ level

theorem StopsAt.or_operator (level : Nat) (ls : List Lexeme) :
    StopsAt level ls ∨ ∃ op ms, ls = .infixOp op :: ms ∧ level < op.level := by
  by_cases h : ∃ op ms, ls = .infixOp op :: ms ∧ level < op.level
  · exact .inr h
  · exact .inl fun op ms heq => not_lt.mp fun hlt => h ⟨op, ms, heq, hlt⟩

/-- The phrase stands at the beginning of the lexemes and goes on as far as operators bind more
strongly than `level`. -/
structure Phrase.Climbs (p : Phrase) (level : Nat) (ls rest : List Lexeme) : Prop where
  split : ls = p.lexemes ++ rest
  ordered : p.Ordered
  above : ∀ o ∈ p.operator?, level < o.level
  stops : StopsAt level rest

/-- A reader that gave `x` and went to `t` has read a phrase up to its last lexeme. -/
def ClimbsTo (level : Nat) (ls : List Lexeme) (x : Expr) (t : Reading) : Prop :=
  ∃ (p : Phrase) (l : Lexeme) (rest : List Lexeme),
    p.Climbs level ls rest ∧ x = p.expr ∧ t.rest = l :: rest

section Soundness

variable {e : Edition}

theorem Edition.not_has {f : Feature} (he : e.number ≤ 4) (hf : 4 < f.since) : e.has f = false := by
  simp only [Edition.has, decide_eq_false_iff_not]
  omega

theorem expr_begins {n level : Nat} (he : e.number ≤ 4) (hs : ∀ l ∈ s.rest, l.IsEarly)
    (h : Yields (Parse.expr e (n + 1) level) s x t) (herr : t.errors = s.errors) :
    ∃ ls, (∃ k, s.rest = ⟨.int, .int k⟩ :: ls) ∨ (∃ y, s.rest = ⟨.float, .float y⟩ :: ls) ∨
      s.rest = .lparen :: ls := by
  have hfail : ∀ k, t ≠ s.report (.noPrefix k) := by
    rintro k rfl
    exact s.report_errors_ne _ herr
  have hminus := Edition.not_has he (f := .compoundAssignment) (by decide)
  obtain ⟨rest, errs⟩ := s
  rw [Parse.expr] at h
  cases rest with
  | nil => exact absurd (congrArg Prod.snd h).symm (hfail .eof)
  | cons l ls =>
    refine ⟨ls, ?_⟩
    cases hs l (by simp) with
    | int k => exact .inl ⟨k, rfl⟩
    | float y => exact .inr (.inl ⟨y, rfl⟩)
    | lparen => exact .inr (.inr rfl)
    | rparen => exact absurd (congrArg Prod.snd h).symm (hfail .rparen)
    | semicolon => exact absurd (congrArg Prod.snd h).symm (hfail .semicolon)
    | illegal m => exact absurd (congrArg Prod.snd h).symm (hfail .illegal)
    | @operator op hop =>
      cases op with
      | add | mul | div | rem | pow => exact absurd (congrArg Prod.snd h).symm (hfail _)
      | sub =>
        change Yields (ite (e.has .compoundAssignment = true) _ _) _ x t at h
        rw [if_neg (by simp [hminus])] at h
        exact absurd (congrArg Prod.snd h).symm (hfail .minus)
      | lt | gt | le | ge | eq | ne => simp [InfixOp.kind, Kind.isArithmetic] at hop

theorem Lexeme.IsEarly.continuation (h : l.IsEarly) (he : e.number ≤ 4) :
    (∃ op, l = .infixOp op) ∨ l.kind.continuation? e = none := by
  have hcalls := Edition.not_has he (f := .calls) (by decide)
  cases h with
  | @operator op _ => exact .inl ⟨op, rfl⟩
  | lparen => exact .inr (by simp [Lexeme.lparen, Kind.continuation?, hcalls])
  | int _ => exact .inr rfl
  | float _ => exact .inr rfl
  | rparen => exact .inr rfl
  | semicolon => exact .inr rfl
  | illegal _ => exact .inr rfl

theorem continued_of_stopsAt {n level : Nat} (he : e.number ≤ 4) (hs : ∀ m ∈ rest, m.IsEarly)
    (h : StopsAt level rest) :
    Yields (Parse.continued e (n + 1) level x) ⟨l :: rest, errs⟩ x ⟨l :: rest, errs⟩ := by
  cases rest with
  | nil =>
    rw [Parse.continued]
    rfl
  | cons m rest =>
    rcases (hs m (by simp)).continuation he with ⟨op, rfl⟩ | hnone
    · rw [Parse.continued]
      refine .peekKind ?_
      simp only [Lexeme.infixOp, op.continuation]
      exact .ite_neg (not_lt.mpr (h op rest rfl)) .pure
    · exact continued_stops hnone (by omega)

theorem Reader.bind_apply {α β : Type} (x : Reader α) (f : α → Reader β) (s : Reading) :
    (x >>= f) s = f (x s).1 (x s).2 := rfl

theorem continued_of_operator {n level : Nat} {op : InfixOp} (h : level < op.level) :
    Parse.continued e (n + 1) level x ⟨l :: .infixOp op :: rest, errs⟩ =
      (do Parse.continued e n level (.infixed x op (← Parse.expr e n op.level)) : Reader _)
        ⟨rest, errs⟩ := by
  have hpeek : Reader.peekKind ⟨l :: .infixOp op :: rest, errs⟩ =
      (op.kind, ⟨l :: .infixOp op :: rest, errs⟩) := rfl
  rw [Parse.continued, Reader.bind_apply, hpeek]
  simp only [op.continuation]
  change (ite (level < op.level) _ _ : Reader _) _ = _
  rw [if_pos h]
  rfl

theorem rest_of_rparen (hs : ∀ l ∈ rest, l.IsEarly) (h : (rest.headD .eof).kind = .rparen) :
    ∃ ls, rest = .rparen :: ls := by
  cases rest with
  | nil => simp [Lexeme.eof] at h
  | cons l ls =>
    refine ⟨ls, ?_⟩
    cases hs l (by simp) with
    | rparen => rfl
    | @operator op _ => exact absurd h op.kind_not_mark.2.1
    | int _ | float _ | lparen | semicolon | illegal _ =>
      simp [Lexeme.lparen, Lexeme.semicolon] at h

/-- With fuel `n`, reading without errors gives phrases. -/
structure ReadsPhrases (e : Edition) (n : Nat) : Prop where
  expr {level : Nat} {s t : Reading} {x : Expr} (hs : ∀ l ∈ s.rest, l.IsEarly)
    (h : Yields (Parse.expr e n level) s x t) (herr : t.errors = s.errors) :
    ClimbsTo level s.rest x t
  continued {level : Nat} {s t : Reading} {x : Expr} {q : Phrase} {l : Lexeme} {rest : List Lexeme}
    (hs : ∀ l ∈ rest, l.IsEarly) (hrest : s.rest = l :: rest) (hq : q.Ordered)
    (habove : ∀ o ∈ q.operator?, level < o.level) (hstops : ∀ o ∈ q.operator?, StopsAt o.level rest)
    (h : Yields (Parse.continued e n level q.expr) s x t) (herr : t.errors = s.errors) :
    ClimbsTo level (q.lexemes ++ rest) x t

theorem ReadsPhrases.expr_succ {n level : Nat} (ih : ReadsPhrases e n) (he : e.number ≤ 4)
    (hs : ∀ l ∈ s.rest, l.IsEarly) (h : Yields (Parse.expr e (n + 1) level) s x t)
    (herr : t.errors = s.errors) : ClimbsTo level s.rest x t := by
  obtain ⟨ls, hstart⟩ := expr_begins he hs h herr
  obtain ⟨rest, errs⟩ := s
  rw [Parse.expr] at h
  have hls : ∀ l ∈ ls, l.IsEarly := by
    rcases hstart with ⟨k, rfl⟩ | ⟨y, rfl⟩ | rfl <;> exact fun l hl => hs l (by simp [hl])
  rcases hstart with ⟨k, rfl⟩ | ⟨y, rfl⟩ | rfl
  · exact ih.continued (q := .int k) hls rfl trivial (by simp [Phrase.operator?])
      (by simp [Phrase.operator?]) h herr
  · exact ih.continued (q := .float y) hls rfl trivial (by simp [Phrase.operator?])
      (by simp [Phrase.operator?]) h herr
  · have hrun : Yields (do
        let inner ← Parse.expr e n 0
        let closed ← Reader.expect .rparen
        Parse.continued e n level (if closed then inner else .missing)) ⟨ls, errs⟩ x t := h
    have hcontinued : ∀ y, Reports (Parse.continued e n level y) fun _ => True :=
      fun y => ((candid e n).continued level y).mono fun _ _ => trivial
    obtain ⟨y, u, hy, hyerr, hrun, herr⟩ := hrun.of_bind ((candid e n).expr 0)
      (fun inner => .expect (hcontinued _) (hcontinued _)) herr
    obtain ⟨p, l, rest, hp, rfl, hu⟩ := ih.expr hls hy hyerr
    obtain ⟨hclosed, hrun⟩ := Yields.of_expect (hcontinued _) hrun herr
    have hsplit : ls = p.lexemes ++ rest := hp.split
    have hrest : ∀ l ∈ rest, l.IsEarly := fun l hl => hls l (by simp [hsplit, hl])
    rw [Reading.peek, hu] at hclosed
    obtain ⟨rest', rfl⟩ := rest_of_rparen hrest hclosed
    have hu' : u.advance.rest = .rparen :: rest' := by rw [Reading.advance, hu]; rfl
    have hclimbs := ih.continued (q := .group p) (List.forall_mem_cons.mp hrest).2 hu' hp.ordered
      (by simp [Phrase.operator?]) (by simp [Phrase.operator?]) hrun herr
    rw [hsplit]
    simpa [Phrase.lexemes, grouped] using hclimbs

theorem ReadsPhrases.continued_succ {n level : Nat} (ih : ReadsPhrases e n) (he : e.number ≤ 4)
    {q : Phrase} (hs : ∀ l ∈ rest, l.IsEarly) (hrest : s.rest = l :: rest) (hq : q.Ordered)
    (habove : ∀ o ∈ q.operator?, level < o.level)
    (hstops : ∀ o ∈ q.operator?, StopsAt o.level rest)
    (h : Yields (Parse.continued e (n + 1) level q.expr) s x t) (herr : t.errors = s.errors) :
    ClimbsTo level (q.lexemes ++ rest) x t := by
  obtain ⟨ls, errs⟩ := s
  obtain rfl : ls = l :: rest := hrest
  rcases StopsAt.or_operator level rest with hstop | ⟨op, rest, rfl, hlevel⟩
  · obtain ⟨rfl, rfl⟩ := Prod.mk.inj ((continued_of_stopsAt he hs hstop).symm.trans h)
    exact ⟨q, l, rest, ⟨rfl, hq, habove, hstop⟩, rfl, rfl⟩
  · have hrun := (continued_of_operator hlevel).symm.trans h
    obtain ⟨y, u, hy, hyerr, hrun, herr⟩ := Yields.of_bind ((candid e n).expr _)
      (fun right => (candid e n).continued _ _) hrun herr
    obtain ⟨r, l', rest', hr, rfl, hu⟩ := ih.expr (List.forall_mem_cons.mp hs).2 hy hyerr
    have hsplit : rest = r.lexemes ++ rest' := hr.split
    have hrest' : ∀ l ∈ rest', l.IsEarly := fun l hl => hs l (by simp [hsplit, hl])
    -- `q` stopped before `op`, so its own operator binds at least as strongly as `op`.
    have hordered : (Phrase.infixed q op r).Ordered :=
      ⟨hq, hr.ordered, fun o ho => hstops o ho op rest rfl, hr.above⟩
    have hclimbs := ih.continued (q := .infixed q op r) hrest' hu hordered
      (by simpa [Phrase.operator?] using hlevel) (by simpa [Phrase.operator?] using hr.stops) hrun
        herr
    rw [hsplit]
    simpa [Phrase.lexemes] using hclimbs

theorem readsPhrases (he : e.number ≤ 4) (n : Nat) : ReadsPhrases e n := by
  induction n with
  | zero =>
    have hdeep : ∀ {s t : Reading} {x : Expr},
        Yields (do Reader.report .nestedTooDeep; return .missing) s x t → t.errors ≠ s.errors := by
      intro s t x h
      rw [← (Prod.mk.inj h).2]
      exact s.report_errors_ne _
    exact ⟨fun _ h herr => absurd herr (hdeep h), fun _ _ _ _ _ h herr => absurd herr (hdeep h)⟩
  | succ n ih => exact ⟨ih.expr_succ he, ih.continued_succ he⟩

theorem Yields.of_statements {ss : List Stmt} (hs : s.current.kind ≠ .eof)
    (h : Yields (Parse.statements e (n + 1) false) s ss t) (herr : t.errors = s.errors) :
    ∃ st u rest, Yields (Parse.statement e n) s st u ∧ u.errors = s.errors ∧
      Yields (Parse.statements e n false) u.advance rest t ∧ t.errors = u.errors ∧
      ss = st.toList ++ rest := by
  have hrun : Yields (do
      let st ← Parse.statement e n
      Reader.advance
      return st.toList ++ (← Parse.statements e n false)) s ss t :=
    (statements_of_not_eof hs).symm.trans h
  have hrest : ∀ st : Option Stmt, Reports (do
      Reader.advance
      return st.toList ++ (← Parse.statements e n false)) fun _ => True :=
    fun st => .advance (.bind ((candid e n).statements false) fun _ => .pure fun _ => trivial)
  obtain ⟨st, u, hst, huerr, hrun, hterr⟩ := hrun.of_bind (candid e n).statement hrest herr
  obtain ⟨hss, ht⟩ := Prod.mk.inj hrun
  exact ⟨st, u, _, hst, huerr, Prod.ext rfl ht, hterr, hss.symm⟩

theorem statement_early {ls : List Lexeme} (hl : l.IsEarly) :
    Parse.statement e (n + 1) ⟨l :: ls, errs⟩ = (do
      let value ← Parse.expr e n 0
      if (← Reader.peekKind) = .semicolon then Reader.advance
      return some (.expr value) : Reader _) ⟨l :: ls, errs⟩ := by
  rw [Parse.statement]
  cases hl with
  | @operator op _ => cases op <;> rfl
  | int _ | float _ | lparen | rparen | semicolon | illegal _ => rfl

theorem statement_of_expr {l m : Lexeme} {ls rest : List Lexeme} {errs errs' : List ParseError}
    (hl : l.IsEarly) (h : Yields (Parse.expr e n 0) ⟨l :: ls, errs⟩ x ⟨m :: rest, errs'⟩) :
    ∃ t, Yields (Parse.statement e (n + 1)) ⟨l :: ls, errs⟩ (some (.expr x)) t ∧
      t.advance = ⟨dropSemicolon rest, errs'⟩ := by
  have hstatement : Parse.statement e (n + 1) ⟨l :: ls, errs⟩ = _ := statement_early hl
  cases rest with
  | nil => exact ⟨⟨[m], errs'⟩, hstatement.trans (h.bind rfl), rfl⟩
  | cons k rest =>
    by_cases hk : k.kind = .semicolon
    · refine ⟨⟨k :: rest, errs'⟩, hstatement.trans (h.bind (.peekKind (.ite_pos hk .pure))), ?_⟩
      rw [dropSemicolon, if_pos hk]
      rfl
    · refine ⟨⟨m :: k :: rest, errs'⟩, hstatement.trans (h.bind (.peekKind (.ite_neg hk .pure))),
        ?_⟩
      rw [dropSemicolon, if_neg hk]
      rfl

theorem Lexeme.IsEarly.isArithmetic_iff (h : l.IsEarly) :
    l.kind.isArithmetic = true ↔ ∃ op, l = .infixOp op := by
  constructor
  · intro hl
    cases h with
    | @operator op _ => exact ⟨op, rfl⟩
    | int _ | float _ | lparen | rparen | semicolon | illegal _ => cases hl
  · rintro ⟨op, hl⟩
    have hk : l.kind.continuation? .latest = some (.infixed op) := by rw [hl]; exact op.continuation
    cases h with
    | operator hop => exact hop
    | int _ | float _ | lparen | rparen | semicolon | illegal _ => cases hk

theorem Phrase.isExpression {p : Phrase} (h : ∀ l ∈ p.lexemes, l.IsEarly) :
    IsExpression p.lexemes := by
  induction p with
  | int n => exact .operand (.number (.inl rfl))
  | float x => exact .operand (.number (.inr rfl))
  | group p ih =>
    refine .operand (.group rfl (ih fun l hl => h l ?_) rfl)
    simp [lexemes, grouped, hl]
  | infixed l op r ihl ihr =>
    simp only [lexemes, List.mem_append, List.mem_cons] at h
    have hop : op.kind.isArithmetic = true :=
      (h (.infixOp op) (.inr (.inl rfl))).isArithmetic_iff.mpr ⟨op, rfl⟩
    exact (ihl fun m hm => h m (.inl hm)).append hop (ihr fun m hm => h m (.inr (.inr hm)))

theorem stopsAt_of_not_beginsWithOperator {level : Nat} {ls : List Lexeme}
    (hs : ∀ l ∈ ls, l.IsEarly) (h : ¬ BeginsWithOperator ls) : StopsAt level ls := by
  rintro op ms rfl
  exact absurd ⟨_, ms, rfl, (hs _ (by simp)).isArithmetic_iff.mpr ⟨op, rfl⟩⟩ h

theorem StopsAt.not_beginsWithOperator {ls : List Lexeme} (hs : ∀ l ∈ ls, l.IsEarly)
    (h : StopsAt 0 ls) : ¬ BeginsWithOperator ls := by
  rintro ⟨l, ms, rfl, hl⟩
  obtain ⟨op, rfl⟩ := (hs l (by simp)).isArithmetic_iff.mp hl
  exact absurd (h op ms rfl) (not_le.mpr op.level_pos)

theorem statement_phrase {ls : List Lexeme} {st : Option Stmt} {u : Reading} (he : e.number ≤ 4)
    (hs : ∀ m ∈ l :: ls, m.IsEarly) (h : Yields (Parse.statement e (n + 1)) ⟨l :: ls, errs⟩ st u)
    (herr : u.errors = errs) :
    ∃ p rest, Phrase.Climbs p 0 (l :: ls) rest ∧ st = some (.expr p.expr) ∧
      u.advance = ⟨dropSemicolon rest, errs⟩ := by
  have hl : l.IsEarly := hs l (by simp)
  have hrun := (statement_early hl).symm.trans h
  obtain ⟨x, v, hx, hverr, -, -⟩ := Yields.of_bind (Q := fun _ _ => True) ((candid e n).expr 0)
    (fun value => .peekKind fun k => .ite (fun _ => .advance (.pure trivial)) fun _ =>
      .pure trivial)
    hrun herr
  obtain ⟨p, m, rest, hp, rfl, hv⟩ := (readsPhrases he n).expr hs hx hverr
  obtain rfl : v = ⟨m :: rest, errs⟩ := by
    cases v
    simp_all
  obtain ⟨t, ht, hadvance⟩ := statement_of_expr hl hx
  obtain ⟨rfl, rfl⟩ := Prod.mk.inj (ht.symm.trans h)
  exact ⟨p, rest, hp, rfl, hadvance⟩

/-- Statements that are read without errors are the phrases of the greedy division. -/
theorem statements_phrases {ss : List Stmt} (he : e.number ≤ 4) (hs : ∀ l ∈ s.rest, l.IsEarly)
    (h : Yields (Parse.statements e n false) s ss t) (herr : t.errors = s.errors) :
    ∃ ps : List Phrase, ss = ps.map (fun p => .expr p.expr) ∧
      GreedySplit s.rest (ps.map Phrase.lexemes) ∧ ∀ p ∈ ps, p.Ordered := by
  induction n generalizing s t ss with
  | zero =>
    rw [← (Prod.mk.inj h).2] at herr
    exact absurd herr (s.report_errors_ne _)
  | succ n ih =>
    obtain ⟨rest, errs⟩ := s
    cases rest with
    | nil =>
      have hrun : Parse.statements e (n + 1) false ⟨[], errs⟩ = ([], ⟨[], errs⟩) :=
        statements_of_eof rfl
      obtain ⟨rfl, -⟩ := Prod.mk.inj (hrun.symm.trans h)
      exact ⟨[], rfl, .nil, by simp⟩
    | cons l ls =>
      have hl : l.IsEarly := hs l (by simp)
      have heof : (Reading.current ⟨l :: ls, errs⟩).kind ≠ .eof := hl.kind_ne_eof
      obtain ⟨st, u, ss, hst, huerr, hss, hterr, rfl⟩ := Yields.of_statements heof h herr
      cases n with
      | zero =>
        rw [← (Prod.mk.inj hst).2] at huerr
        exact absurd huerr (Reading.report_errors_ne _ _)
      | succ n =>
        obtain ⟨p, rest, hp, rfl, hu⟩ := statement_phrase he hs hst huerr
        have hsplit : l :: ls = p.lexemes ++ rest := hp.split
        have hearly : ∀ m ∈ p.lexemes ++ rest, m.IsEarly := hsplit ▸ hs
        obtain ⟨hphrase, hrest⟩ := List.forall_mem_append.mp hearly
        have hstop : ¬ BeginsWithOperator rest := hp.stops.not_beginsWithOperator hrest
        have hexpr : IsExpression p.lexemes := Phrase.isExpression hphrase
        rw [hu] at hss
        obtain ⟨ps, rfl, hsplits, hordered⟩ :=
          ih (fun m hm => hrest m (dropSemicolon_subset rest hm)) hss (hterr.trans huerr)
        refine ⟨p :: ps, rfl, ?_, List.forall_mem_cons.mpr ⟨hp.ordered, hordered⟩⟩
        rw [hsplit]
        exact .cons hexpr (hexpr.longest hstop) hsplits

end Soundness

section Completeness

variable {e : Edition}

/-- Operators, each with an operand behind it. -/
inductive AreFollowers : List Lexeme → Prop
  | nil : AreFollowers []
  | cons {l : Lexeme} {ls ms : List Lexeme} : l.kind.isArithmetic = true → IsOperand ls →
      AreFollowers ms → AreFollowers (l :: (ls ++ ms))

theorem IsExpression.followers {ls : List Lexeme} : IsExpression ls →
    ∃ ms ns, ls = ms ++ ns ∧ IsOperand ms ∧ AreFollowers ns
  | .operand h => ⟨_, [], (List.append_nil _).symm, h, .nil⟩
  | .infixed h hl hms => by
    obtain ⟨ms, ns, rfl, hop, hf⟩ := hms.followers
    exact ⟨_, _, rfl, h, .cons hl hop hf⟩

/-- Reading from `ls` records no error and goes to where the followers that are left, of those
before `rest`, begin with an operator that does not bind more strongly than `level`. -/
def ReadsUpTo (x : Reader Expr) (level : Nat) (ls ms rest : List Lexeme) : Prop :=
  ∀ errs, ∃ y l ns, Yields x ⟨ls, errs⟩ y ⟨l :: (ns ++ rest), errs⟩ ∧ AreFollowers ns ∧ ns <:+ ms ∧
    StopsAt level (ns ++ rest)

/-- With fuel `n`, operands and what follows them are read without errors. No more than two calls
are nested for each lexeme. -/
structure ReadsGrammar (e : Edition) (n : Nat) : Prop where
  expr (level : Nat) {ls ms rest : List Lexeme} (hs : ∀ l ∈ ls ++ (ms ++ rest), l.IsEarly)
    (hls : IsOperand ls) (hms : AreFollowers ms) (hrest : ¬ BeginsWithOperator rest)
    (hn : 2 * (ls ++ (ms ++ rest)).length + 2 ≤ n) :
    ReadsUpTo (Parse.expr e n level) level (ls ++ (ms ++ rest)) ms rest
  continued (level : Nat) (left : Expr) (l : Lexeme) {ms rest : List Lexeme}
    (hs : ∀ l ∈ ms ++ rest, l.IsEarly) (hms : AreFollowers ms)
    (hrest : ¬ BeginsWithOperator rest) (hn : 2 * (ms ++ rest).length + 3 ≤ n) :
    ReadsUpTo (Parse.continued e n level left) level (l :: (ms ++ rest)) ms rest

theorem AreFollowers.eq_nil {ns rest : List Lexeme} (h : AreFollowers ns)
    (hs : ∀ l ∈ ns, l.IsEarly) (hstop : StopsAt 0 (ns ++ rest)) : ns = [] := by
  cases h with
  | nil => rfl
  | cons hl _ _ =>
    obtain ⟨op, rfl⟩ := (hs _ (by simp)).isArithmetic_iff.mp hl
    exact absurd (hstop op _ rfl) (not_le.mpr op.level_pos)

theorem ReadsGrammar.continued_succ (ih : ReadsGrammar e n) (he : e.number ≤ 4) (level : Nat)
    (left : Expr) (l : Lexeme) {ms rest : List Lexeme} (hs : ∀ l ∈ ms ++ rest, l.IsEarly)
    (hms : AreFollowers ms) (hrest : ¬ BeginsWithOperator rest)
    (hn : 2 * (ms ++ rest).length + 3 ≤ n + 1) :
    ReadsUpTo (Parse.continued e (n + 1) level left) level (l :: (ms ++ rest)) ms rest := by
  intro errs
  rcases StopsAt.or_operator level (ms ++ rest) with hstop | ⟨op, tail, htail, hlevel⟩
  · exact ⟨left, l, ms, continued_of_stopsAt he hs hstop, hms, List.suffix_refl ms, hstop⟩
  · cases hms with
    | nil =>
      have hle : op.level ≤ level := stopsAt_of_not_beginsWithOperator hs hrest op tail htail
      exact absurd hlevel (not_lt.mpr hle)
    | @cons m ls ms hm hls hms =>
      obtain ⟨rfl, rfl⟩ := List.cons.inj htail
      have hpos := hls.length_pos
      simp only [List.cons_append, List.append_assoc, List.length_cons, List.length_append]
        at hn hs ⊢
      obtain ⟨y, l', ns, hy, hns, hsuffix, -⟩ := ih.expr op.level (List.forall_mem_cons.mp hs).2 hls
        hms hrest (by simp only [List.length_append]; omega) errs
      have hsub : ∀ k ∈ ns ++ rest, k.IsEarly := by
        intro k hk
        refine hs k ?_
        rcases List.mem_append.mp hk with hk | hk
        · simp [hsuffix.subset hk]
        · simp [hk]
      have hle := hsuffix.length_le
      obtain ⟨x, l'', ns', hx, hns', hsuffix', hstop⟩ := ih.continued level (.infixed left op y) l'
        hsub hns hrest (by simp only [List.length_append]; omega) errs
      refine ⟨x, l'', ns', (continued_of_operator hlevel).trans (hy.bind hx), hns', ?_, hstop⟩
      exact (hsuffix'.trans hsuffix).trans ((List.suffix_append ls ms).trans (List.suffix_cons _ _))

theorem ReadsGrammar.expr_succ (ih : ReadsGrammar e n) (level : Nat) {ls ms rest : List Lexeme}
    (hs : ∀ l ∈ ls ++ (ms ++ rest), l.IsEarly) (hls : IsOperand ls) (hms : AreFollowers ms)
    (hrest : ¬ BeginsWithOperator rest) (hn : 2 * (ls ++ (ms ++ rest)).length + 2 ≤ n + 1) :
    ReadsUpTo (Parse.expr e (n + 1) level) level (ls ++ (ms ++ rest)) ms rest := by
  intro errs
  have hrest' : ∀ l ∈ ms ++ rest, l.IsEarly := (List.forall_mem_append.mp hs).2
  have hlen : 2 * (ms ++ rest).length + 3 ≤ n := by
    have hpos := hls.length_pos
    rw [List.length_append] at hn
    omega
  rw [Parse.expr]
  cases hls with
  | @number l hl =>
    rcases (hs l (by simp)).number hl with ⟨k, rfl⟩ | ⟨y, rfl⟩
    · exact ih.continued level (.int k) _ hrest' hms hrest hlen errs
    · exact ih.continued level (.float y) _ hrest' hms hrest hlen errs
  | @group l r ls hl hls hr =>
    obtain ⟨k, lit⟩ := l
    obtain rfl : k = .lparen := hl
    obtain ⟨inner, followers, rfl, hinner, hfollowers⟩ := hls.followers
    have hassoc : inner ++ followers ++ [r] ++ (ms ++ rest) =
      inner ++ (followers ++ r :: (ms ++ rest)) := by simp
    rw [List.cons_append, hassoc] at hs hn ⊢
    have hearly := (List.forall_mem_cons.mp hs).2
    have hclose : ¬ BeginsWithOperator (r :: (ms ++ rest)) :=
      not_beginsWithOperator (by rw [hr]; rfl)
    obtain ⟨y, l, ns, hy, hns, hsuffix, hstop⟩ := ih.expr 0 hearly hinner hfollowers hclose
      (by rw [List.length_cons] at hn; omega) errs
    obtain rfl : ns = [] := hns.eq_nil (fun m hm => hearly m (by simp [hsuffix.subset hm])) hstop
    obtain ⟨x, l', ns, hx, h⟩ := ih.continued level y r hrest' hms hrest hlen errs
    exact ⟨x, l', ns, .current (.advance (hy.bind (.expect hr hx))), h⟩

theorem readsGrammar (he : e.number ≤ 4) (n : Nat) : ReadsGrammar e n := by
  induction n with
  | zero =>
    refine ⟨?_, ?_⟩
    · intro level ls ms rest hs hls hms hrest hn
      omega
    · intro level left l ms rest hs hms hrest hn
      omega
  | succ n ih => exact ⟨ih.expr_succ, ih.continued_succ he⟩

theorem AreExpressions.head {ls : List Lexeme} (h : AreExpressions ls) :
    ls = [] ∨ ∃ l ms, ls = l :: ms ∧ (l.kind = .int ∨ l.kind = .float ∨ l.kind = .lparen) := by
  have hexpr : ∀ {ms ns : List Lexeme}, IsExpression ms →
      ∃ l t, ms ++ ns = l :: t ∧ (l.kind = .int ∨ l.kind = .float ∨ l.kind = .lparen) := by
    intro ms ns hms
    obtain ⟨l, t, rfl, hl⟩ := hms.head
    exact ⟨l, t ++ ns, rfl, hl⟩
  cases h with
  | nil => exact .inl rfl
  | plain h _ => exact .inr (hexpr h)
  | closed h _ _ => exact .inr (hexpr h)

theorem AreExpressions.not_beginsWithOperator {ls : List Lexeme} (h : AreExpressions ls) :
    ¬ BeginsWithOperator ls := by
  rcases h.head with rfl | ⟨l, ms, rfl, hl⟩
  · rintro ⟨l, ms, hn, -⟩
    simp at hn
  · exact LimeLang.not_beginsWithOperator (by rcases hl with h | h | h <;> rw [h] <;> rfl)

theorem AreExpressions.dropSemicolon_eq {ls : List Lexeme} (h : AreExpressions ls) :
    dropSemicolon ls = ls := by
  rcases h.head with rfl | ⟨l, ms, rfl, hl⟩
  · rfl
  · have hk : l.kind ≠ .semicolon := by rcases hl with h | h | h <;> rw [h] <;> decide
    rw [dropSemicolon, if_neg hk]

theorem statements_expression {ls rest : List Lexeme} (he : e.number ≤ 4)
    (hs : ∀ l ∈ ls ++ rest, l.IsEarly) (hls : IsExpression ls) (hrest : ¬ BeginsWithOperator rest)
    (hn : 2 * (ls ++ rest).length + 4 ≤ n + 1) :
    (Parse.statements e (n + 1) false ⟨ls ++ rest, errs⟩).2 =
      (Parse.statements e n false ⟨dropSemicolon rest, errs⟩).2 := by
  obtain _ | n := n
  · omega
  obtain ⟨ms, ns, rfl, hms, hns⟩ := hls.followers
  rw [List.append_assoc] at hs hn ⊢
  obtain ⟨x, l, ns', hx, hns', hsuffix, hstop⟩ :=
    (readsGrammar he n).expr 0 hs hms hns hrest (by omega) errs
  obtain rfl : ns' = [] := hns'.eq_nil (fun m hm => hs m (by simp [hsuffix.subset hm])) hstop
  obtain ⟨m, t, rfl, -⟩ := hms.head
  have hm : m.IsEarly := hs m (by simp)
  obtain ⟨u, hu, hadvance⟩ := statement_of_expr hm hx
  have heof : (Reading.current ⟨m :: (t ++ (ns ++ rest)), errs⟩).kind ≠ .eof := hm.kind_ne_eof
  have hrun : Parse.statement e (n + 1) ⟨m :: (t ++ (ns ++ rest)), errs⟩ = _ := hu
  rw [List.cons_append, statements_of_not_eof heof, hrun, hadvance]
  rfl

theorem AreExpressions.reads {ls : List Lexeme} (h : AreExpressions ls) (he : e.number ≤ 4)
    (hs : ∀ l ∈ ls, l.IsEarly) (hn : 2 * ls.length + 4 ≤ n) :
    (Parse.statements e n false ⟨ls, errs⟩).2.errors = errs := by
  induction h generalizing n with
  | nil =>
    obtain _ | n := n
    · omega
    rw [statements_of_eof rfl]
  | @plain ls ms hls hms ih =>
    obtain _ | n := n
    · omega
    have hpos := hls.length_pos
    rw [statements_expression he hs hls hms.not_beginsWithOperator hn, hms.dropSemicolon_eq]
    rw [List.length_append] at hn
    exact ih (List.forall_mem_append.mp hs).2 (by omega)
  | @closed l ls ms hls hl hms ih =>
    obtain _ | n := n
    · omega
    have hpos := hls.length_pos
    have hstop : ¬ BeginsWithOperator (l :: ms) := LimeLang.not_beginsWithOperator (by rw [hl]; rfl)
    rw [statements_expression he hs hls hstop hn, dropSemicolon, if_pos hl]
    rw [List.length_append, List.length_cons] at hn
    exact ih (fun m hm => hs m (by simp [hm])) (by omega)

end Completeness

/-- In the editions that have only expressions, a text is read without errors if and only if it
consists of expressions. Then there is one statement for each part of the greedy division, and its
tree is that of a phrase with the lexemes of the part, in which the levels of the operators are in
order. The trees show all of the text but its parentheses and semicolons. -/
theorem expressions_read (e : Edition) (he : e.number ≤ 4) (source : String)
    (hok : (Scan.ofSource e source).failure = none) :
    ((Parsed.ofLexemes e (Scan.ofSource e source).lexemes).errors = [] ↔
        AreExpressions (Scan.ofSource e source).lexemes) ∧
      ((Parsed.ofLexemes e (Scan.ofSource e source).lexemes).errors = [] →
        ∃ ps : List Phrase,
          (Parsed.ofLexemes e (Scan.ofSource e source).lexemes).program =
            ps.map (fun p => .expr p.expr) ∧
          (∀ parts, GreedySplit (Scan.ofSource e source).lexemes parts ↔
            parts = ps.map Phrase.lexemes) ∧
          (∀ p ∈ ps, p.Ordered) ∧
          (Parsed.ofLexemes e (Scan.ofSource e source).lexemes).program.flatMap Stmt.yield =
            withoutMarks (Scan.ofSource e source).lexemes) := by
  obtain ⟨ls, hls, hearly⟩ : ∃ ls, (Scan.ofSource e source).lexemes = ls ∧ ∀ l ∈ ls, l.IsEarly := by
    obtain ⟨ps, last, ht⟩ := Tokenization.total e source.toList
    rcases ht.ofSource_cases with ⟨-, -, -, hls⟩ | ⟨f, hf, -⟩
    · exact ⟨_, hls, ht.isEarly he⟩
    · simp [hf] at hok
  rw [hls]
  have hphrases : (Parsed.ofLexemes e ls).errors = [] → ∃ ps : List Phrase,
      (Parsed.ofLexemes e ls).program = ps.map (fun p => .expr p.expr) ∧
        GreedySplit ls (ps.map Phrase.lexemes) ∧ ∀ p ∈ ps, p.Ordered :=
    fun herr => statements_phrases (n := 8 * ls.length + 8) (s := ⟨ls, []⟩) he hearly rfl herr
  refine ⟨⟨fun herr => ?_, fun h => h.reads he hearly (by omega)⟩, fun herr => ?_⟩
  · obtain ⟨ps, -, hsplit, -⟩ := hphrases herr
    exact hsplit.areExpressions
  · obtain ⟨ps, hprogram, hsplit, hordered⟩ := hphrases herr
    refine ⟨ps, hprogram, fun parts => ⟨fun h => h.unique hsplit, ?_⟩, hordered, ?_⟩
    · rintro rfl
      exact hsplit
    · rw [hprogram, hsplit.withoutMarks_eq, List.flatMap_map, List.flatMap_map]
      simp only [Stmt.yield, Phrase.yield_expr]

theorem expressions_read_nested :
    let e : Edition := ⟨4, by decide⟩
    let source := "1 - 2 * (3 + 4) - 5; 6 7 ^ 8"
    (Scan.ofSource e source).failure = none ∧
      (Parsed.ofLexemes e (Scan.ofSource e source).lexemes).errors = [] ∧
      AreExpressions (Scan.ofSource e source).lexemes ∧
      (Parsed.ofLexemes e (Scan.ofSource e source).lexemes).program.flatMap Stmt.yield =
        withoutMarks (Scan.ofSource e source).lexemes := by
  intro e source
  have hok : (Scan.ofSource e source).failure = none := by decide +kernel
  have herr : (Parsed.ofLexemes e (Scan.ofSource e source).lexemes).errors = [] := by decide +kernel
  obtain ⟨hiff, htrees⟩ := expressions_read e (by decide) source hok
  obtain ⟨ps, -, -, -, hyield⟩ := htrees herr
  exact ⟨hok, herr, hiff.mp herr, hyield⟩

end LimeLang
