import LimeLang.Proofs.CompleteTrees
import LimeLang.Proofs.WrittenForms

/-! A program that was read without errors accounts for all lexemes of its source: they are a text
of the program, and where the text departs from the grammar the places can be told. -/

namespace LimeLang

namespace Reading

variable {s : Reading}

@[simp] theorem advance_current (s : Reading) : s.advance.current = s.peek := rfl

/-- No lexeme is a mark of the end. -/
def Proper (s : Reading) : Prop := ∀ l ∈ s.rest, l.kind ≠ .eof

theorem Proper.advance (h : s.Proper) :
    s.advance.Proper := fun l hl => h l (List.mem_of_mem_tail hl)

theorem rest_of_advance (h : s.advance.rest ≠ []) : s.rest = s.current :: s.advance.rest := by
  obtain ⟨rest, errs⟩ := s
  cases rest with
  | nil => exact absurd rfl h
  | cons l ls => rfl

theorem rest_of_kind {k : Kind} (h : s.current.kind = k) (hk : k ≠ .eof) :
    s.rest = s.current :: s.advance.rest := by
  obtain ⟨rest, errs⟩ := s
  cases rest with
  | nil => exact absurd h.symm hk
  | cons l ls => rfl

theorem rest_of_peek {k : Kind} (h : s.peek.kind = k) (hk : k ≠ .eof) :
    s.advance.rest = s.peek :: s.advance.advance.rest :=
  rest_of_kind (s := s.advance) h hk

theorem current_of_peek {k : Kind} (h : s.peek.kind = k) (hk : k ≠ .eof) :
    s.rest = s.current :: s.advance.rest :=
  rest_of_advance (by rw [rest_of_peek h hk]; exact List.cons_ne_nil _ _)

theorem rest_eq_head? (s : Reading) : s.rest = s.rest.head?.toList ++ s.advance.rest := by
  obtain ⟨rest, errs⟩ := s
  cases rest <;> rfl

theorem Proper.rest_eq_nil (h : s.Proper) (hk : s.current.kind = .eof) : s.rest = [] := by
  obtain ⟨rest, errs⟩ := s
  cases rest with
  | nil => rfl
  | cons l ls => exact absurd hk (h l List.mem_cons_self)

theorem skipped (h : s.current.kind ≠ .semicolon) : ∃ ms : List Lexeme, ∃ r : Option Lexeme,
    (∀ l ∈ ms, l.kind ≠ .semicolon) ∧ (∀ l ∈ r, l.kind = .semicolon) ∧
      s.advance.rest = ms ++ (r.toList ++ (s.rest.dropWhile fun l =>
        l.kind ≠ .semicolon).tail) := by
  obtain ⟨rest, errs⟩ := s
  cases rest with
  | nil => exact ⟨[], none, by simp, by simp, rfl⟩
  | cons l ls =>
    have hl : l.kind ≠ .semicolon := h
    let p : Lexeme → Bool := fun l => l.kind ≠ .semicolon
    refine ⟨ls.takeWhile p, (ls.dropWhile p).head?, ?_, ?_, ?_⟩
    · exact fun m hm => by simpa [p] using List.mem_takeWhile_imp hm
    · intro m hm
      have hstop := List.head?_dropWhile_not p ls
      rw [Option.mem_def.mp hm] at hstop
      simpa [p] using hstop
    · rw [List.dropWhile_cons_of_pos (by simpa using hl)]
      have hhead : ls.dropWhile p = (ls.dropWhile p).head?.toList ++ (ls.dropWhile p).tail :=
        rest_eq_head? ⟨ls.dropWhile p, errs⟩
      rw [← hhead, List.takeWhile_append_dropWhile]
      rfl

end Reading

/-- From `s`, the reader only adds errors, and if it adds none then its result and the place where
it stops have the property. -/
structure Traces {α : Type} (x : Reader α) (s : Reading) (Q : α → Reading → Prop) : Prop where
  proper : s.Proper → (x s).2.Proper
  records : ∃ new, (x s).2.errors = s.errors ++ new ∧ (new = [] → s.Proper → Q (x s).1 (x s).2)

namespace Traces

variable {α β : Type} {s : Reading} {P : α → Reading → Prop} {Q : β → Reading → Prop}

theorem mono {P' : α → Reading → Prop} {x : Reader α} (h : Traces x s P) (hP : ∀ a t, P a t →
    P' a t) : Traces x s P' := by
  obtain ⟨new, herr, hnew⟩ := h.records
  exact ⟨h.proper, new, herr, fun hn hs => hP _ _ (hnew hn hs)⟩

theorem stop {a : α} (h : s.Proper → P a s) : Traces (Pure.pure a) s P :=
  ⟨id, [], (List.append_nil _).symm, fun _ => h⟩

theorem pure {a : α} (h : P a s) : Traces (Pure.pure a) s P := stop fun _ => h

theorem bind {x : Reader α} {f : α → Reader β} (h : Traces x s P)
    (hf : ∀ a t, Traces (f a) t fun b u => P a t → Q b u) : Traces (x >>= f) s Q := by
  obtain ⟨first, hfirst, hp⟩ := h.records
  obtain ⟨second, hsecond, hq⟩ := (hf (x s).1 (x s).2).records
  refine ⟨fun hs => (hf (x s).1 (x s).2).proper (h.proper hs), first ++ second, ?_, ?_⟩
  · change (f (x s).1 (x s).2).2.errors = _
    rw [hsecond, hfirst, List.append_assoc]
  · intro hn hs
    obtain ⟨hn, hn'⟩ := List.append_eq_nil_iff.mp hn
    exact hq hn' (h.proper hs) (hp hn hs)

theorem report {x : Reader β} (e : ParseError) (h : Traces x (s.report e) fun _ _ => True) :
    Traces (Reader.report e >>= fun _ => x) s Q := by
  obtain ⟨new, herr, -⟩ := h.records
  refine ⟨h.proper, e :: new, ?_, by simp⟩
  change (x (s.report e)).2.errors = _
  rw [herr]
  simp [Reading.report]

theorem current {f : Lexeme → Reader β} (h : Traces (f s.current) s Q) :
    Traces (Reader.current >>= f) s Q :=
  ⟨h.proper, h.records⟩

theorem peekKind {f : Kind → Reader β} (h : Traces (f s.peek.kind) s Q) :
    Traces (Reader.peekKind >>= f) s Q :=
  ⟨h.proper, h.records⟩

theorem advance {x : Reader β} (h : Traces x s.advance Q) :
    Traces (Reader.advance >>= fun _ => x) s Q := by
  obtain ⟨new, herr, hnew⟩ := h.records
  exact ⟨fun hs => h.proper hs.advance, new, herr, fun hn hs => hnew hn hs.advance⟩

theorem skipToSemicolon {x : Reader β}
    (h : Traces x { s with rest := s.rest.dropWhile fun l => l.kind ≠ .semicolon } Q) :
    Traces (Reader.skipToSemicolon >>= fun _ => x) s Q := by
  have hproper : s.Proper →
      Reading.Proper { s with rest := s.rest.dropWhile fun l => l.kind ≠ .semicolon } :=
    fun hs l hl => hs l ((List.dropWhile_suffix _).subset hl)
  obtain ⟨new, herr, hnew⟩ := h.records
  exact ⟨fun hs => h.proper (hproper hs), new, herr, fun hn hs => hnew hn (hproper hs)⟩

theorem expect {k : Kind} {f : Bool → Reader β} (ht : s.peek.kind = k → Traces (f true) s.advance Q)
    (hf : ∀ t, Traces (f false) t fun _ _ => True) : Traces (Reader.expect k >>= f) s Q := by
  by_cases hk : s.peek.kind = k
  · have hs : (Reader.expect k >>= f) s = (Reader.advance >>= fun _ => f true) s :=
      Reader.expect_bind hk f
    have h := Traces.advance (ht hk)
    exact ⟨hs ▸ h.proper, hs ▸ h.records⟩
  · have hs := Reader.expect_bind_of_ne hk f
    have h : Traces (Reader.report (.expected k s.peek.kind) >>= fun _ => f false) s Q :=
      .report _ (hf _)
    exact ⟨hs ▸ h.proper, hs ▸ h.records⟩

theorem ite {c : Prop} [Decidable c] {x y : Reader α} (ht : c → Traces x s P) (hf : ¬ c →
    Traces y s P) : Traces (if c then x else y) s P := by
  split
  · exact ht ‹c›
  · exact hf ‹¬ c›

end Traces

/-- The lexemes begin with a text of the part, and `after` comes behind it. -/
def WrittenBefore (e : Edition) (part : Part) (ls after : List Lexeme) : Prop :=
  ∃ ms σ, WrittenAs e part ms σ ∧ ls = ms ++ after

/-- The next lexeme is no operator that binds more strongly than `level`. -/
def Stops (e : Edition) (level : Nat) (t : Reading) : Prop :=
  ∀ c, t.peek.kind.continuation? e = some c → c.level ≤ level

/-- The reader stands on the last lexeme of an expression that begins `ls`. Its operators bind more
strongly than `level`, and the next lexeme does not take it apart. -/
def OperandRead (e : Edition) (level : Nat) (x : Expr) (ls : List Lexeme) (t : Reading) : Prop :=
  ∃ m ms σ, WrittenAs e (.expr x m) ms σ ∧ ls = ms ++ t.advance.rest ∧
    min (level + 1) prefixLevel ≤ m ∧ Stops e m t ∧ t.current.kind ≠ .semicolon

/-- The reader stands on the parenthesis behind the arguments. -/
def ArgsRead (e : Edition) (xs : Option (List Expr)) (ls : List Lexeme) (t : Reading) : Prop :=
  ∃ ys ∈ xs, WrittenBefore e (.args ys) ls t.rest ∧ t.current.kind = .rparen

def ParamsRead (ps : Option (List Param)) (ls : List Lexeme) (t : Reading) : Prop :=
  ∃ qs ∈ ps, ∃ ms σ, ParamsWrittenAs qs ms σ ∧ ls = ms ++ t.rest ∧ t.current.kind = .rparen

/-- With fuel `n`, each reader that records no error has read a text of its result. Where a reader
goes on from something that was read before, that has been written before the place it stands at. -/
structure Accounts (e : Edition) (n : Nat) : Prop where
  moreParams (acc : List Param) (s : Reading) : Traces (Parse.moreParams n acc) s fun ps t =>
    ∀ ls, acc ≠ [] → (s.advance.rest ≠ [] → ∃ ms σ, ParamsWrittenAs acc ms σ ∧
      ls = ms ++ s.advance.rest) → ParamsRead ps ls t
  params (s : Reading) : Traces (Parse.params n) s fun ps t => ParamsRead ps s.advance.rest t
  expr (level : Nat) (s : Reading) : Traces (Parse.expr e n level) s fun x t =>
    OperandRead e level x s.rest t ∧ Stops e level t
  continued (level : Nat) (left : Expr) (s : Reading) :
      Traces (Parse.continued e n level left) s fun x t =>
    ∀ ls, OperandRead e level left ls s → OperandRead e level x ls t ∧ Stops e level t
  arguments (s : Reading) : Traces (Parse.arguments e n) s fun xs t =>
    ArgsRead e xs s.advance.rest t
  moreArguments (acc : List Expr) (s : Reading) : Traces (Parse.moreArguments e n acc) s fun xs t =>
    ∀ ls, acc ≠ [] → WrittenBefore e (.args acc) ls s.advance.rest → ArgsRead e xs ls t
  conditional (s : Reading) : Traces (Parse.conditional e n) s fun x t =>
    s.current.kind = .ifWord → ∀ level, OperandRead e level x s.rest t
  block (s : Reading) : Traces (Parse.block e n) s fun ss t => s.current.kind = .lbrace →
    WrittenBefore e (.block ss) s.rest t.advance.rest ∧ t.current.kind ≠ .semicolon
  statements (inBlock : Bool) (s : Reading) : Traces (Parse.statements e n inBlock) s fun ss t =>
    WrittenBefore e (.stmts ss) s.rest t.rest ∧
      (t.rest = [] ∨ inBlock = true ∧ t.current.kind = .rbrace)
  statement (s : Reading) : Traces (Parse.statement e n) s fun st t =>
    ∃ x ∈ st, WrittenBefore e (.stmt x) s.rest t.advance.rest
  assignment (s : Reading) : Traces (Parse.assignment e n) s fun st t =>
    WrittenBefore e (.step st) s.rest t.rest ∧ ∃ target op x, st = .assign target op x
  letVar (s : Reading) : Traces (Parse.letVar e n) s fun st t => s.current.kind = .letWord →
    ∃ x ∈ st, WrittenBefore e (.stmt x) s.rest t.advance.rest ∧ x.isLet = true
  function (s : Reading) : Traces (Parse.function e n) s fun st t => s.current.kind = .fnWord →
    ∃ x ∈ st, WrittenBefore e (.stmt x) s.rest t.advance.rest
  expressionStep (s : Reading) : Traces (Parse.expressionStep e n) s fun st t =>
    WrittenBefore e (.step st) s.rest t.rest
  forLoop (s : Reading) : Traces (Parse.forLoop e n) s fun st t => s.current.kind = .forWord →
    ∃ x ∈ st, WrittenBefore e (.stmt x) s.rest t.advance.rest

section

variable {e : Edition} {n : Nat}

def Continuation.kind : Continuation → Kind
  | infixed op => op.kind
  | call => .lparen
  | step op => op.kind

theorem Kind.eq_of_continuation {k : Kind} {c : Continuation} (h : k.continuation? e = some c) :
    k = c.kind := by
  cases k
  case lparen =>
    rw [Kind.continuation?, Option.ite_none_right_eq_some] at h
    rw [← Option.some.inj h.2]
    rfl
  all_goals simp only [Kind.continuation?, reduceCtorEq, Option.some.injEq] at h
  all_goals subst h; rfl

theorem Continuation.kind_ne (c : Continuation) : c.kind ≠ .eof ∧ c.kind ≠ .semicolon := by
  cases c with
  | infixed op => cases op <;> decide
  | call => decide
  | step op => cases op <;> decide

theorem Continuation.level_lt (c : Continuation) : c.level < closedLevel := by
  cases c with
  | infixed op => cases op <;> decide
  | call => decide
  | step op => cases op <;> decide

theorem stops_closed (t : Reading) : Stops e closedLevel t := fun c _ => c.level_lt.le

/-- Forms that no operator takes apart can be operands everywhere. -/
theorem OperandRead.closed {x : Expr} {ls ms : List Lexeme} {σ : List Slip} {t : Reading}
    (h : WrittenAs e (.expr x closedLevel) ms σ) (hls : ls = ms ++ t.advance.rest)
    (ht : t.current.kind ≠ .semicolon) (level : Nat) : OperandRead e level x ls t := by
  have hm : min (level + 1) prefixLevel ≤ closedLevel := (min_le_right _ _).trans (by decide)
  exact ⟨closedLevel, ms, σ, h, hls, hm, stops_closed t, ht⟩

theorem WrittenAs.expr_ne_nil {x : Expr} {m : Nat} {ls : List Lexeme} {σ : List Slip}
    (h : WrittenAs e (.expr x m) ls σ) : ls ≠ [] := by
  cases h <;> simp

theorem params_accounts (h : ∀ acc s, Traces (Parse.moreParams n acc) s fun ps t =>
      ∀ ls, acc ≠ [] → (s.advance.rest ≠ [] → ∃ ms σ, ParamsWrittenAs acc ms σ ∧
        ls = ms ++ s.advance.rest) → ParamsRead ps ls t) (s : Reading) :
    Traces (Parse.params n) s fun ps t => ParamsRead ps s.advance.rest t := by
  rw [Parse.params]
  refine .peekKind (.ite (fun hk => .advance (.pure ?_)) fun _ =>
    .advance (.current (.expect ?_ ?_)))
  · exact ⟨[], rfl, [], [], .none, rfl, hk⟩
  · intro hc
    refine .advance (.current ((h _ _).mono fun ps t hps => hps _ (List.cons_ne_nil _ _) fun hne =>
      ?_))
    refine ⟨[s.peek, s.advance.peek, s.advance.advance.peek], _, .first hc, ?_⟩
    rw [Reading.current_of_peek hc (by decide), Reading.rest_of_peek hc (by decide),
      Reading.rest_of_advance hne]
    rfl
  · exact fun t => .pure trivial

namespace Accounts

theorem of_zero : Accounts e 0 where
  moreParams _ _ := .report _ (.pure trivial)
  params := params_accounts fun _ _ => .report _ (.pure trivial)
  expr _ _ := .report _ (.pure trivial)
  continued _ _ _ := .report _ (.pure trivial)
  arguments _ := .report _ (.pure trivial)
  moreArguments _ _ := .report _ (.pure trivial)
  conditional _ := .report _ (.pure trivial)
  block _ := .report _ (.pure trivial)
  statements _ _ := .report _ (.pure trivial)
  statement _ := .report _ (.pure trivial)
  assignment _ := .report _ (.pure trivial)
  letVar _ := .report _ (.pure trivial)
  function _ := .report _ (.pure trivial)
  expressionStep _ := .report _ (.pure trivial)
  forLoop _ := .report _ (.pure trivial)

theorem moreParams_succ (h : Accounts e n) (acc : List Param) (s : Reading) :
    Traces (Parse.moreParams (n + 1) acc) s fun ps t => ∀ ls, acc ≠ [] →
      (s.advance.rest ≠ [] → ∃ ms σ, ParamsWrittenAs acc ms σ ∧ ls = ms ++ s.advance.rest) →
        ParamsRead ps ls t := by
  rw [Parse.moreParams]
  refine .peekKind (.ite (fun hm => ?_) fun _ => .expect (fun hk => .pure ?_) fun t =>
    .pure trivial)
  · have hcomma := Reading.rest_of_peek hm (by decide)
    refine .advance (.advance (.current (.expect (fun hc => .advance (.current ?_)) fun t =>
      .pure trivial)))
    refine (h.moreParams _ _).mono fun ps t hps ls hacc hbefore => hps ls (by simp) fun hne => ?_
    obtain ⟨ms, σ, hms, rfl⟩ := hbefore (by rw [hcomma]; exact List.cons_ne_nil _ _)
    refine ⟨_, _, .more hms hacc hm hc, ?_⟩
    rw [hcomma, Reading.current_of_peek hc (by decide), Reading.rest_of_peek hc (by decide),
      Reading.rest_of_advance hne]
    simp
  · intro ls hacc hbefore
    have hclose := Reading.rest_of_peek hk (by decide)
    obtain ⟨ms, σ, hms, rfl⟩ := hbefore (by rw [hclose]; exact List.cons_ne_nil _ _)
    exact ⟨acc, rfl, ms, σ, hms, rfl, hk⟩

theorem continued_succ (h : Accounts e n) (level : Nat) (left : Expr) (s : Reading) :
    Traces (Parse.continued e (n + 1) level left) s fun x t =>
      ∀ ls, OperandRead e level left ls s → OperandRead e level x ls t ∧ Stops e level t := by
  rw [Parse.continued]
  refine .peekKind ?_
  split
  · rename_i hnone
    exact .pure fun ls hleft => ⟨hleft, fun c hc => by simp [hnone] at hc⟩
  rename_i c hc
  have hk := Kind.eq_of_continuation hc
  have hnext := Reading.rest_of_peek hk c.kind_ne.1
  have hmark : s.advance.current.kind ≠ .semicolon := hk.trans_ne c.kind_ne.2
  refine .ite (fun hlevel => .advance ?_) fun hlevel => .pure fun ls hleft =>
    ⟨hleft, fun c' hc' => ?_⟩
  swap
  · obtain rfl := Option.some.inj (hc.symm.trans hc')
    exact not_lt.mp hlevel
  split
  · rename_i op
    refine .advance (.bind (h.expr _ _) fun right t => (h.continued _ _ _).mono ?_)
    rintro x u hx ⟨⟨m', ms', σ', hright, hrest, hm', -, hcur⟩, hstop⟩ ls
      ⟨m, ms, σ, hleft, rfl, hm, hs, -⟩
    have habove : op.level < m' := lt_of_lt_of_le (lt_min (Nat.lt_succ_self _) op.level_lt) hm'
    refine hx _ ⟨op.level, _, _, .infixed hleft (hs _ hc) hk hright habove, ?_, ?_, hstop, hcur⟩
    · rw [hnext, hrest]
      simp
    · exact (min_le_left _ _).trans hlevel
  · rename_i op
    refine (h.continued _ _ _).mono fun x u hx ls hls => hx _ ?_
    obtain ⟨m, ms, σ, hleft, rfl, hm, hs, -⟩ := hls
    refine .closed (.stepped hleft (hs _ hc) hk) ?_ ?_ level
    · rw [hnext]
      simp
    · exact hmark
  · refine .ite (fun _ => .bind (h.arguments _) fun args t => ?_) fun _ =>
      .expect (fun hr => ?_) fun t => ?_
    · split
      · rename_i xs
        refine (h.continued _ _ _).mono ?_
        rintro x u hx ⟨ys, hys, ⟨ms', σ', hargs, hrest⟩, hr⟩ ls ⟨m, ms, σ, hleft, rfl, hm, hs, -⟩
        obtain rfl := Option.some.inj hys
        have hclose := Reading.rest_of_kind hr (by decide)
        refine hx _ (.closed (.call hleft (hs _ hc) hk hargs hr) ?_ (by simp [hr]) level)
        rw [hnext, hrest, hclose]
        simp
      · refine (h.continued _ _ _).mono ?_
        rintro x u hx ⟨ys, hys, -⟩
        simp at hys
    · refine (h.continued _ _ _).mono fun x u hx ls hls => hx _ ?_
      obtain ⟨m, ms, σ, hleft, rfl, hm, hs, -⟩ := hls
      have hclose := Reading.rest_of_peek hr (by decide)
      refine .closed (.call hleft (hs _ hc) hk .noArgs hr) ?_ ?_ level
      · rw [hnext, hclose]
        simp
      · exact hr.trans_ne (by decide)
    · exact (h.continued _ _ _).mono fun _ _ _ => trivial

theorem expr_succ (h : Accounts e n) (level : Nat) (s : Reading) :
    Traces (Parse.expr e (n + 1) level) s fun x t => OperandRead e level x s.rest t ∧
      Stops e level t := by
  have hatom : ∀ x σ, WrittenAs e (.expr x closedLevel) [s.current] σ → s.current.kind ≠ .eof →
      s.current.kind ≠ .semicolon → Traces (Parse.continued e n level x) s fun y t =>
        OperandRead e level y s.rest t ∧ Stops e level t :=
    fun x σ hx heof hmark => (h.continued _ _ _).mono fun y t hy =>
      hy _ (.closed hx (Reading.rest_of_kind rfl heof) hmark level)
  have hno : ∀ k, Traces (do Reader.report (.noPrefix k); return Expr.missing) s fun y t =>
      OperandRead e level y s.rest t ∧ Stops e level t := fun k => .report _ (.pure trivial)
  have hprefixed : ∀ op : PrefixOp, s.current.kind = op.kind → Traces (do
      Reader.advance
      Parse.continued e n level (.prefixed op (← Parse.expr e n prefixLevel))) s fun y t =>
        OperandRead e level y s.rest t ∧ Stops e level t := by
    intro op hk
    have hrest := Reading.rest_of_kind hk (by cases op <;> decide)
    refine .advance (.bind (h.expr _ _) fun right t => (h.continued _ _ _).mono ?_)
    rintro y u hy ⟨⟨m, ms, σ, hright, hms, hm, -, hcur⟩, hstop⟩
    refine hy _ ⟨prefixLevel, _, _, .prefixed hk hright ?_, ?_, min_le_right _ _, hstop, hcur⟩
    · exact (le_min (Nat.le_succ _) le_rfl).trans hm
    · rw [hrest, hms]
      rfl
  rw [Parse.expr]
  refine .current ?_
  split
  · rename_i k hl
    exact hatom _ [] (hl ▸ .int k) (by simp [hl]) (by simp [hl])
  · rename_i y hl
    exact hatom _ [] (hl ▸ .float y) (by simp [hl]) (by simp [hl])
  · rename_i name hl
    exact .ite (fun _ => hatom _ [] (hl ▸ .ident name) (by simp [hl]) (by simp [hl])) fun _ => hno _
  · rename_i hl
    exact hatom _ [] (.trueWord (by rw [hl])) (by simp [hl]) (by simp [hl])
  · rename_i hl
    exact hatom _ [] (.falseWord (by rw [hl])) (by simp [hl]) (by simp [hl])
  · rename_i text hl
    exact hatom _ [] (hl ▸ .str text) (by simp [hl]) (by simp [hl])
  · rename_i hl
    have hopen : s.current.kind = .lparen := by rw [hl]
    have hrest := Reading.rest_of_kind hopen (by decide)
    refine .advance (.bind (h.expr _ _) fun inner t => .expect (fun hr => ?_) fun u => ?_)
    · refine (h.continued _ _ _).mono ?_
      rintro y u hy ⟨⟨m, ms, σ, hinner, hms, -⟩, -⟩
      have hclose := Reading.rest_of_peek hr (by decide)
      refine hy _ (.closed (.group hopen hinner hr) ?_ ?_ level)
      · rw [hrest, hms, hclose]
        simp
      · exact hr.trans_ne (by decide)
    · exact (h.continued _ _ _).mono fun _ _ _ => trivial
  · rename_i hl
    refine .bind (h.conditional _) fun x t => (h.continued _ _ _).mono fun y u hy hx => ?_
    exact hy _ (hx (by rw [hl]) level)
  · rename_i hl
    exact .ite (fun _ => hprefixed .neg (by rw [hl]; rfl)) fun _ => hno _
  · rename_i hl
    exact hprefixed .not (by rw [hl]; rfl)
  · exact hno _

theorem arguments_succ (h : Accounts e n) (s : Reading) :
    Traces (Parse.arguments e (n + 1)) s fun xs t => ArgsRead e xs s.advance.rest t := by
  rw [Parse.arguments]
  refine .peekKind (.ite (fun hk => .advance (.pure ?_)) fun _ => .advance ?_)
  · exact ⟨[], rfl, ⟨[], [], .noArgs, rfl⟩, hk⟩
  · refine .bind (h.expr _ _) fun x t => (h.moreArguments _ _).mono ?_
    rintro xs u hxs ⟨⟨m, ms, σ, hx, hms, -⟩, -⟩
    exact hxs _ (List.cons_ne_nil _ _) ⟨ms, σ, .firstArg hx, hms⟩

theorem moreArguments_succ (h : Accounts e n) (acc : List Expr) (s : Reading) :
    Traces (Parse.moreArguments e (n + 1) acc) s fun xs t =>
      ∀ ls, acc ≠ [] → WrittenBefore e (.args acc) ls s.advance.rest → ArgsRead e xs ls t := by
  rw [Parse.moreArguments]
  refine .peekKind (.ite (fun hm => ?_) fun _ => .expect (fun hk => .pure ?_) fun t =>
    .pure trivial)
  · have hcomma := Reading.rest_of_peek hm (by decide)
    refine .advance (.advance (.bind (h.expr _ _) fun x t => (h.moreArguments _ _).mono ?_))
    rintro xs u hxs ⟨⟨m, ms, σ, hx, hms, -⟩, -⟩ ls hacc ⟨ms', σ', hargs, rfl⟩
    refine hxs _ (by simp) ⟨_, _, .moreArgs hargs hacc hm hx, ?_⟩
    rw [hcomma, hms]
    simp
  · exact fun ls _ hargs => ⟨acc, rfl, hargs, hk⟩

theorem conditional_succ (h : Accounts e n) (s : Reading) :
    Traces (Parse.conditional e (n + 1)) s fun x t =>
      s.current.kind = .ifWord → ∀ level, OperandRead e level x s.rest t := by
  rw [Parse.conditional]
  refine .advance (.bind (h.expr _ _) fun c t => .expect (fun hl => ?_) fun t => .pure trivial)
  refine .bind (h.block _) fun body u => .peekKind (.ite (fun hw => ?_) fun _ => .pure ?_)
  · refine .advance (.expect (fun hl' => ?_) fun t => .pure trivial)
    refine .bind (h.block _) fun alternative v => .pure ?_
    rintro hfinal hbody ⟨⟨m, ls, σ, hc, hls, -⟩, -⟩ hk level
    obtain ⟨⟨ms, τ, hbody, hms⟩, -⟩ := hbody hl
    obtain ⟨⟨ns, υ, hfinal, hns⟩, hmark⟩ := hfinal hl'
    refine .closed (.ifElse hk hc hbody hw hfinal) ?_ hmark level
    rw [Reading.rest_of_kind hk (by decide), hls, hms, Reading.rest_of_peek hw (by decide), hns]
    simp
  · rintro hbody ⟨⟨m, ls, σ, hc, hls, -⟩, -⟩ hk level
    obtain ⟨⟨ms, τ, hbody, hms⟩, hmark⟩ := hbody hl
    refine .closed (.ifThen hk hc hbody) ?_ hmark level
    rw [Reading.rest_of_kind hk (by decide), hls, hms]
    simp

theorem block_succ (h : Accounts e n) (s : Reading) :
    Traces (Parse.block e (n + 1)) s fun ss t => s.current.kind = .lbrace →
      WrittenBefore e (.block ss) s.rest t.advance.rest ∧ t.current.kind ≠ .semicolon := by
  rw [Parse.block]
  refine .advance ((h.statements _ _).mono ?_)
  rintro ss t ⟨⟨ls, σ, hss, hls⟩, hend⟩ hk
  have hrest := Reading.rest_of_kind hk (by decide)
  rcases hend with hend | ⟨-, hend⟩
  · have hcur : t.current = .eof := by simp [Reading.current, hend]
    refine ⟨⟨_, _, .openBlock hk hss, ?_⟩, by simp [hcur, Lexeme.eof]⟩
    rw [hrest, hls, hend, Reading.advance, hend]
    simp
  · refine ⟨⟨_, _, .block hk hss hend, ?_⟩, hend.trans_ne (by decide)⟩
    rw [hrest, hls, Reading.rest_of_kind hend (by decide)]
    simp

theorem statements_succ (h : Accounts e n) (inBlock : Bool) (s : Reading) :
    Traces (Parse.statements e (n + 1) inBlock) s fun ss t =>
      WrittenBefore e (.stmts ss) s.rest t.rest ∧
        (t.rest = [] ∨ inBlock = true ∧ t.current.kind = .rbrace) := by
  rw [Parse.statements]
  refine .current (.ite (fun hend => .stop fun hs => ?_) fun _ => ?_)
  · refine ⟨⟨[], [], .nil, rfl⟩, ?_⟩
    simp only [Bool.or_eq_true, Bool.and_eq_true, decide_eq_true_eq] at hend
    exact hend.imp_left hs.rest_eq_nil
  · refine .bind (h.statement _) fun st t =>
      .advance (.bind (h.statements _ _) fun ss u => .pure ?_)
    rintro ⟨⟨ms, τ, hss, hms⟩, hend⟩ ⟨x, hx, ls, σ, hst, hls⟩
    obtain rfl := Option.mem_def.mp hx
    refine ⟨⟨_, _, .cons hst hss, ?_⟩, hend⟩
    rw [hls, hms, List.append_assoc]

theorem assignment_succ (h : Accounts e n) (s : Reading) :
    Traces (Parse.assignment e (n + 1)) s fun st t =>
      WrittenBefore e (.step st) s.rest t.rest ∧ ∃ target op x, st = .assign target op x := by
  rw [Parse.assignment]
  refine .current (.advance (.current
    (.advance (.bind (h.expr _ _) fun x t => .advance (.pure ?_)))))
  rintro ⟨⟨m, ls, σ, hx, hls, -⟩, -⟩
  refine ⟨⟨_, _, .assignStep hx, ?_⟩, _, _, _, rfl⟩
  have hvalue : s.advance.advance.rest ≠ [] := by
    rw [hls]
    exact List.append_ne_nil_of_left_ne_nil hx.expr_ne_nil _
  have hop := Reading.rest_of_advance hvalue
  have htarget := Reading.rest_of_advance (s := s) (by rw [hop]; exact List.cons_ne_nil _ _)
  rw [htarget, hop, hls]
  rfl

theorem expressionStep_succ (h : Accounts e n) (s : Reading) :
    Traces (Parse.expressionStep e (n + 1)) s fun st t =>
      WrittenBefore e (.step st) s.rest t.rest := by
  rw [Parse.expressionStep]
  refine .bind (h.expr _ _) fun x t => .advance (.pure ?_)
  rintro ⟨⟨m, ls, σ, hx, hls, -⟩, -⟩
  exact ⟨ls, σ, .exprStep hx, hls⟩

theorem letVar_succ (h : Accounts e n) (s : Reading) :
    Traces (Parse.letVar e (n + 1)) s fun st t => s.current.kind = .letWord →
      ∃ x ∈ st, WrittenBefore e (.stmt x) s.rest t.advance.rest ∧ x.isLet = true := by
  rw [Parse.letVar]
  refine .expect (fun hname => .current (.expect (fun hc => .expect (fun htype => .current ?_)
    fun t => .pure trivial) fun t => .pure trivial)) fun t => .pure trivial
  refine .expect (fun hq => .advance (.bind (h.expr _ _) fun x t => .skipToSemicolon (.pure ?_)))
    fun t => .pure trivial
  rintro ⟨⟨m, ls, σ, hx, hls, -, -, hmark⟩, -⟩ hk
  obtain ⟨ms, r, hms, hr, hskip⟩ := Reading.skipped hmark
  refine ⟨_, rfl, ⟨_, _, .letVar hk hname hc htype hq hx hms hr, ?_⟩, rfl⟩
  rw [Reading.rest_of_kind hk (by decide), Reading.rest_of_peek hname (by decide),
    Reading.rest_of_peek hc (by decide), Reading.rest_of_peek htype (by decide),
    Reading.rest_of_peek hq (by decide), hls, hskip]
  simp only [List.cons_append, List.append_assoc]
  rfl

theorem signatureEnd (h : Accounts e n) (name : String) (ps : Option (List Param)) (s : Reading) :
    Traces (Parse.signatureEnd e n name ps) s fun st t =>
        ∃ type : Lexeme, ∃ body a ms τ, st = some (.fn name ps type.literal body) ∧
          a.kind = .arrow ∧
          WrittenAs e (.block body) ms τ ∧
            s.advance.rest = a :: type :: (ms ++ t.advance.rest) := by
  rw [Parse.signatureEnd]
  refine .expect (fun ha => .advance (.current (.expect (fun hl => ?_) fun t => .pure trivial)))
    fun t => .pure trivial
  refine .bind (h.block _) fun body u => .pure fun hbody => ?_
  obtain ⟨⟨ms, τ, hbody, hms⟩, -⟩ := hbody hl
  refine ⟨_, body, _, ms, τ, rfl, ha, hbody, ?_⟩
  rw [Reading.rest_of_peek ha (by decide), Reading.current_of_peek hl (by decide), hms]

theorem function_succ (h : Accounts e n) (s : Reading) :
    Traces (Parse.function e (n + 1)) s fun st t => s.current.kind = .fnWord →
      ∃ x ∈ st, WrittenBefore e (.stmt x) s.rest t.advance.rest := by
  rw [Parse.function]
  refine .expect (fun hname => .current (.expect (fun hl => ?_) fun t => .pure trivial))
    fun t => .pure trivial
  have hopen := Reading.rest_of_peek hl (by decide)
  have hident := Reading.rest_of_peek hname (by decide)
  have hend : ∀ ps u (v : Reading) st, ParamsRead ps s.advance.advance.advance.rest u →
      (∃ type : Lexeme, ∃ body a ms τ, st = some (.fn s.advance.current.literal.display ps
        type.literal body) ∧ a.kind = .arrow ∧ WrittenAs e (.block body) ms τ ∧
        u.advance.rest = a :: type :: (ms ++ v.advance.rest)) → s.current.kind = .fnWord →
      ∃ x ∈ st, WrittenBefore e (.stmt x) s.rest v.advance.rest := by
    rintro ps u v st ⟨qs, hqs, ls, σ, hparams, hls, hr⟩ ⟨type, body, a, ms, τ, rfl, ha, hbody, hms⟩
      hk
    obtain rfl := Option.mem_def.mp hqs
    refine ⟨_, rfl, _, _, .fn hk hname hl hparams hr ha hbody, ?_⟩
    rw [Reading.rest_of_kind hk (by decide), hident, hopen, hls,
      Reading.rest_of_kind hr (by decide), hms]
    simp
  refine .ite (fun hh => absurd hh (by simp)) fun _ => .ite (fun hps => ?_) fun hps => ?_
  · refine .bind (h.params _) fun ps u => .ite (fun hno => ?_) fun _ => ?_
    · simp [hps] at hno
    · exact (h.signatureEnd _ _ _).mono fun st v hst hps hk => hend ps u v st hps hst hk
  · refine .bind (.pure (P := fun ps u => ps = some [] ∧ u = s.advance.advance) ⟨rfl, rfl⟩)
      fun ps u => ?_
    refine .ite (fun _ => .expect (fun hr => ?_) fun t => .pure trivial) fun hno => ?_
    · refine (h.signatureEnd _ _ _).mono ?_
      rintro st v hst ⟨rfl, rfl⟩ hk
      exact hend _ s.advance.advance.advance v st ⟨[], rfl, [], [], .none, rfl, hr⟩ hst hk
    · simp [hps] at hno

theorem forLoop_succ (h : Accounts e n) (s : Reading) :
    Traces (Parse.forLoop e (n + 1)) s fun st t => s.current.kind = .forWord →
      ∃ x ∈ st, WrittenBefore e (.stmt x) s.rest t.advance.rest := by
  have hbody : ∀ (init : Option Stmt) (c : Expr) (next : Stmt) (u : Reading), Traces (do
      if !(← Reader.expect .lbrace) then return none
      return some (Stmt.forLoop (init.getD .missing) c next (← Parse.block e n))) u fun st t =>
        ∃ body ns φ, st = some (.forLoop (init.getD .missing) c next body) ∧
          WrittenAs e (.block body) ns φ ∧ u.rest = u.current :: (ns ++ t.advance.rest) := by
    intro init c next u
    refine .expect (fun hl => .bind (h.block _) fun body t => .pure fun hbody => ?_) fun t =>
      .pure trivial
    obtain ⟨⟨ns, φ, hbody, hns⟩, -⟩ := hbody hl
    refine ⟨body, ns, φ, rfl, hbody, ?_⟩
    rw [← hns]
    exact Reading.current_of_peek hl (by decide)
  rw [Parse.forLoop]
  refine .expect (fun hl => .expect (fun hlet => ?_) fun t => .pure trivial) fun t => .pure trivial
  refine .ite (fun hh => absurd hh (by simp)) fun _ => .bind (h.letVar _) fun init t => .advance ?_
  refine .bind (h.expr _ _) fun c u => .expect (fun hm => ?_) fun t => .pure trivial
  have hend : ∀ next (v w : Reading) st, WrittenBefore e (.step next) u.advance.advance.rest
      v.rest → (∃ body ns φ, st = some (.forLoop (init.getD .missing) c next body) ∧
        WrittenAs e (.block body) ns φ ∧ v.rest = v.current :: (ns ++ w.advance.rest)) →
      OperandRead e 0 c t.advance.rest u →
      (∃ x ∈ init, WrittenBefore e (.stmt x) s.advance.advance.rest t.advance.rest ∧
        x.isLet = true) →
      s.current.kind = .forWord → ∃ x ∈ st, WrittenBefore e (.stmt x) s.rest w.advance.rest := by
    rintro next v w st ⟨ms, υ, hnext, hms⟩ ⟨body, ns, φ, rfl, hbody, hns⟩ ⟨m, ls, τ, hc, hls, -⟩
      ⟨x, hx, ⟨is, σ, hinit, his⟩, hxlet⟩ hk
    obtain rfl := Option.mem_def.mp hx
    refine ⟨_, rfl, _, _, .forLoop (r := v.current) hk hl hinit hxlet hc hm hnext hbody, ?_⟩
    rw [Reading.rest_of_kind hk (by decide), Reading.rest_of_peek hl (by decide), his, hls,
      Reading.rest_of_peek hm (by decide), hms, hns]
    simp
  refine .ite (fun hh => absurd hh (by simp)) fun _ => .advance (.ite (fun _ => ?_) fun _ => ?_)
  · refine .bind (h.expressionStep _) fun next v => (hbody init c next v).mono ?_
    exact fun st w hst hnext hc hinit hk => hend next v w st hnext hst hc.1 (hinit hlet) hk
  · refine .bind (h.assignment _) fun next v => (hbody init c next v).mono ?_
    exact fun st w hst hnext hc hinit hk => hend next v w st hnext.1 hst hc.1 (hinit hlet) hk

theorem statement_succ (h : Accounts e n) (s : Reading) :
    Traces (Parse.statement e (n + 1)) s fun st t =>
      ∃ x ∈ st, WrittenBefore e (.stmt x) s.rest t.advance.rest := by
  rw [Parse.statement]
  refine .current (.peekKind (.ite (fun _ => ?_) fun _ => ?_))
  · refine .bind (h.assignment _) fun st t => .pure ?_
    rintro ⟨⟨ls, σ, hst, hls⟩, target, op, x, rfl⟩
    refine ⟨_, rfl, _, _, .assign hst (r := t.rest.head?), ?_⟩
    rw [hls, List.append_assoc, ← t.rest_eq_head?]
  split
  · rename_i hk
    refine (h.letVar _).mono fun st t hst => ?_
    obtain ⟨x, hx, hls, -⟩ := hst hk
    exact ⟨x, hx, hls⟩
  · rename_i hk
    exact (h.function _).mono fun st t hst => hst hk
  · rename_i hk
    refine .advance (.bind (h.expr _ _) fun x t => .expect (fun hr => .pure ?_) fun t =>
      .pure trivial)
    rintro ⟨⟨m, ls, σ, hx, hls, -⟩, -⟩
    refine ⟨_, rfl, _, _, .ret hk hx hr, ?_⟩
    rw [Reading.rest_of_kind hk (by decide), hls, Reading.rest_of_peek hr (by decide)]
    simp
  · rename_i hk
    refine .advance (.bind (h.expr _ _) fun c t => .expect (fun hl => ?_) fun t => .pure trivial)
    refine .bind (h.block _) fun body u => .pure ?_
    rintro hbody ⟨⟨m, ls, σ, hc, hls, -⟩, -⟩
    obtain ⟨⟨ms, τ, hbody, hms⟩, -⟩ := hbody hl
    refine ⟨_, rfl, _, _, .whileLoop hk hc hbody, ?_⟩
    rw [Reading.rest_of_kind hk (by decide), hls, hms]
    simp
  · rename_i hk
    refine .advance (.pure ⟨_, rfl, _, _, .breakLoop hk (r := s.advance.rest.head?), ?_⟩)
    rw [Reading.rest_of_kind hk (by decide), List.cons_append, ← s.advance.rest_eq_head?]
  · rename_i hk
    refine .advance (.pure ⟨_, rfl, _, _, .continueLoop hk (r := s.advance.rest.head?), ?_⟩)
    rw [Reading.rest_of_kind hk (by decide), List.cons_append, ← s.advance.rest_eq_head?]
  · rename_i hk
    exact (h.forLoop _).mono fun st t hst => hst hk
  · rename_i hk
    refine .expect (fun hpath => .current ?_) fun t => .pure trivial
    refine .expect (fun hr => .pure ⟨_, rfl, _, _, .importPallet hk hpath hr, ?_⟩) fun t =>
      .pure trivial
    rw [Reading.rest_of_kind hk (by decide), Reading.rest_of_peek hpath (by decide),
      Reading.rest_of_peek hr (by decide)]
    rfl
  · refine .bind (h.expr _ _) fun x t =>
      .peekKind (.ite (fun hr => .advance (.pure ?_)) fun _ => .pure ?_)
    · rintro ⟨⟨m, ls, σ, hx, hls, -⟩, -⟩
      refine ⟨_, rfl, _, _, .closedExpr hx hr, ?_⟩
      rw [hls, Reading.rest_of_peek hr (by decide)]
      simp
    · rintro ⟨⟨m, ls, σ, hx, hls, -⟩, -⟩
      exact ⟨_, rfl, ls, σ, .expr hx, hls⟩

end Accounts

end

theorem accounts (e : Edition) (n : Nat) : Accounts e n := by
  induction n with
  | zero => exact .of_zero
  | succ n h => exact {
      moreParams := h.moreParams_succ
      params := params_accounts h.moreParams_succ
      expr := h.expr_succ
      continued := h.continued_succ
      arguments := h.arguments_succ
      moreArguments := h.moreArguments_succ
      conditional := h.conditional_succ
      block := h.block_succ
      statements := h.statements_succ
      statement := h.statement_succ
      assignment := h.assignment_succ
      letVar := h.letVar_succ
      function := h.function_succ
      expressionStep := h.expressionStep_succ
      forLoop := h.forLoop_succ }

/-- Lexemes that are read without errors are a text of the program that they give. -/
theorem Parsed.writtenAs_of_errors_nil {e : Edition} {ls : List Lexeme}
    (hls : ∀ l ∈ ls, l.kind ≠ .eof) (h : (Parsed.ofLexemes e ls).errors = []) :
    ∃ σ, WrittenAs e (.stmts (Parsed.ofLexemes e ls).program) ls σ := by
  obtain ⟨new, herr, hnew⟩ := ((accounts e (8 * ls.length + 8)).statements false ⟨ls, []⟩).records
  have hnil : new = [] := by simpa [Parsed.ofLexemes, herr] using h
  obtain ⟨⟨ms, σ, hms, hrest⟩, hend⟩ := hnew hnil hls
  have hend := hend.resolve_right fun h => Bool.false_ne_true h.1
  obtain rfl : ls = ms := by simpa [hend] using hrest
  exact ⟨σ, hms⟩

/-- A source that is read without errors is a text of the program that it gives, so every lexeme
belongs to a part of the program or to a place where the text departs from the grammar. If there are
no such places, up to semicolons missing at the end, then the brackets match, and besides
parentheses and semicolons the source has just the lexemes of the program, which are those of its
canonical text. -/
theorem source_accounted (e : Edition) (source : String)
    (hscan : (Scan.ofSource e source).failure = none)
    (herr : (Parsed.ofLexemes e (Scan.ofSource e source).lexemes).errors = []) :
    let ls := (Scan.ofSource e source).lexemes
    let p := (Parsed.ofLexemes e ls).program
    (∃ slips, WrittenAs e (.stmts p) ls slips) ∧
      (∀ slips, WrittenAs e (.stmts p) ls slips → Slip.Harmless slips →
        Balanced ls ∧ List.Forall₂ Lexeme.Alike (withoutMarks ls) (contents e p)) ∧
      (arePrintable e p = true → contents e p = withoutMarks (lexemes e p)) := by
  intro ls p
  obtain ⟨ps, last, ht⟩ := Tokenization.total e source.toList
  obtain ⟨-, -, -, hls⟩ := ht.ofSource_cases.resolve_right fun ⟨f, hf, _⟩ => by simp [hscan] at hf
  obtain ⟨hkind, hscanned⟩ : (∀ l ∈ ls, l.kind ≠ .eof) ∧ ∀ l ∈ ls, l.Scanned e := by
    simp only [ls, hls]
    exact ⟨ht.kind_ne_eof, ht.scanned⟩
  refine ⟨Parsed.writtenAs_of_errors_nil hkind herr, fun slips hw hslips => ?_, contents_eq⟩
  have hspells := hw.spells hslips hscanned
  exact ⟨hspells.balanced, hspells.alike⟩

/-- A function in slang, with parentheses that are needed and parentheses that are not. -/
theorem source_accounted_slang :
    let source := "fn f(b: int) -> int \x7b lit c: int be (b + 1) * 2; return (c); \x7d"
    let ls := (Scan.ofSource .latest source).lexemes
    let p := (Parsed.ofLexemes .latest ls).program
    (Scan.ofSource .latest source).failure = none ∧ (Parsed.ofLexemes .latest ls).errors = [] ∧
      Balanced ls ∧ List.Forall₂ Lexeme.Alike (withoutMarks ls) (contents .latest p) := by
  intro source ls p
  have hscan : (Scan.ofSource .latest source).failure = none := by decide +kernel
  have herr : (Parsed.ofLexemes .latest (Scan.ofSource .latest source).lexemes).errors = [] := by
    decide +kernel
  let int : Lexeme := ⟨.typeWord, .text "int"⟩
  let sum : List Lexeme := [.name "b", .infixOp .add, ⟨.int, .int 1⟩]
  let declaration : List Lexeme := ⟨.letWord, .text "lit"⟩ :: .name "c" :: .colon :: int ::
    ⟨.eq, .text "be"⟩ :: (grouped sum ++ [.infixOp .mul, ⟨.int, .int 2⟩, .semicolon])
  let result : List Lexeme := ⟨.returnWord, .text "return"⟩ :: (grouped [.name "c"] ++ [.semicolon])
  have hls : ls = ⟨.fnWord, .text "fn"⟩ :: .name "f" :: (grouped [.name "b", .colon, int] ++
      .arrow :: int :: braced (declaration ++ result)) := by decide +kernel
  let value : Expr := .infixed (.infixed (.ident "b") .add (.int 1)) .mul (.int 2)
  have hp : p = [.fn "f" (some [⟨.text "b", .text "int"⟩]) (.text "int")
      [.letVar "c" value "int", .ret (.ident "c")]] := by
    simp only [p, hls]
    rfl
  have hsum : WrittenAs .latest (.expr (.infixed (.ident "b") .add (.int 1)) 3) sum [] :=
    .infixed (.ident "b") (by decide) rfl (.int 1) (by decide)
  have hvalue : WrittenAs .latest (.expr value 4) (grouped sum ++ [.infixOp .mul, ⟨.int, .int 2⟩])
      [] :=
    .infixed (.group rfl hsum rfl) (by decide) rfl (.int 2) (by decide)
  have hdeclaration : WrittenAs .latest (.stmt (.letVar "c" value "int")) declaration [] :=
    @WrittenAs.letVar _ _ 4 ⟨.letWord, .text "lit"⟩ (.name "c") .colon int ⟨.eq, .text "be"⟩ _ []
      (some .semicolon) [] rfl rfl rfl rfl rfl hvalue (List.forall_mem_nil _)
      (fun l hl => Option.some.inj hl ▸ rfl)
  have hresult : WrittenAs .latest (.stmt (.ret (.ident "c"))) result [] :=
    .ret rfl (.group rfl (.ident "c") rfl) rfl
  have hbody := WrittenAs.block (l := .lbrace) (r := .rbrace) rfl
    (.cons hdeclaration (.cons hresult .nil)) rfl
  have hparams := ParamsWrittenAs.first (n := .name "b") (c := .colon) (t := int) rfl
  have hfn := @WrittenAs.fn .latest _ _ ⟨.fnWord, .text "fn"⟩ (.name "f") .lparen .rparen .arrow int
    _ _ _ _ rfl rfl rfl hparams rfl rfl hbody
  have hw : WrittenAs .latest (.stmts p) ls [] := by
    rw [hp, hls]
    exact .cons hfn .nil
  exact ⟨hscan, herr, (source_accounted .latest source hscan herr).2.1 [] hw
    (by simp [Slip.Harmless])⟩

/-- A declaration does not end where its value does: what stands behind the value is left out. -/
theorem declaration_lexeme_unaccounted :
    let ls := (Scan.ofSource .latest "let a: int = 5 6;").lexemes
    let p := (Parsed.ofLexemes .latest ls).program
    (Scan.ofSource .latest "let a: int = 5 6;").failure = none ∧
      (Parsed.ofLexemes .latest ls).errors = [] ∧
      ¬ List.Forall₂ Lexeme.Alike (withoutMarks ls) (contents .latest p) := by
  intro ls p
  have hlength : (withoutMarks ls).length ≠ (contents .latest p).length := by decide +kernel
  exact ⟨by decide +kernel, by decide +kernel, fun h => hlength h.length_eq⟩

end LimeLang
