import LimeLang.Proofs.ArithmeticEditions

/-! Expressions written with no more parentheses than their operators ask for. Reading such a text
gives the expression back, so the levels of the operators decide alone how they group: those of one
level from the left, and prefix operators between the binary ones and calls and steps. -/

namespace LimeLang

variable {ls : List Lexeme} {x : Expr}

/-- The level of the outermost operator. Nothing that follows can take a literal, a call or a step
apart. -/
def Expr.strength : Expr → Nat
  | .infixed _ op _ => op.level
  | .prefixed .. => prefixLevel
  | _ => stepLevel

def groupedIf (c : Bool) (ls : List Lexeme) : List Lexeme := if c then grouped ls else ls

mutual

/-- The lexemes of an expression, with parentheses around a left side that binds less strongly than
its operator, a right side that does not bind more strongly, a binary operand of a prefix operator,
and a binary or prefixed callee or operand of a step. -/
def Expr.compact (e : Edition) : Expr → List Lexeme
  | .infixed l op r =>
    groupedIf (l.strength < op.level) (l.compact e) ++
      .infixOp op :: groupedIf (r.strength ≤ op.level) (r.compact e)
  | .prefixed op r => .prefixOp op :: groupedIf (r.strength < prefixLevel) (r.compact e)
  | .stepped l op => groupedIf (l.strength ≤ prefixLevel) (l.compact e) ++ [.step op]
  | .call f args =>
    groupedIf (f.strength ≤ prefixLevel) (f.compact e) ++ grouped
      (separated (compactArguments e args))
  | x => x.lexemes e

def compactArguments (e : Edition) : List Expr → List (List Lexeme)
  | [] => []
  | x :: xs => x.compact e :: compactArguments e xs

end

theorem Expr.strength_pos (x : Expr) : 0 < x.strength := by
  cases x with
  | infixed _ op _ => exact op.level_pos
  | _ => simp [Expr.strength, prefixLevel, stepLevel]

theorem Continuation.level_le (c : Continuation) : c.level ≤ stepLevel := by
  cases c with
  | infixed op => exact (op.level_lt.trans (by decide : prefixLevel < stepLevel)).le
  | call => decide
  | step op => exact le_rfl

def Kind.beginsExpression : Kind → Bool
  | int | float | ident | string | trueWord | falseWord | lparen | minus | bang => true
  | _ => false

def Kind.inExpression : Kind → Bool
  | plus | asterisk | slash | pow | modulus | lt | gt | eqEq | notEq | ltEq | gtEq | plusPlus
  | minusMinus | comma | rparen => true
  | k => k.beginsExpression

theorem InfixOp.kind_inExpression (op : InfixOp) : op.kind.inExpression = true := by
  cases op <;> rfl

def Composed (e : Edition) (ls : List Lexeme) : Prop :=
  AllWritten e ls ∧ ∀ l ∈ ls, l.kind.inExpression = true

namespace Composed

variable {e : Edition} {l : Lexeme} {ls ms : List Lexeme}

theorem append (h : Composed e ls) (h' : Composed e ms) : Composed e (ls ++ ms) :=
  ⟨h.1.append h'.1, List.forall_mem_append.mpr ⟨h.2, h'.2⟩⟩

theorem cons (hl : l.Written e) (hk : l.kind.inExpression = true) (h : Composed e ls) :
    Composed e (l :: ls) :=
  ⟨.cons hl h.1, List.forall_mem_cons.mpr ⟨hk, h.2⟩⟩

theorem nil : Composed e [] := ⟨.nil, by simp⟩

theorem grouped (h : Composed e ls) : Composed e (grouped ls) := by
  refine ⟨h.1.grouped, List.forall_mem_cons.mpr ⟨rfl, ?_⟩⟩
  exact List.forall_mem_append.mpr ⟨h.2, by simp [Lexeme.rparen, Kind.inExpression]⟩

theorem groupedIf (c : Bool) (h : Composed e ls) : Composed e (groupedIf c ls) := by
  cases c with
  | true => exact h.grouped
  | false => exact h

theorem separated {lss : List (List Lexeme)} (hp : lss.length ≤ 1 ∨ e.has .parameters = true)
    (h : ∀ ls ∈ lss, Composed e ls) : Composed e (separated lss) := by
  refine ⟨.separated hp fun ls hls => (h ls hls).1, ?_⟩
  cases lss with
  | nil => simp [LimeLang.separated]
  | cons ls lss =>
    obtain ⟨hls, hlss⟩ := List.forall_mem_cons.mp h
    refine List.forall_mem_append.mpr ⟨hls.2, fun l hl => ?_⟩
    obtain ⟨ms, hms, hl⟩ := List.mem_flatMap.mp hl
    rcases List.mem_cons.mp hl with rfl | hl
    · rfl
    · exact (hlss ms hms).2 l hl

theorem atom (h : x.isPrintable e = true) (hx : x.compact e = x.lexemes e)
    (hl : x.lexemes e = [l]) (hk : l.kind.inExpression = true) : Composed e (x.compact e) := by
  refine ⟨hx ▸ Expr.lexemes_written x h, ?_⟩
  rw [hx, hl]
  simpa using hk

end Composed

mutual

theorem Expr.compact_composed {e : Edition} : ∀ x : Expr, x.isPrintable e = true →
    Composed e (x.compact e)
  | .missing | .openCall _ | .ifThen .. | .ifElse .. => by simp [Expr.isPrintable]
  | .int _ | .float _ | .ident _ | .bool true | .bool false | .str _ => fun h => .atom h rfl rfl rfl
  | .infixed l op r => by
    intro h
    simp only [Expr.isPrintable, Bool.and_eq_true] at h
    rw [Expr.compact]
    exact ((Expr.compact_composed l h.1.2).groupedIf _).append
      (.cons (InfixOp.written h.1.1) op.kind_inExpression
      ((Expr.compact_composed r h.2).groupedIf _))
  | .prefixed op r => by
    intro h
    simp only [Expr.isPrintable, Bool.and_eq_true] at h
    rw [Expr.compact]
    exact .cons (PrefixOp.written h.1) (by cases op <;> rfl)
      ((Expr.compact_composed r h.2).groupedIf _)
  | .stepped l op => by
    intro h
    simp only [Expr.isPrintable, Bool.and_eq_true] at h
    rw [Expr.compact]
    exact ((Expr.compact_composed l h.2).groupedIf _).append
      (.cons (StepOp.written h.1) (by cases op <;> rfl) .nil)
  | .call f args => by
    intro h
    simp only [Expr.isPrintable, Bool.and_eq_true, Bool.or_eq_true, List.isEmpty_iff] at h
    rw [Expr.compact]
    refine ((Expr.compact_composed f h.1.1.2).groupedIf _).append
      (.grouped (.separated ?_ (compactArguments_composed args h.1.2)))
    rcases h.2 with rfl | hp
    · simp [compactArguments]
    · exact .inr hp

theorem compactArguments_composed {e : Edition} : ∀ args : List Expr,
    Expr.isPrintable.arePrintable e args = true → ∀ ls ∈ compactArguments e args, Composed e ls
  | [] => by simp [compactArguments]
  | x :: xs => by
    intro h
    simp only [Expr.isPrintable.arePrintable, Bool.and_eq_true] at h
    rw [compactArguments]
    exact List.forall_mem_cons.mpr ⟨Expr.compact_composed x h.1, compactArguments_composed xs h.2⟩

end

theorem groupedIf_begins {c : Bool} {ls ms : List Lexeme}
    (h : ∃ l ks, ls = l :: ks ∧ l.kind.beginsExpression = true) :
    ∃ l ks, groupedIf c ls ++ ms = l :: ks ∧ l.kind.beginsExpression = true := by
  cases c with
  | true => exact ⟨.lparen, _, rfl, rfl⟩
  | false =>
    obtain ⟨l, ks, rfl, hl⟩ := h
    exact ⟨l, ks ++ ms, rfl, hl⟩

theorem Expr.compact_begins {e : Edition} : ∀ x : Expr, x.isPrintable e = true →
    ∃ l ls, x.compact e = l :: ls ∧ l.kind.beginsExpression = true
  | .missing | .openCall _ | .ifThen .. | .ifElse .. => by simp [Expr.isPrintable]
  | .int _ | .float _ | .ident _ | .bool true | .bool false | .str _ => fun _ => ⟨_, [], rfl, rfl⟩
  | .infixed l op r => by
    intro h
    simp only [Expr.isPrintable, Bool.and_eq_true] at h
    rw [Expr.compact]
    exact groupedIf_begins (Expr.compact_begins l h.1.2)
  | .prefixed op r => fun _ => ⟨.prefixOp op, _, by rw [Expr.compact], by cases op <;> rfl⟩
  | .stepped l op => by
    intro h
    simp only [Expr.isPrintable, Bool.and_eq_true] at h
    rw [Expr.compact]
    exact groupedIf_begins (Expr.compact_begins l h.2)
  | .call f args => by
    intro h
    simp only [Expr.isPrintable, Bool.and_eq_true] at h
    rw [Expr.compact]
    exact groupedIf_begins (Expr.compact_begins f h.1.1.2)

section Reading

variable {e : Edition}

theorem NoneAbove.mono {m n : Nat} (h : NoneAbove e m ls) (hmn : m ≤ n) :
    NoneAbove e n ls := fun c hc => (h c hc).trans hmn

theorem noneAbove_step (ls : List Lexeme) : NoneAbove e stepLevel ls := fun c _ => c.level_le

theorem noneAbove_of_none {m : Nat} {l : Lexeme} (h : l.kind.continuation? e = none) :
    NoneAbove e m (l :: ls) := by
  intro c hc
  rw [List.headD_cons, h] at hc
  cases hc

theorem noneAbove_operator {m : Nat} {op : InfixOp} (h : op.level ≤ m) :
    NoneAbove e m (.infixOp op :: ls) := by
  intro c hc
  obtain rfl : Continuation.infixed op = c := Option.some.inj (op.continuation.symm.trans hc)
  exact h

/-- Reading the lexemes comes to the end of them and goes on from `x`, if nothing behind them binds
more strongly than `s`. Only a binary operator, below the level of prefix operators, has to bind
more strongly than the level at which it is read. -/
def ReadsAs (e : Edition) (s : Nat) (ls : List Lexeme) (x : Expr) : Prop :=
  ∀ level n, level ≤ prefixLevel → (s < prefixLevel → level < s) → 2 * ls.length < n →
    ∃ m l, n ≤ m + 2 * ls.length ∧ ∀ rest errs, NoneAbove e s rest →
      Parse.expr e n level ⟨ls ++ rest, errs⟩ = Parse.continued e m level x ⟨l :: rest, errs⟩

namespace ReadsAs

variable {s t n level : Nat} {ls ms rest : List Lexeme} {x y : Expr} {errs : List ParseError}

theorem stops (h : ReadsAs e s ls x) (hlevel : level ≤ prefixLevel) (hs : s < prefixLevel →
    level < s) (hle : level ≤ s) (hrest : NoneAbove e level rest) (hn : 2 * ls.length < n) :
    ∃ l, Yields (Parse.expr e n level) ⟨ls ++ rest, errs⟩ x ⟨l :: rest, errs⟩ := by
  obtain ⟨m, l, hm, hread⟩ := h level n hlevel hs hn
  obtain _ | m := m
  · omega
  exact ⟨l, (hread rest errs (hrest.mono hle)).trans (continued_of_noneAbove hrest)⟩

theorem whole (h : ReadsAs e s ls x) (hs : 0 < s) {l : Lexeme} (hl : l.kind.continuation? e = none)
    (rest : List Lexeme) (errs : List ParseError) (hn : 2 * ls.length < n) :
    ∃ k, Yields (Parse.expr e n 0) ⟨ls ++ l :: rest, errs⟩ x ⟨k :: l :: rest, errs⟩ :=
  h.stops (Nat.zero_le _) (fun _ => hs) (Nat.zero_le _) (noneAbove_of_none hl) hn

theorem atom {l : Lexeme} (h : ∀ n level ls errs, Parse.expr e (n + 1) level ⟨l :: ls, errs⟩ =
    Parse.continued e n level x ⟨l :: ls, errs⟩) : ReadsAs e stepLevel [l] x := by
  intro level n _ _ hn
  obtain _ | n := n
  · omega
  exact ⟨n, l, by simp only [List.length_singleton]; omega, fun rest errs _ => h n level rest errs⟩

theorem grouped (h : ReadsAs e s ls x) (hs : 0 < s) : ReadsAs e stepLevel (grouped ls) x := by
  intro level n _ _ hn
  have hlength : (LimeLang.grouped ls).length = ls.length + 2 := by simp [LimeLang.grouped]
  obtain _ | n := n
  · omega
  refine ⟨n, .rparen, by omega, fun rest errs _ => ?_⟩
  obtain ⟨k, hk⟩ := h.whole (l := .rparen) (n := n) hs rfl rest errs (by omega)
  rw [LimeLang.grouped, List.cons_append, List.append_assoc, Parse.expr]
  exact Yields.current (.advance (.bind hk (.expect rfl rfl)))

theorem groupedIf {c : Bool} (h : ReadsAs e s ls x) (hs : 0 < s) :
    ReadsAs e (if c then stepLevel else s) (groupedIf c ls) x := by
  cases c with
  | true => exact h.grouped hs
  | false => exact h

theorem infixed {op : InfixOp} (hx : ReadsAs e s ls x) (hs : op.level ≤ s) (hy : ReadsAs e t ms y)
    (ht : op.level < t) : ReadsAs e op.level (ls ++ .infixOp op :: ms) (.infixed x op y) := by
  intro level n hlevel hlt hn
  have hop := op.level_lt
  have hbelow : level < op.level := hlt hop
  simp only [List.length_append, List.length_cons] at hn ⊢
  obtain ⟨m, l, hm, hleft⟩ := hx level n hlevel (fun _ => by omega) (by omega)
  obtain _ | m := m
  · omega
  obtain ⟨k, r, hk, hright⟩ := hy op.level m hop.le (fun _ => ht) (by omega)
  obtain _ | k := k
  · omega
  refine ⟨m, r, by omega, fun rest errs hrest => ?_⟩
  -- the left side ends before the operator, and the right side where the whole expression does
  rw [List.append_assoc, List.cons_append, hleft _ errs (noneAbove_operator hs),
    continued_of_operator hbelow,
    Reader.bind_apply, hright rest errs (hrest.mono ht.le), continued_of_noneAbove hrest]

theorem prefixed {op : PrefixOp} (he : e.has .compoundAssignment = true) (hx : ReadsAs e s ls x)
    (hs : prefixLevel ≤ s) : ReadsAs e prefixLevel (.prefixOp op :: ls) (.prefixed op x) := by
  intro level n _ _ hn
  simp only [List.length_cons] at hn ⊢
  obtain _ | n := n
  · omega
  obtain ⟨m, l, hm, hread⟩ := hx prefixLevel n le_rfl (fun h => absurd h (by omega)) (by omega)
  obtain _ | m := m
  · omega
  refine ⟨n, l, by omega, fun rest errs hrest => ?_⟩
  have hoperand : Yields (Parse.expr e n prefixLevel) ⟨ls ++ rest, errs⟩ x ⟨l :: rest, errs⟩ :=
    (hread rest errs (hrest.mono hs)).trans (continued_of_noneAbove hrest)
  rw [List.cons_append, Parse.expr]
  cases op with
  | neg => exact Yields.current (.ite_pos he (.advance (.bind hoperand rfl)))
  | not => exact Yields.current (.advance (.bind hoperand rfl))

theorem stepped {op : StepOp} (hx : ReadsAs e stepLevel ls x) :
    ReadsAs e stepLevel (ls ++ [.step op]) (.stepped x op) := by
  intro level n hlevel _ hn
  simp only [List.length_append, List.length_singleton] at hn ⊢
  obtain ⟨m, l, hm, hread⟩ := hx level n hlevel (fun h => absurd h (by decide)) (by omega)
  obtain _ | m := m
  · omega
  refine ⟨m, .step op, by omega, fun rest errs _ => ?_⟩
  rw [List.append_assoc, hread _ errs (noneAbove_step _), List.singleton_append, Parse.continued]
  refine Yields.peekKind ?_
  simp only [Lexeme.step, op.continuation]
  exact .ite_pos (hlevel.trans_lt (show prefixLevel < stepLevel by decide)) (.advance rfl)

end ReadsAs

section Arguments

variable {args : List Expr} {n : Nat} {r : List Lexeme} {errs : List ParseError}

theorem moreArguments_compact (h : ∀ x ∈ args, ReadsAs e x.strength (x.compact e) x)
    (acc : List Expr)
    (l : Lexeme) (hn : 2 * ((compactArguments e args).flatMap fun ms => .comma :: ms).length < n) :
    Yields (Parse.moreArguments e n acc)
      ⟨l :: ((compactArguments e args).flatMap (fun ms => .comma :: ms) ++ .rparen :: r), errs⟩
      (some (acc ++ args)) ⟨.rparen :: r, errs⟩ := by
  induction args generalizing acc l n with
  | nil =>
    obtain _ | n := n
    · omega
    rw [compactArguments, Parse.moreArguments, List.append_nil]
    exact .peekKind (.ite_neg (by simp [Lexeme.rparen]) (.expect rfl (.ite_pos rfl .pure)))
  | cons x xs ih =>
    obtain _ | n := n
    · omega
    obtain ⟨hx, hxs⟩ := List.forall_mem_cons.mp h
    obtain ⟨m, r', hr, hm⟩ := arguments_stop (e := e) (compactArguments e xs) r
    simp only [compactArguments, List.flatMap_cons, List.length_append, List.length_cons] at hn
    obtain ⟨k, hk⟩ := hx.whole (n := n) x.strength_pos hm r' errs (by omega)
    have hrest := ih (n := n) hxs (acc ++ [x]) k (by omega)
    rw [hr, List.append_assoc, List.singleton_append] at hrest
    rw [compactArguments, Parse.moreArguments, List.flatMap_cons, List.append_assoc, hr]
    exact .peekKind (.ite_pos rfl (.advance (.advance (.bind hk hrest))))

theorem arguments_compact (h : ∀ x ∈ args, ReadsAs e x.strength (x.compact e) x)
    (hprint : Expr.isPrintable.arePrintable e args = true)
    (hn : 2 * (separated (compactArguments e args)).length + 1 < n) :
    Yields (Parse.arguments e n) ⟨grouped (separated (compactArguments e args)) ++ r, errs⟩
      (some args) ⟨.rparen :: r, errs⟩ := by
  obtain _ | n := n
  · omega
  rw [grouped, Parse.arguments]
  cases args with
  | nil => exact .peekKind (.ite_pos rfl (.advance .pure))
  | cons x xs =>
    obtain ⟨hx, hxs⟩ := List.forall_mem_cons.mp h
    simp only [Expr.isPrintable.arePrintable, Bool.and_eq_true] at hprint
    obtain ⟨first, others, hbegins, hfirst⟩ := Expr.compact_begins x hprint.1
    obtain ⟨m, r', hr, hm⟩ := arguments_stop (e := e) (compactArguments e xs) r
    simp only [compactArguments, separated, List.length_append] at hn
    obtain ⟨k, hk⟩ := hx.whole (n := n) x.strength_pos hm r' errs (by omega)
    have hrest : Yields _ _ _ ⟨.rparen :: r, errs⟩ :=
      moreArguments_compact (n := n) hxs [x] k (by omega)
    rw [hr] at hrest
    rw [compactArguments, separated, List.cons_append, List.append_assoc, List.append_assoc,
      List.singleton_append, hr]
    rw [hbegins] at hk ⊢
    refine .peekKind (.ite_neg ?_ (.advance (.bind hk hrest)))
    rintro hparen
    rw [hparen] at hfirst
    cases hfirst

theorem ReadsAs.call (hx : ReadsAs e stepLevel ls x) (hc : e.has .calls = true)
    (hp : args = [] ∨ e.has .parameters = true)
    (h : ∀ x ∈ args, ReadsAs e x.strength (x.compact e) x)
    (hprint : Expr.isPrintable.arePrintable e args = true) :
    ReadsAs e stepLevel (ls ++ LimeLang.grouped (separated (compactArguments e args)))
      (.call x args) := by
  intro level n hlevel _ hn
  have hlength (ms : List Lexeme) : (LimeLang.grouped ms).length = ms.length +
    2 := by simp [LimeLang.grouped]
  simp only [List.length_append, hlength] at hn ⊢
  obtain ⟨m, l, hm, hread⟩ := hx level n hlevel (fun h => absurd h (by decide)) (by omega)
  obtain _ | m := m
  · omega
  refine ⟨m, .rparen, by omega, fun rest errs _ => ?_⟩
  have hk : Kind.continuation? e Lexeme.lparen.kind = some .call := by
    simp [Lexeme.lparen, Kind.continuation?, hc]
  rw [List.append_assoc, hread _ errs (noneAbove_step _), Parse.continued]
  refine Yields.peekKind ?_
  rw [hk]
  refine .ite_pos (hlevel.trans_lt (show prefixLevel < callLevel by decide)) (.advance ?_)
  by_cases hf : e.has .parameters = true
  · exact .ite_pos hf (.bind (arguments_compact h hprint (by omega)) rfl)
  · obtain rfl := hp.resolve_right hf
    exact .ite_neg hf (.expect rfl rfl)

end Arguments

/-- A callee or the operand of a step: a binary or prefixed expression stands in parentheses. -/
theorem ReadsAs.operand (h : ReadsAs e x.strength ls x) :
    ReadsAs e stepLevel (LimeLang.groupedIf (x.strength ≤ prefixLevel) ls) x := by
  cases x with
  | infixed l op r =>
    rw [decide_eq_true (show Expr.strength (.infixed l op r) ≤ prefixLevel from op.level_lt.le)]
    exact h.grouped op.level_pos
  | prefixed op r => exact h.grouped (Expr.strength_pos _)
  | _ => exact h

mutual

theorem Expr.readsAs : ∀ x : Expr, x.isPrintable e = true → ReadsAs e x.strength (x.compact e) x
  | .missing | .openCall _ | .ifThen .. | .ifElse .. => by simp [Expr.isPrintable]
  | .int _ | .float _ | .bool true | .bool false | .str _ => fun _ => .atom fun _ _ _ _ => by
    rw [Parse.expr]
    rfl
  | .ident s => by
    intro h
    simp only [Expr.isPrintable, Bool.and_eq_true] at h
    refine .atom (l := .name s) fun n level ls errs => ?_
    rw [Parse.expr]
    exact Yields.current (.ite_pos h.1 rfl)
  | .infixed l op r => by
    intro h
    simp only [Expr.isPrintable, Bool.and_eq_true] at h
    have hop : op.level < stepLevel := op.level_lt.trans (by decide)
    rw [Expr.compact]
    refine ((Expr.readsAs l h.1.2).groupedIf l.strength_pos).infixed ?_
      ((Expr.readsAs r h.2).groupedIf r.strength_pos) ?_
    · simp only [decide_eq_true_eq]
      split <;> omega
    · simp only [decide_eq_true_eq]
      split <;> omega
  | .prefixed op r => by
    intro h
    simp only [Expr.isPrintable, Bool.and_eq_true] at h
    rw [Expr.compact]
    refine ((Expr.readsAs r h.2).groupedIf r.strength_pos).prefixed h.1 ?_
    simp only [decide_eq_true_eq]
    split
    · decide
    · omega
  | .stepped l op => by
    intro h
    simp only [Expr.isPrintable, Bool.and_eq_true] at h
    rw [Expr.compact]
    exact (Expr.readsAs l h.2).operand.stepped
  | .call f args => by
    intro h
    simp only [Expr.isPrintable, Bool.and_eq_true, Bool.or_eq_true, List.isEmpty_iff] at h
    rw [Expr.compact]
    exact (Expr.readsAs f h.1.1.2).operand.call h.1.1.1 h.2 (readsAs_arguments args h.1.2) h.1.2

theorem readsAs_arguments : ∀ args : List Expr, Expr.isPrintable.arePrintable e args = true →
    ∀ x ∈ args, ReadsAs e x.strength (x.compact e) x
  | [] => by simp
  | x :: xs => by
    intro h
    simp only [Expr.isPrintable.arePrintable, Bool.and_eq_true] at h
    exact List.forall_mem_cons.mpr ⟨Expr.readsAs x h.1, readsAs_arguments xs h.2⟩

end

end Reading

end LimeLang
