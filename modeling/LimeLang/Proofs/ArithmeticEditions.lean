import LimeLang.Proofs.PrecedenceClimbing

/-! Arithmetic means the same in all editions. Later editions have more lexemes, and more of them go
on from an operand, but none that could come up inside of an expression of numbers. -/

namespace LimeLang

section Phrases

variable {e : Edition}

/-- No continuation at the beginning binds more strongly than `level`. -/
def NoneAbove (e : Edition) (level : Nat) (ls : List Lexeme) : Prop :=
  ∀ c, (ls.headD .eof).kind.continuation? e = some c → c.level ≤ level

theorem continued_of_noneAbove {n level : Nat} {x : Expr} {l : Lexeme} {rest : List Lexeme}
    {errs : List ParseError} (h : NoneAbove e level rest) :
    Parse.continued e (n + 1) level x ⟨l :: rest, errs⟩ = (x, ⟨l :: rest, errs⟩) := by
  cases rest with
  | nil =>
    rw [Parse.continued]
    rfl
  | cons m rest =>
    rw [Parse.continued]
    refine Yields.peekKind ?_
    cases hc : m.kind.continuation? e with
    | none => exact .pure
    | some c => exact .ite_neg (not_lt.mpr (h c hc)) .pure

/-- Reading an ordered phrase comes to the end of it and goes on from its tree. -/
theorem Phrase.reads {p : Phrase} (hp : p.Ordered) (level : Nat) {n : Nat}
    (habove : ∀ o ∈ p.operator?, level < o.level) (hn : p.lexemes.length < n) :
    ∃ m l, n ≤ m + p.lexemes.length ∧ ∀ rest errs, (∀ o ∈ p.operator?, NoneAbove e o.level rest) →
      Parse.expr e n level ⟨p.lexemes ++ rest, errs⟩ = Parse.continued e m level p.expr
        ⟨l :: rest, errs⟩ := by
  induction p generalizing level n with
  | int k =>
    obtain _ | n := n
    · omega
    refine ⟨n, ⟨.int, .int k⟩, le_rfl, fun rest errs _ => ?_⟩
    rw [Parse.expr]
    rfl
  | float x =>
    obtain _ | n := n
    · omega
    refine ⟨n, ⟨.float, .float x⟩, le_rfl, fun rest errs _ => ?_⟩
    rw [Parse.expr]
    rfl
  | group q ih =>
    have hlength : (group q).lexemes.length = q.lexemes.length + 2 := by simp [lexemes, grouped]
    obtain _ | n := n
    · omega
    obtain ⟨m, l, hm, hinner⟩ := ih hp 0 (n := n) (fun o _ => o.level_pos) (by omega)
    obtain _ | m := m
    · omega
    refine ⟨n, .rparen, by omega, fun rest errs _ => ?_⟩
    have hclose : ∀ level, NoneAbove e level (.rparen :: rest) := fun level c hc => by cases hc
    have hread := (hinner (.rparen :: rest) errs fun o _ => hclose o.level).trans
      (continued_of_noneAbove (hclose 0))
    have hshape : (group q).lexemes ++ rest = .lparen :: (q.lexemes ++ .rparen :: rest) := by
      simp [lexemes, grouped]
    rw [hshape, Parse.expr]
    exact Yields.current (.advance (Yields.bind hread (.expect rfl rfl)))
  | infixed l op r ihl ihr =>
    obtain ⟨hl, hr, hleft, hright⟩ := hp
    have hlevel : level < op.level := habove op rfl
    have hlength : (infixed l op r).lexemes.length = l.lexemes.length + (r.lexemes.length + 1) := by
      simp [lexemes]
    obtain ⟨m, a, hm, hreadl⟩ := ihl hl level (n := n)
      (fun o ho => lt_of_lt_of_le hlevel (hleft o ho)) (by omega)
    obtain _ | m := m
    · omega
    obtain ⟨k, b, hk, hreadr⟩ := ihr hr op.level (n := m) hright (by omega)
    obtain _ | k := k
    · omega
    refine ⟨m, b, by omega, fun rest errs hstop => ?_⟩
    have hshape : (infixed l op r).lexemes ++ rest = l.lexemes ++ .infixOp op ::
        (r.lexemes ++ rest) := by
      simp [lexemes]
    -- the left side stops before `op`, and the right side where the whole phrase does
    have hstopl : ∀ o ∈ l.operator?, NoneAbove e o.level (.infixOp op :: (r.lexemes ++ rest)) := by
      intro o ho c hc
      obtain rfl : Continuation.infixed op = c := Option.some.inj (op.continuation.symm.trans hc)
      exact hleft o ho
    have hstopr : ∀ o ∈ r.operator?, NoneAbove e o.level rest :=
      fun o ho c hc => (hstop op rfl c hc).trans (hright o ho).le
    rw [hshape, hreadl _ errs hstopl, continued_of_operator hlevel, Reader.bind_apply,
      hreadr rest errs hstopr, continued_of_noneAbove (hstop op rfl)]
    rfl

/-- Phrases with semicolons behind them are read back in every edition. -/
theorem statements_of_phrases {ps : List Phrase} (hps : ∀ p ∈ ps, p.Ordered)
    (hearly : ∀ p ∈ ps, ∀ l ∈ p.lexemes, l.IsEarly) {n : Nat} {errs : List ParseError}
    (hn : (ps.flatMap fun p => p.lexemes ++ [.semicolon]).length + 3 ≤ n) :
    Parse.statements e n false ⟨ps.flatMap fun p => p.lexemes ++ [.semicolon], errs⟩ =
      (ps.map fun p => .expr p.expr, ⟨[], errs⟩) := by
  induction ps generalizing n with
  | nil =>
    obtain _ | n := n
    · omega
    exact statements_of_eof rfl
  | cons p ps ih =>
    obtain ⟨hp, hps⟩ := List.forall_mem_cons.mp hps
    obtain ⟨hpearly, hearly⟩ := List.forall_mem_cons.mp hearly
    simp only [List.flatMap_cons, List.length_append, List.length_singleton] at hn
    obtain ⟨n, rfl⟩ : ∃ m, n = m + 2 := ⟨n - 2, by omega⟩
    obtain ⟨m, l, hm, hread⟩ := Phrase.reads (e := e) hp 0 (n := n) (fun o _ => o.level_pos)
      (by omega)
    obtain _ | m := m
    · omega
    obtain ⟨first, tail, hfirst, -⟩ := (Phrase.isExpression hpearly).head
    have hclose : ∀ level, NoneAbove e level (.semicolon :: ps.flatMap fun p =>
        p.lexemes ++ [.semicolon]) :=
      fun level c hc => by cases hc
    have hexpr := (hread _ errs fun o _ => hclose o.level).trans (continued_of_noneAbove (hclose 0))
    have hshape : (p :: ps).flatMap (fun p => p.lexemes ++ [.semicolon]) =
        first :: (tail ++ .semicolon :: ps.flatMap fun p => p.lexemes ++ [.semicolon]) := by
      simp [hfirst]
    rw [hfirst, List.cons_append] at hexpr
    have hbegins : first.IsEarly := hpearly first (by simp [hfirst])
    obtain ⟨t, ht, hadvance⟩ := statement_of_expr hbegins hexpr
    rw [hshape, statements_of_not_eof (s := ⟨first :: _, errs⟩) hbegins.kind_ne_eof, ht]
    dsimp only
    have hrest : t.advance = ⟨ps.flatMap fun p => p.lexemes ++ [.semicolon], errs⟩ := hadvance
    rw [hrest, ih hps hearly (by omega)]
    rfl

end Phrases

theorem greedySplit_closed {parts : List (List Lexeme)} (h : ∀ part ∈ parts, IsExpression part) :
    GreedySplit (parts.flatMap (· ++ [.semicolon])) parts := by
  induction parts with
  | nil => exact .nil
  | cons part parts ih =>
    obtain ⟨hpart, hparts⟩ := List.forall_mem_cons.mp h
    have hstop : ¬ BeginsWithOperator (.semicolon :: parts.flatMap (· ++ [.semicolon])) :=
      not_beginsWithOperator rfl
    rw [List.flatMap_cons, List.append_assoc, List.singleton_append]
    exact .cons hpart (hpart.longest hstop) (ih hparts)

/-- Every expression of the first editions is an ordered phrase. -/
theorem exists_phrases {parts : List (List Lexeme)} (h : ∀ part ∈ parts, IsExpression part)
    (hearly : ∀ l ∈ parts.flatMap (· ++ [.semicolon]), l.IsEarly) :
    ∃ ps : List Phrase, ps.map Phrase.lexemes = parts ∧ ∀ p ∈ ps, p.Ordered := by
  let ls := parts.flatMap (· ++ [.semicolon])
  have hsplit := greedySplit_closed h
  have hread : (Parse.statements ⟨2, by decide⟩ (2 * ls.length + 4) false ⟨ls, []⟩).2.errors = [] :=
    hsplit.areExpressions.reads (by decide) hearly le_rfl
  obtain ⟨ps, -, hps, hordered⟩ := statements_phrases (s := ⟨ls, []⟩) (by decide) hearly rfl hread
  exact ⟨ps, hps.unique hsplit, hordered⟩

section Lexing

/-- No lexeme is illegal, and no operator stands directly behind another. -/
structure Spaced (ls : List Lexeme) : Prop where
  legal : ∀ l ∈ ls, l.kind ≠ .illegal
  apart : ls.IsChain fun a b => a.kind.isArithmetic = true → b.kind.isArithmetic = false

theorem Spaced.append {ls ms : List Lexeme} (hls : Spaced ls) (hms : Spaced ms)
    (h : ∀ a ∈ ls.getLast?, ∀ b ∈ ms.head?, a.kind.isArithmetic = true →
    b.kind.isArithmetic = false) : Spaced (ls ++ ms) :=
  ⟨List.forall_mem_append.mpr ⟨hls.legal, hms.legal⟩,
    List.isChain_append.mpr ⟨hls.apart, hms.apart, h⟩⟩

theorem Spaced.singleton {l : Lexeme} (h : l.kind ≠ .illegal) : Spaced [l] :=
  ⟨by simpa using h, List.isChain_singleton l⟩

theorem Kind.ne_illegal_of_isArithmetic {k : Kind} (h : k.isArithmetic = true) : k ≠ .illegal := by
  rintro rfl
  cases h

theorem IsOperand.last {ls : List Lexeme} (h : IsOperand ls) :
    ∀ l ∈ ls.getLast?, l.kind.isArithmetic = false := by
  cases h with
  | number hl => rcases hl with hl | hl <;> simp [hl, Kind.isArithmetic]
  | @group l r ls _ _ hr =>
    rw [← List.cons_append, List.getLast?_concat]
    simp [hr, Kind.isArithmetic]

theorem IsExpression.first {ls : List Lexeme} (h : IsExpression ls) :
    ∀ l ∈ ls.head?, l.kind.isArithmetic = false := by
  obtain ⟨l, ms, rfl, hl⟩ := h.head
  rcases hl with hl | hl | hl <;> simp [hl, Kind.isArithmetic]

mutual

theorem IsOperand.spaced {ls : List Lexeme} : IsOperand ls → Spaced ls
  | .number hl => .singleton (by rcases hl with hl | hl <;> simp [hl])
  | .group (l := l) (r := r) hl hls hr => by
    have hclosed : Spaced (_ ++ [r]) := hls.spaced.append (.singleton (by simp [hr]))
      (by simp [hr, Kind.isArithmetic])
    exact (Spaced.singleton (l := l) (by simp [hl])).append hclosed
      (by simp [hl, Kind.isArithmetic])

theorem IsExpression.spaced {ls : List Lexeme} : IsExpression ls → Spaced ls
  | .operand h => h.spaced
  | .infixed (l := l) h hl hms => by
    have hright : Spaced (l :: _) :=
      (Spaced.singleton (Kind.ne_illegal_of_isArithmetic hl)).append hms.spaced fun _ _ b hb _ =>
        hms.first b hb
    refine h.spaced.append hright fun a ha b _ harith => ?_
    rw [h.last a ha] at harith
    cases harith

end

theorem spaced_closed {parts : List (List Lexeme)} (h : ∀ part ∈ parts, IsExpression part) :
    Spaced (parts.flatMap (· ++ [.semicolon])) := by
  induction parts with
  | nil => exact ⟨by simp, List.isChain_nil⟩
  | cons part parts ih =>
    obtain ⟨hpart, hparts⟩ := List.forall_mem_cons.mp h
    have hclosed : Spaced (part ++ [.semicolon]) :=
      hpart.spaced.append (.singleton (by decide)) fun _ _ b hb _ => Option.some.inj hb ▸ rfl
    rw [List.flatMap_cons]
    refine hclosed.append (ih hparts) fun a ha b _ harith => ?_
    rw [List.getLast?_concat] at ha
    rw [← Option.some.inj ha] at harith
    cases harith

/-- The characters that make an operator of the first editions longer in later ones. -/
def secondCharacters : List Char := ['>', '=', '+', '-']

theorem secondCharacters_plain {c : Char} (hc : c ∈ secondCharacters) :
    Text.isAsciiDigit c = false ∧ isBlank c = false := by
  have hall : secondCharacters.all (fun c => !Text.isAsciiDigit c && !isBlank c) = true := by decide
  simpa using List.all_eq_true.mp hall c hc

/-- In the first editions an operator is one character. A longer one of a later edition begins with
it only if it is arithmetic. -/
theorem operators_extended : ∀ s ∈ operators, s.feature.since ≤ 4 → ∀ s' ∈ operators,
    s.text.toList.isPrefixOf s'.text.toList = true → s'.text.toList.length ≤ s.text.toList.length ∨
      s.kind.isArithmetic = true ∧
        secondCharacters.any (fun c => s'.text.toList = s.text.toList ++ [c]) = true := by
  decide +kernel

theorem operators_beginning : ∀ s ∈ operators, s.feature.since ≤ 4 →
    s.text.toList.head?.any secondCharacters.contains = true → s.kind.isArithmetic = true := by
  decide +kernel

variable {d e : Edition}

theorem Reads.operator_or_illegal {c : Char} {t w : List Char} {l : Lexeme} (hd : d.number ≤ 4)
    (h : Reads d (c :: t) w l) (hc : c ∈ secondCharacters) :
    l.kind = .illegal ∨ l.kind.isArithmetic = true := by
  have hne := h.word_ne_nil
  cases h with
  | numeral hw _ =>
    have hdigit := hw.1.2.head hw.1.1
    rw [(secondCharacters_plain hc).1] at hdigit
    cases hdigit
  | word hf _ => exact absurd (Edition.since_le_of_has hd hf) (by decide)
  | string hf _ _ _ => exact absurd (Edition.since_le_of_has hd hf) (by decide)
  | @operator s hs hf hw =>
    obtain ⟨b, u, hbu⟩ := List.exists_cons_of_ne_nil hne
    have hprefix := hw.1.1
    rw [hbu, List.cons_prefix_cons] at hprefix
    exact .inr (operators_beginning s hs (Edition.since_le_of_has hd hf)
      (by simp [hbu, hprefix.1, hc]))
  | illegal _ _ _ => exact .inl rfl

theorem Tokenization.begins_with {c : Char} {t last : List Char} {ps : List Piece}
    (hd : d.number ≤ 4) (h : Tokenization d (c :: t) ps last) (hc : c ∈ secondCharacters) :
    ∃ l ls, ps.map Piece.lexeme = l :: ls ∧ (l.kind = .illegal ∨ l.kind.isArithmetic = true) := by
  have hgap : ∀ {gap : List Char}, (∀ b ∈ gap, isBlank b = true) → c ∉ gap := by
    intro gap h hmem
    have hblank := h c hmem
    rw [(secondCharacters_plain hc).2] at hblank
    cases hblank
  generalize hcs : c :: t = cs at h
  cases h with
  | done h => exact absurd (by simp [← hcs]) (hgap h)
  | @piece gap word rest _ l ps h hread _ =>
    obtain rfl : gap = [] := by
      cases gap with
      | nil => rfl
      | cons b gap => exact absurd (by simp [(List.cons.inj hcs).1]) (hgap h)
    rw [← List.nil_append (word ++ rest), ← hcs] at hread
    exact ⟨l, ps.map Piece.lexeme, rfl, hread.operator_or_illegal hd hc⟩

/-- A lexeme of the first editions is one of all later ones, unless what follows makes it longer. -/
theorem Reads.later {word rest last : List Char} {l : Lexeme} {ps : List Piece} (hd : d.number ≤ 4)
    (hde : d.number ≤ e.number) (h : Reads d (word ++ rest) word l)
    (hrest : Tokenization d rest ps last)
    (hs : Spaced (l :: ps.map Piece.lexeme)) : Reads e (word ++ rest) word l := by
  cases h with
  | numeral hw hl => exact .numeral hw hl
  | word hf _ => exact absurd (Edition.since_le_of_has hd hf) (by decide)
  | string hf _ _ _ => exact absurd (Edition.since_le_of_has hd hf) (by decide)
  | illegal _ _ _ => exact absurd rfl (hs.legal _ List.mem_cons_self)
  | @operator s hmem hf hw =>
    have hf' := Edition.has_mono hde hf
    refine .operator hmem hf' ⟨⟨hw.1.1, s, hmem, hf', rfl⟩, ?_⟩
    rintro v hv ⟨s', hs', -, rfl⟩
    by_contra hlonger
    have hextends := List.prefix_of_prefix_length_le hw.1.1 hv (Nat.le_of_not_le hlonger)
    obtain ⟨harith, hany⟩ := (operators_extended s hmem (Edition.since_le_of_has hd hf) s' hs'
      (List.isPrefixOf_iff_prefix.mpr hextends)).resolve_left hlonger
    obtain ⟨c, hc, hcs⟩ := List.any_eq_true.mp hany
    replace hcs := of_decide_eq_true hcs
    -- the character that makes the operator longer begins a lexeme that cannot stand here
    obtain ⟨t, rfl⟩ : [c] <+: rest := by
      rw [hcs] at hv
      exact (List.prefix_append_right_inj _).mp hv
    obtain ⟨m, ms, hms, hm⟩ := hrest.begins_with hd hc
    rw [hms] at hs
    have hnext := (List.isChain_cons_cons.mp hs.apart).1 harith
    rcases hm with hm | hm
    · exact hs.legal m (by simp) hm
    · rw [hnext] at hm
      cases hm

theorem Tokenization.later {cs last : List Char} {ps : List Piece} (hd : d.number ≤ 4)
    (hde : d.number ≤ e.number) (h : Tokenization d cs ps last)
    (hs : Spaced (ps.map Piece.lexeme)) : Tokenization e cs ps last := by
  induction h with
  | done hgap => exact .done hgap
  | piece hgap hread hrest ih =>
    exact .piece hgap (hread.later hd hde hrest hs)
      (ih ⟨(List.forall_mem_cons.mp hs.legal).2, hs.apart.tail⟩)

end Lexing

/-- Expressions with semicolons behind them, as the first edition with trees divides a source into
lexemes, are divided alike and read alike in all later editions: without errors, as ordered
phrases. -/
theorem arithmetic_read_alike (source : String)
    (hok : (Scan.ofSource ⟨2, by decide⟩ source).failure = none) (parts : List (List Lexeme))
    (hparts : ∀ part ∈ parts, IsExpression part)
    (hls : (Scan.ofSource ⟨2, by decide⟩ source).lexemes = parts.flatMap (· ++ [.semicolon])) :
    ∃ ps : List Phrase, ps.map Phrase.lexemes = parts ∧ (∀ p ∈ ps, p.Ordered) ∧
      ∀ e : Edition, e.has .trees = true → (Scan.ofSource e source).failure = none ∧
        (Scan.ofSource e source).lexemes = parts.flatMap (· ++ [.semicolon]) ∧
        Parsed.ofLexemes e (Scan.ofSource e source).lexemes =
          ⟨ps.map fun p => .expr p.expr, []⟩ := by
  let two : Edition := ⟨2, by decide⟩
  obtain ⟨pieces, last, htokens⟩ := Tokenization.total two source.toList
  obtain ⟨-, hshort, -, hpieces⟩ | ⟨f, hf, -⟩ := htokens.ofSource_cases
  swap
  · cases hok.symm.trans hf
  have hmap : pieces.map Piece.lexeme = parts.flatMap (· ++ [.semicolon]) := hpieces.symm.trans hls
  have hearly := htokens.isEarly (by decide)
  rw [hmap] at hearly
  obtain ⟨ps, rfl, hordered⟩ := exists_phrases hparts hearly
  refine ⟨ps, rfl, hordered, fun e he => ?_⟩
  have hle : two.number ≤ e.number := of_decide_eq_true he
  have hlater := htokens.later (by decide) hle (hmap ▸ spaced_closed hparts)
  rcases hlater.ofSource_cases with ⟨hok', -, -, hls'⟩ | ⟨f, -, hlong, p, hp, hint, hlength⟩
  · rw [hmap] at hls'
    refine ⟨hok', hls', ?_⟩
    have hearly' : ∀ p ∈ ps, ∀ l ∈ p.lexemes, l.IsEarly := fun p hp l hl =>
      hearly l (List.mem_flatMap.mpr ⟨p.lexemes, List.mem_map_of_mem hp, by simp [hl]⟩)
    rw [hls', List.flatMap_map, Parsed.ofLexemes, statements_of_phrases hordered hearly' (by omega)]
  · have := hshort p hp hint
    omega

theorem arithmetic_read_alike_nested :
    let two : Edition := ⟨2, by decide⟩
    let source := "(1)-2*(3 + 4.5)-5;7^8 / 9 ;"
    let ps : List Phrase :=
      [.infixed (.infixed (.group (.int 1)) .sub
        (.infixed (.int 2) .mul (.group (.infixed (.int 3) .add
        (.float ⟨0x4012000000000000⟩))))) .sub (.int 5), .infixed (.infixed (.int 7) .pow (.int 8))
          .div (.int 9)]
    (Scan.ofSource two source).failure = none ∧
      (∀ part ∈ ps.map Phrase.lexemes, IsExpression part) ∧
      (Scan.ofSource two source).lexemes = (ps.map Phrase.lexemes).flatMap (· ++ [.semicolon]) ∧
      ∀ e : Edition, e.has .trees = true → Parsed.ofLexemes e (Scan.ofSource e source).lexemes =
        Parsed.ofLexemes two (Scan.ofSource two source).lexemes := by
  intro two source ps
  have hok : (Scan.ofSource two source).failure = none := by decide +kernel
  have hparts : ∀ part ∈ ps.map Phrase.lexemes, IsExpression part := by
    simp only [ps, List.map_cons, List.map_nil, List.forall_mem_cons]
    refine ⟨Phrase.isExpression ?_, Phrase.isExpression ?_, by simp⟩
    all_goals simp only [Phrase.lexemes, grouped, List.cons_append, List.nil_append,
      List.forall_mem_cons]
    · exact ⟨.lparen, .int 1, .rparen, .operator rfl, .int 2, .operator rfl, .lparen, .int 3,
        .operator rfl, .float _, .rparen, .operator rfl, .int 5, by simp⟩
    · exact ⟨.int 7, .operator rfl, .int 8, .operator rfl, .int 9, by simp⟩
  have hls : (Scan.ofSource two source).lexemes = (ps.map Phrase.lexemes).flatMap
      (· ++ [.semicolon]) := by
    decide +kernel
  obtain ⟨qs, -, -, hread⟩ := arithmetic_read_alike source hok _ hparts hls
  refine ⟨hok, hparts, hls, fun e he => ?_⟩
  rw [(hread e he).2.2, (hread two rfl).2.2]

end LimeLang
