import LimeLang.Proofs.Printing
import LimeLang.Proofs.Tokenization

/-! Canonical texts are divided into the lexemes they were made of, whatever text follows. -/

namespace LimeLang

variable {e : Edition} {s : Spelling} {l : Literal}

theorem Edition.has_expressions (e : Edition) : e.has .expressions = true :=
  decide_eq_true e.valid.1

/-- The lexemes of an edition that can be written. -/
inductive Lexeme.Written (e : Edition) : Lexeme → Prop
  | int {n : Nat} : n < 10 ^ maxDigits → Written e ⟨.int, .int n⟩
  | float {x : Number.Double} : x.bits ≤ Number.Format.double.infinityBits →
      Written e ⟨.float, .float x⟩
  | word {s : String} : e.has .declarations = true → isWordText s = true →
      Written e ⟨.ofWord e s, .text s⟩
  | string {s : String} : e.has .strings = true → hasNoQuote s = true →
      Written e ⟨.string, .text s⟩
  | operator {s : Spelling} : s ∈ operators → e.has s.feature = true →
      Written e ⟨s.kind, .text s.text⟩

theorem reserved_nodup : ((keywords ++ slang ++ typeWords).map Spelling.text).Nodup := by
  decide

theorem Kind.ofWord_reserved (hs : s ∈ keywords ++ slang ++ typeWords)
    (hf : e.has s.feature = true) : Kind.ofWord e s.text = s.kind := by
  rw [Kind.ofWord]
  split
  · rename_i t ht
    have hp := List.find?_some ht
    simp only [Bool.and_eq_true, beq_iff_eq] at hp
    rw [List.inj_on_of_nodup_map reserved_nodup (List.mem_of_find?_eq_some ht) hs hp.2]
  · rename_i hn
    exact absurd (List.find?_eq_none.mp hn s hs) (by simp [hf])

theorem keywords_since : ∀ s ∈ keywords, isWordText s.text = true ∧
    Feature.since .declarations ≤ s.feature.since := by
  decide

theorem Lexeme.Written.keyword (hs : s ∈ keywords) (hf : e.has s.feature = true) :
    Lexeme.Written e ⟨s.kind, .text s.text⟩ := by
  obtain ⟨hw, hd⟩ := keywords_since s hs
  have hk := Kind.ofWord_reserved (by simp [hs]) hf
  exact hk ▸ .word (Edition.has_of_since_le hd hf) hw

theorem Lexeme.Written.name {s : String} (hd : e.has .declarations = true)
    (hs : e.isName s = true) : Lexeme.Written e (.name s) := by
  simp only [Edition.isName, Bool.and_eq_true, decide_eq_true_eq] at hs
  have hw := Lexeme.Written.word hd hs.1
  rwa [hs.2] at hw

theorem isWord_of_isWordText {s : String} (h : isWordText s = true) : IsWord s.toList := by
  rw [isWordText] at h
  split at h
  · simp at h
  · rename_i c t hs
    rw [Bool.and_eq_true, List.all_eq_true] at h
    exact ⟨c, t, hs, h.1, h.2⟩

theorem IsWord.all {w : List Char} (h : IsWord w) : ∀ c ∈ w, continuesWord c = true := by
  obtain ⟨c, t, rfl, hc, ht⟩ := h
  intro d hd
  rcases List.mem_cons.mp hd with rfl | hd
  · exact continuesWord_of_startsWord hc
  · exact ht d hd

/-- The text ends here or goes on with a blank. -/
def AtBlank (r : List Char) : Prop := ∀ c, r.head? = some c → isBlank c = true

theorem atBlank_space (r : List Char) : AtBlank (' ' :: r) := by
  intro c hc
  obtain rfl : ' ' = c := by simpa using hc
  decide

theorem not_continuesWord_of_blank {c : Char} (h : isBlank c = true) : continuesWord c = false := by
  rcases isBlank_iff.mp h with rfl | rfl | rfl | rfl <;> decide

theorem not_digit_of_blank {c : Char} (h : isBlank c = true) : Text.isAsciiDigit c = false := by
  rcases isBlank_iff.mp h with rfl | rfl | rfl | rfl <;> decide

theorem longest_word_blank {w r : List Char} (h : IsWord w) (hr : AtBlank r) :
    Longest IsWord (w ++ r) w := by
  have ht : (w ++ r).takeWhile continuesWord = w :=
    takeWhile_of_boundary h.all fun c hc => not_continuesWord_of_blank (hr c hc)
  obtain ⟨c, t, rfl, hc, _⟩ := h
  have hl := longest_word hc (t ++ r)
  rwa [← List.cons_append, ht] at hl

theorem longest_quoted_closed {body : List Char} (hb : '"' ∉ body) (r : List Char) :
    Longest IsQuoted ('"' :: (body ++ ['"']) ++ r) ('"' :: (body ++ ['"'])) := by
  have hl := longest_quoted (body ++ '"' :: r)
  have ht : (body ++ '"' :: r).takeWhile (· ≠ '"') = body :=
    takeWhile_of_boundary (ne_quote_of_mem hb) (by simp)
  have hd : (body ++ '"' :: r).dropWhile (· ≠ '"') = '"' :: r := by
    rw [List.dropWhile_append_of_pos (ne_quote_of_mem hb)]
    simp
  rw [quotedPart, ht, hd] at hl
  simpa using hl

theorem operators_no_blank : ∀ s ∈ operators, ∀ c ∈ s.text.toList, isBlank c = false := by
  have hall : ∀ s ∈ operators, s.text.toList.all fun c => !isBlank c := by decide
  intro s hs c hc
  simpa using List.all_eq_true.mp (hall s hs) c hc

theorem longest_operator_blank {r : List Char} (hs : s ∈ operators) (hf : e.has s.feature = true)
    (hr : AtBlank r) : Longest (IsOperator e) (s.text.toList ++ r) s.text.toList := by
  refine ⟨⟨List.prefix_append _ _, s, hs, hf, rfl⟩, ?_⟩
  rintro v hv ⟨t, ht, _, rfl⟩
  by_contra hlt
  cases r with
  | nil => exact hlt (by simpa using hv.length_le)
  | cons c r =>
    have hblank : s.text.toList ++ [c] <+: s.text.toList ++ c :: r := ⟨r, by simp⟩
    have hp : s.text.toList ++ [c] <+: t.text.toList := by
      apply List.prefix_of_prefix_length_le hblank hv
      simp only [List.length_append, List.length_singleton]
      omega
    have hc := operators_no_blank t ht c (hp.subset (by simp))
    simp [hr c rfl] at hc

theorem operators_closing : ∀ s ∈ operators,
    s.text.toList.head? = some ';' ∨ s.text.toList.head? = some '\x7d' →
      s.text.toList.length = 1 := by
  decide

theorem longest_operator_closing {c : Char} (hs : s ∈ operators) (hf : e.has s.feature = true)
    (ht : s.text.toList = [c]) (hc : c = ';' ∨ c = '\x7d') (r : List Char) :
    Longest (IsOperator e) (s.text.toList ++ r) s.text.toList := by
  refine ⟨⟨List.prefix_append _ _, s, hs, hf, rfl⟩, ?_⟩
  rintro v hv ⟨t, hm, _, rfl⟩
  obtain ⟨d, w, hw⟩ := List.exists_cons_of_ne_nil (operators_ne_nil t hm)
  rw [hw, ht] at hv
  have hd : d = c := (List.cons_prefix_cons.mp hv).1
  have hl := operators_closing t hm (by simpa [hw, hd] using hc)
  simp [ht, hl]

theorem allDigits_toDigits (n : Nat) : AllDigits (Nat.toDigits 10 n) := by
  intro c hc
  have h := Nat.isDigit_of_mem_toDigits (by norm_num) (by norm_num) hc
  simpa [Text.isAsciiDigit, Char.isDigit, Char.le_def] using h

theorem numeralPart_blank {ds r : List Char} (hd : AllDigits ds) (hr : AtBlank r) :
    numeralPart (ds ++ r) = ds := by
  have ht : (ds ++ r).takeWhile Text.isAsciiDigit = ds :=
    takeWhile_of_boundary hd fun c hc => not_digit_of_blank (hr c hc)
  rw [numeralPart_of_no_point, ht]
  intro tail hdrop
  have hsplit := List.takeWhile_append_dropWhile (p := Text.isAsciiDigit) (l := ds ++ r)
  rw [ht, hdrop] at hsplit
  exact absurd (hr '.' (by rw [← List.append_cancel_left hsplit]; rfl)) (by decide)

theorem numeralPart_pointed_blank {ds fs r : List Char} (hd : AllDigits ds) (hf : AllDigits fs)
    (hr : AtBlank r) : numeralPart (ds ++ '.' :: (fs ++ r)) = ds ++ '.' :: fs := by
  have hw : (ds ++ '.' :: (fs ++ r)).takeWhile Text.isAsciiDigit = ds :=
    takeWhile_of_boundary hd (by simp [isAsciiDigit_point])
  have hdrop : (ds ++ '.' :: (fs ++ r)).dropWhile Text.isAsciiDigit = '.' :: (fs ++ r) := by
    rw [List.dropWhile_append_of_pos hd, List.dropWhile_cons_of_neg (by simp [isAsciiDigit_point])]
  have ht : (fs ++ r).takeWhile Text.isAsciiDigit = fs :=
    takeWhile_of_boundary hf fun c hc => not_digit_of_blank (hr c hc)
  rw [numeralPart_of_point hdrop, hw, ht]

theorem not_point_blank {w r : List Char} (hr : AtBlank r) : ¬ w ++ ['.'] <+: w ++ r := by
  rw [append_point_prefix_iff (List.prefix_append w r), List.drop_left]
  intro h
  exact absurd (hr '.' h) (by decide)

theorem longest_numeralPart {ds : List Char} (hne : ds ≠ []) (hd : AllDigits ds) (r : List Char) :
    Longest IsNumeral (ds ++ r) (numeralPart (ds ++ r)) := by
  obtain ⟨c, t, rfl⟩ := List.exists_cons_of_ne_nil hne
  exact longest_numeral (hd c (by simp)) (t ++ r)

theorem allDigits_placed (n k : Nat) : AllDigits (Number.placed n k) := by
  intro c hc
  rcases List.mem_append.mp hc with h | h
  · rw [List.eq_of_mem_replicate h]
    decide
  · exact allDigits_toDigits n c h

theorem wholeDigits_spec (x : Number.Double) : x.wholeDigits ≠ [] ∧ AllDigits x.wholeDigits := by
  have hl := Number.length_placed x.decimal.1 x.decimal.2
  refine ⟨?_, fun c hc => allDigits_placed _ _ c (List.mem_of_mem_take hc)⟩
  rw [← List.length_pos_iff, Number.Binary.wholeDigits, List.length_take]
  omega

theorem allDigits_fractionDigits (x : Number.Double) : AllDigits x.fractionDigits :=
  fun c hc => allDigits_placed _ _ c (List.mem_of_mem_drop hc)

theorem Lexeme.Written.reads {l : Lexeme} (h : l.Written e) (r : List Char) :
    Reads e (l.spelling ++ ' ' :: r) l.spelling l := by
  have hr := atBlank_space r
  cases h with
  | @int n hn =>
    have hd := allDigits_toDigits n
    have hl := longest_numeralPart Nat.toDigits_ne_nil hd (' ' :: r)
    rw [numeralPart_blank hd hr] at hl
    have hp : '.' ∉ Nat.toDigits 10 n := fun hp => absurd (hd _ hp) (by decide)
    have hi := @NumeralReads.int (Nat.toDigits 10 n ++ ' ' :: r) _ hp
    rw [← foldl_digits, Number.foldl_digitValue, Nat.ofDigitChars_ten_toDigits] at hi
    exact .numeral hl hi
  | @float x hx =>
    obtain ⟨hne, hd⟩ := wholeDigits_spec x
    have hf := allDigits_fractionDigits x
    have hl := longest_numeralPart hne hd ('.' :: (x.fractionDigits ++ ' ' :: r))
    rw [numeralPart_pointed_blank hd hf hr] at hl
    have hn := NumeralReads.float rfl
      (not_point_blank (w := x.wholeDigits ++ '.' :: x.fractionDigits) hr)
    rw [Number.ofDecimal_exact hx] at hn
    simpa [spelling] using Reads.numeral (by simpa using hl) hn
  | @word s hd hs =>
    have hw := Reads.word hd (longest_word_blank (isWord_of_isWordText hs) hr)
    simpa [spelling, Kind.ofWord_ne] using hw
  | @string s hf hs =>
    have hq : '"' ∉ s.toList := by simpa [hasNoQuote] using hs
    have hw := Reads.string hf (longest_quoted_closed hq (' ' :: r)) hq (.inr rfl)
    simpa [spelling] using hw
  | @operator s hs hf =>
    have hk := operators_kinds s hs
    simpa [spelling, hk] using Reads.operator hs hf (longest_operator_blank hs hf hr)

theorem Lexeme.Written.isShort {l : Lexeme} (h : l.Written e) : IsShort l.spelling l := by
  cases h with
  | @int n hn => exact fun _ => (Nat.length_toDigits_le_iff (by norm_num) (by decide)).mpr hn
  | float _ => exact isShort_of_kind (by simp)
  | word _ _ => exact isShort_of_kind (Kind.ofWord_ne e _).2.1
  | string _ _ => exact isShort_of_kind (by simp)
  | operator hs _ => exact isShort_of_kind (operators_kinds _ hs).2.1

/-- The lexemes that end a statement can be followed by any text. -/
def Lexeme.Closes (e : Edition) (l : Lexeme) : Prop :=
  l = .semicolon ∨ l = .rbrace ∧ e.has .functions = true

theorem Lexeme.Closes.reads {l : Lexeme} (h : l.Closes e) (r : List Char) :
    Reads e (l.spelling ++ r) l.spelling l := by
  rcases h with rfl | ⟨rfl, hf⟩
  · have hs : ⟨";", .semicolon, .expressions⟩ ∈ operators := by simp [operators]
    exact .operator hs e.has_expressions
      (longest_operator_closing hs e.has_expressions (c := ';') rfl (.inl rfl) r)
  · have hs : ⟨"\x7d", .rbrace, .functions⟩ ∈ operators := by simp [operators]
    exact .operator hs hf (longest_operator_closing hs hf (c := '\x7d') rfl (.inr rfl) r)

theorem spaced_tokenization {ls : List Lexeme} (hne : ls ≠ []) (hw : ∀ l ∈ ls, l.Written e)
    (hlast : ∀ l ∈ ls.getLast?, l.Closes e) {q last : List Char} {ps : List Piece}
    (hq : Tokenization e q ps last) {gap : List Char} (hgap : ∀ c ∈ gap, isBlank c = true) :
    ∃ ps', Tokenization e (gap ++ (spaced ls ++ q)) (ps' ++ ps) last ∧
      ps'.map Piece.lexeme = ls ∧ ∀ p ∈ ps', IsShort p.word p.lexeme := by
  induction ls generalizing gap with
  | nil => exact absurd rfl hne
  | cons l ls ih =>
    have hl := hw l (by simp)
    cases ls with
    | nil =>
      have hr := (hlast l (by simp)).reads q
      exact ⟨[⟨gap, l.spelling, l⟩], .piece hgap hr hq, rfl, by simpa using hl.isShort⟩
    | cons m ls =>
      have hblank : ∀ c ∈ [' '], isBlank c = true := by simp [isBlank]
      obtain ⟨ps', ht, hm, hs⟩ := ih (by simp) (fun k hk => hw k (by simp [hk]))
        (fun k hk => hlast k (by simpa using hk)) hblank
      refine ⟨⟨gap, l.spelling, l⟩ :: ps', ?_, by simp [hm], ?_⟩
      · have hp := Tokenization.piece hgap (hl.reads _) ht
        simpa [spaced] using hp
      · intro p hp
        rcases List.mem_cons.mp hp with rfl | hp
        · exact hl.isShort
        · exact hs p hp

theorem ofSource_spaced {ls : List Lexeme} (hw : ∀ l ∈ ls, l.Written e)
    (hlast : ∀ l ∈ ls.getLast?, l.Closes e) {q : String} (hq : (Scan.ofSource e q).failure = none) :
    (Scan.ofSource e (String.ofList (spaced ls) ++ q)).failure = none ∧
      (Scan.ofSource e (String.ofList (spaced ls) ++ q)).lexemes =
        ls ++ (Scan.ofSource e q).lexemes := by
  rcases List.eq_nil_or_concat ls with rfl | ⟨_, _, hls⟩
  · simpa [spaced] using hq
  obtain ⟨ps, last, ht, hps, -, hshort⟩ := upToEof_tokenization e (Nat.lt_succ_self _) hq
  obtain ⟨ps', ht', hm, hs⟩ := spaced_tokenization (by simp [hls]) hw hlast ht
    (List.forall_mem_nil _)
  have hall : ∀ p ∈ ps' ++ ps, IsShort p.word p.lexeme := by
    intro p hp
    rcases List.mem_append.mp hp with hp | hp
    · exact hs p hp
    · exact hshort p hp
  have hr : (Cursor.start (String.ofList (spaced ls) ++ q)).rest =
      [] ++ (spaced ls ++ (Cursor.start q).rest) := by
    simp [Cursor.start]
  obtain ⟨hok, htok⟩ := ht'.upToEof hall hr (by rw [← hr]; exact Nat.lt_succ_self _)
  refine ⟨hok, ?_⟩
  rw [lexemes_of_tokens (s := Scan.ofSource e q) hps ht.kind_ne_eof,
    lexemes_of_tokens (s := Scan.ofSource e (String.ofList (spaced ls) ++ q)) htok ht'.kind_ne_eof,
    List.map_append, hm]

def AllWritten (e : Edition) (ls : List Lexeme) : Prop := ∀ l ∈ ls, l.Written e

namespace AllWritten

variable {e : Edition} {l : Lexeme} {ls ms : List Lexeme}

theorem nil : AllWritten e [] := by simp [AllWritten]

theorem cons (hl : l.Written e) (hls : AllWritten e ls) : AllWritten e (l :: ls) := by
  simpa [AllWritten] using ⟨hl, hls⟩

theorem append (hls : AllWritten e ls) (hms : AllWritten e ms) : AllWritten e (ls ++ ms) := by
  intro l hl
  rcases List.mem_append.mp hl with hl | hl
  · exact hls l hl
  · exact hms l hl

theorem grouped (h : AllWritten e ls) : AllWritten e (grouped ls) := by
  have hl : Lexeme.Written e .lparen := .operator (s := ⟨"(", .lparen, .expressions⟩)
    (by simp [operators]) e.has_expressions
  have hr : Lexeme.Written e .rparen := .operator (s := ⟨")", .rparen, .expressions⟩)
    (by simp [operators]) e.has_expressions
  exact cons hl (append h (cons hr nil))

theorem braced (hf : e.has .functions = true) (h : AllWritten e ls) : AllWritten e (braced ls) := by
  have hl : Lexeme.Written e .lbrace := .operator (s := ⟨"\x7b", .lbrace, .functions⟩)
    (by simp [operators]) hf
  have hr : Lexeme.Written e .rbrace := .operator (s := ⟨"\x7d", .rbrace, .functions⟩)
    (by simp [operators]) hf
  exact cons hl (append h (cons hr nil))

theorem semicolon : AllWritten e [.semicolon] :=
  cons (.operator (s := ⟨";", .semicolon, .expressions⟩) (by simp [operators]) e.has_expressions)
    nil

theorem separated {lss : List (List Lexeme)} (hp : lss.length ≤ 1 ∨ e.has .parameters = true)
    (h : ∀ ls ∈ lss, AllWritten e ls) : AllWritten e (separated lss) := by
  cases lss with
  | nil => exact nil
  | cons ls lss =>
    refine append (h ls (by simp)) fun l hl => ?_
    obtain ⟨ms, hms, hl⟩ := List.mem_flatMap.mp hl
    have hf : e.has .parameters = true := by
      have := List.length_pos_of_mem hms
      exact hp.resolve_left (by simp only [List.length_cons]; omega)
    have hc : Lexeme.Written e .comma := .operator (s := ⟨",", .comma, .parameters⟩)
      (by simp [operators]) hf
    exact cons hc (h ms (by simp [hms])) l hl

end AllWritten

theorem InfixOp.written {op : InfixOp} (h : e.has op.feature = true) :
    Lexeme.Written e (.infixOp op) := by
  refine .operator (s := ⟨op.text, op.kind, op.feature⟩) ?_ h
  cases op <;> simp [operators, InfixOp.text, InfixOp.kind, InfixOp.feature]

theorem PrefixOp.written {op : PrefixOp} (h : e.has .compoundAssignment = true) :
    Lexeme.Written e (.prefixOp op) := by
  cases op with
  | neg =>
    exact .operator (s := ⟨"-", .minus, .expressions⟩) (by simp [operators]) e.has_expressions
  | not => exact .operator (s := ⟨"!", .bang, .compoundAssignment⟩) (by simp [operators]) h

theorem StepOp.written {op : StepOp} (h : e.has .stepping = true) :
    Lexeme.Written e (.step op) := by
  refine .operator (s := ⟨op.text, op.kind, .stepping⟩) ?_ h
  cases op <;> simp [operators, StepOp.text, StepOp.kind]

theorem assignments_nodup : (assignments.map Spelling.text).Nodup := by
  decide

theorem assignKind_of_mem (hs : s ∈ assignments) : assignKind (.text s.text) = s.kind := by
  have hf : assignments.find? (fun t => Literal.text t.text = .text s.text) = some s := by
    cases h : assignments.find? (fun t => Literal.text t.text = .text s.text) with
    | none => exact absurd (List.find?_eq_none.mp h s hs) (by simp)
    | some t =>
      have ht : t.text = s.text := by simpa using List.find?_some h
      rw [List.inj_on_of_nodup_map assignments_nodup (List.mem_of_find?_eq_some h) hs ht]
  rw [assignKind, hf]

theorem assignments_operators : ∀ s ∈ assignments, ∃ t ∈ operators,
    t.text = s.text ∧ t.kind = s.kind ∧ t.feature.since ≤ s.feature.since := by
  decide

theorem Edition.isAssignment_cases {op : Literal} (h : e.isAssignment op = true) :
    ∃ s ∈ assignments, op = .text s.text ∧ assignKind op = s.kind ∧ e.has s.feature = true := by
  simp only [Edition.isAssignment, List.any_eq_true, Bool.and_eq_true, decide_eq_true_eq] at h
  obtain ⟨s, hs, rfl, hf⟩ := h
  exact ⟨s, hs, rfl, assignKind_of_mem hs, hf⟩

theorem Edition.isAssignment_written {op : Literal} (h : e.isAssignment op = true) :
    Lexeme.Written e ⟨assignKind op, op⟩ := by
  obtain ⟨s, hs, rfl, hk, hf⟩ := isAssignment_cases h
  obtain ⟨t, ht, htext, hkind, hsince⟩ := assignments_operators s hs
  have hw := Lexeme.Written.operator ht (has_of_since_le hsince hf)
  rwa [hk, ← hkind, ← htext]

theorem Edition.isNameLiteral_cases (h : e.isNameLiteral l = true) :
    ∃ s, l = .text s ∧ e.isName s = true := by
  cases l with
  | text s => exact ⟨s, rfl, h⟩
  | int n => simp [isNameLiteral] at h
  | float x => simp [isNameLiteral] at h

theorem Edition.isTypeName_cases (h : e.isTypeName l = true) :
    ∃ s, l = .text s ∧ isWordText s = true := by
  cases l with
  | text s =>
    simp only [isTypeName, Bool.and_eq_true] at h
    exact ⟨s, rfl, h.1⟩
  | int n => simp [isTypeName] at h
  | float x => simp [isTypeName] at h

theorem Edition.isNameLiteral_written (hd : e.has .declarations = true)
    (h : e.isNameLiteral l = true) : Lexeme.Written e ⟨.ident, l⟩ := by
  obtain ⟨s, rfl, hs⟩ := isNameLiteral_cases h
  exact .name hd hs

theorem Edition.isTypeName_written (hd : e.has .declarations = true) (h : e.isTypeName l = true) :
    Lexeme.Written e (.type e l) := by
  obtain ⟨s, rfl, hs⟩ := isTypeName_cases h
  exact .word hd hs

theorem Lexeme.Written.colon (h : e.has .declarations = true) : Lexeme.Written e .colon :=
  .operator (s := ⟨":", .colon, .declarations⟩) (by simp [operators]) h

theorem Param.lexemes_written {p : Param} (hd : e.has .declarations = true)
    (h : p.isPrintable e = true) : AllWritten e (p.lexemes e) := by
  simp only [isPrintable, Bool.and_eq_true] at h
  exact .cons (Edition.isNameLiteral_written hd h.1) (.cons (.colon hd)
    (.cons (Edition.isTypeName_written hd h.2) .nil))

mutual

theorem Expr.lexemes_written : ∀ x : Expr, x.isPrintable e = true →
    AllWritten e (x.lexemes e)
  | .missing | .openCall _ | .ifThen .. | .ifElse .. => by simp [Expr.isPrintable]
  | .int n => by
    intro h
    simp only [Expr.isPrintable, decide_eq_true_eq] at h
    rw [Expr.lexemes]
    exact .cons (.int h) .nil
  | .float x => by
    intro h
    rw [Expr.lexemes]
    exact .cons (.float (by simpa [Expr.isPrintable] using h)) .nil
  | .ident s => by
    intro h
    simp only [Expr.isPrintable, Bool.and_eq_true] at h
    rw [Expr.lexemes]
    exact .cons (.name (Edition.has_of_since_le (by decide) h.1) h.2) .nil
  | .bool b => by
    intro h
    have hf : e.has .conditions = true := by simpa [Expr.isPrintable] using h
    cases b with
    | true =>
      rw [Expr.lexemes]
      exact .cons (.keyword (s := ⟨"true", .trueWord, .conditions⟩) (by simp [keywords]) hf) .nil
    | false =>
      rw [Expr.lexemes]
      exact .cons (.keyword (s := ⟨"false", .falseWord, .conditions⟩) (by simp [keywords]) hf) .nil
  | .str s => by
    intro h
    simp only [Expr.isPrintable, Bool.and_eq_true] at h
    rw [Expr.lexemes]
    exact .cons (.string h.1 h.2) .nil
  | .infixed l op r => by
    intro h
    simp only [Expr.isPrintable, Bool.and_eq_true] at h
    rw [Expr.lexemes]
    exact (Expr.lexemes_written _ h.1.2).grouped.append
      (.cons (InfixOp.written h.1.1) (Expr.lexemes_written _ h.2).grouped)
  | .prefixed op r => by
    intro h
    simp only [Expr.isPrintable, Bool.and_eq_true] at h
    rw [Expr.lexemes]
    exact .cons (PrefixOp.written h.1) (Expr.lexemes_written _ h.2).grouped
  | .stepped l op => by
    intro h
    simp only [Expr.isPrintable, Bool.and_eq_true] at h
    rw [Expr.lexemes]
    exact (Expr.lexemes_written _ h.2).grouped.append (.cons (StepOp.written h.1) .nil)
  | .call f args => by
    intro h
    simp only [Expr.isPrintable, Bool.and_eq_true, Bool.or_eq_true, List.isEmpty_iff] at h
    rw [Expr.lexemes]
    refine (Expr.lexemes_written _ h.1.1.2).grouped.append
      (.grouped (.separated ?_ (argumentLexemes_written _ h.1.2)))
    rcases h.2 with rfl | hp
    · simp [argumentLexemes]
    · exact .inr hp

theorem argumentLexemes_written : ∀ args : List Expr,
    Expr.isPrintable.arePrintable e args = true → ∀ ls ∈ argumentLexemes e args, AllWritten e ls
  | [] => by simp [argumentLexemes]
  | x :: xs => by
    intro h
    simp only [Expr.isPrintable.arePrintable, Bool.and_eq_true] at h
    rw [argumentLexemes]
    intro ls hls
    rcases List.mem_cons.mp hls with rfl | hls
    · exact (Expr.lexemes_written _ h.1).grouped
    · exact argumentLexemes_written _ h.2 ls hls

end

theorem Lexeme.Written.equals (h : e.has .declarations = true) : Lexeme.Written e .equals :=
  .operator (s := ⟨"=", .eq, .declarations⟩) (by simp [operators]) h

theorem letVar_written {name type : String} {x : Expr}
    (h : (Stmt.letVar name x type).isPrintable e = true) :
    AllWritten e ((Stmt.letVar name x type).lexemes e) := by
  simp only [Stmt.isPrintable, Bool.and_eq_true, decide_eq_true_eq] at h
  obtain ⟨⟨⟨hd, hn⟩, hx⟩, hw, hk⟩ := h
  have ht := Lexeme.Written.word hd hw
  rw [hk] at ht
  rw [Stmt.lexemes]
  exact .cons (.keyword (s := ⟨"let", .letWord, .declarations⟩) (by simp [keywords]) hd)
    (.cons (.name hd hn) (.cons (.colon hd) (.cons ht (.cons (.equals hd)
      ((Expr.lexemes_written _ hx).grouped.append .semicolon)))))

theorem stepLexemes_written {s : Stmt} (hd : e.has .declarations = true) (h : s.isStep e = true) :
    AllWritten e (stepLexemes e s) := by
  rw [Stmt.isStep.eq_def] at h
  split at h
  · simp only [Bool.and_eq_true] at h
    rw [stepLexemes]
    exact .cons (Edition.isNameLiteral_written hd h.1.1.2)
      (.cons (Edition.isAssignment_written h.1.2) (Expr.lexemes_written _ h.2).grouped)
  · simp only [Bool.and_eq_true] at h
    rw [stepLexemes]
    exact (Expr.lexemes_written _ h.2).grouped
  · simp at h

theorem params_written {params : List Param} (hd : e.has .declarations = true)
    (h : params.all (Param.isPrintable e) = true)
    (hp : params.isEmpty = true ∨ e.has .parameters = true) :
    AllWritten e (grouped (separated (params.map (Param.lexemes e)))) := by
  refine .grouped (.separated ?_ ?_)
  · rcases hp with hp | hp
    · simp [List.isEmpty_iff.mp hp]
    · exact .inr hp
  · intro ls hls
    obtain ⟨p, hm, rfl⟩ := List.mem_map.mp hls
    exact Param.lexemes_written hd (List.all_eq_true.mp h p hm)

theorem allWritten_cases (e : Edition) :
    PrintableCases e (fun s => AllWritten e (s.lexemes e)) (fun p => AllWritten e (lexemes e p))
      where
  expr := by
    intro x hc hx
    rw [Stmt.lexemes_expr hc]
    exact (Expr.lexemes_written x hx).grouped.append .semicolon
  ifThen := by
    intro c body hf hc hbody
    have hb : e.has .functions = true := Edition.has_of_since_le (by decide) hf
    rw [Stmt.lexemes, Expr.isConditional, if_pos rfl, Expr.lexemes]
    exact (AllWritten.cons (.keyword (s := ⟨"if", .ifWord, .conditions⟩) (by simp [keywords]) hf)
      ((Expr.lexemes_written c hc).grouped.append (hbody.braced hb))).append .semicolon
  ifElse := by
    intro c body alternative hf hc hbody halt
    have hb : e.has .functions = true := Edition.has_of_since_le (by decide) hf
    rw [Stmt.lexemes, Expr.isConditional, if_pos rfl, Expr.lexemes]
    have he := Lexeme.Written.keyword (s := ⟨"else", .elseWord, .conditions⟩) (by simp [keywords])
      hf
    exact (AllWritten.cons (.keyword (s := ⟨"if", .ifWord, .conditions⟩) (by simp [keywords]) hf)
      ((Expr.lexemes_written c hc).grouped.append ((hbody.braced hb).append
        (.cons he (halt.braced hb))))).append .semicolon
  letVar := fun _ _ _ => letVar_written
  ret := by
    intro x hf hx
    rw [Stmt.lexemes]
    exact .cons (.keyword (s := ⟨"return", .returnWord, .functions⟩) (by simp [keywords]) hf)
      ((Expr.lexemes_written x hx).grouped.append .semicolon)
  fn := by
    intro name params returnType body hf hn hps hp ht hbody
    have hd : e.has .declarations = true := Edition.has_of_since_le (by decide) hf
    have ha := Lexeme.Written.operator (s := ⟨"->", .arrow, .functions⟩) (by simp [operators]) hf
    rw [Stmt.lexemes]
    exact .cons (.keyword (s := ⟨"fn", .fnWord, .functions⟩) (by simp [keywords]) hf)
      (.cons (.name hd hn) ((params_written hd hps hp).append
        (.cons ha (.cons (Edition.isTypeName_written hd ht) (hbody.braced hf)))))
  assign := by
    intro target op x hf ht ho hx
    have hd : e.has .declarations = true := Edition.has_of_since_le (by decide) hf
    rw [Stmt.lexemes]
    exact .cons (Edition.isNameLiteral_written hd ht) (.cons (Edition.isAssignment_written ho)
      ((Expr.lexemes_written x hx).grouped.append .semicolon))
  whileLoop := by
    intro c body hf hc hbody
    have hb : e.has .functions = true := Edition.has_of_since_le (by decide) hf
    rw [Stmt.lexemes]
    exact .cons (.keyword (s := ⟨"while", .whileWord, .whileLoops⟩) (by simp [keywords]) hf)
      ((Expr.lexemes_written c hc).grouped.append (hbody.braced hb))
  breakLoop := by
    intro hf
    rw [Stmt.lexemes]
    exact .cons (.keyword (s := ⟨"break", .breakWord, .forLoops⟩) (by simp [keywords]) hf)
      .semicolon
  continueLoop := by
    intro hf
    rw [Stmt.lexemes]
    exact .cons (.keyword (s := ⟨"continue", .continueWord, .forLoops⟩) (by simp [keywords]) hf)
      .semicolon
  forLoop := by
    intro name x type c next body hf hi hc hs hbody
    have hd : e.has .declarations = true := Edition.has_of_since_le (by decide) hf
    have hb : e.has .functions = true := Edition.has_of_since_le (by decide) hf
    have hl := Lexeme.Written.operator (e := e) (s := ⟨"(", .lparen, .expressions⟩)
      (by simp [operators]) e.has_expressions
    have hr := Lexeme.Written.operator (e := e) (s := ⟨")", .rparen, .expressions⟩)
      (by simp [operators]) e.has_expressions
    rw [Stmt.lexemes]
    exact .cons (.keyword (s := ⟨"for", .forWord, .forLoops⟩) (by simp [keywords]) hf)
      (.cons hl ((letVar_written hi).append ((Expr.lexemes_written c hc).grouped.append
        (AllWritten.semicolon.append ((stepLexemes_written hd hs).append
          (.cons hr (hbody.braced hb)))))))
  importPallet := by
    intro path hf hp
    have hs : e.has .strings = true := Edition.has_of_since_le (by decide) hf
    rw [Stmt.lexemes]
    exact .cons (.keyword (s := ⟨"import", .importWord, .pallets⟩) (by simp [keywords]) hf)
      (.cons (.string hs hp) .semicolon)
  nil := by
    rw [lexemes]
    exact .nil
  cons := by
    intro s ss _ hs hss
    rw [lexemes]
    exact hs.append hss

def EndsClosed (e : Edition) (ls : List Lexeme) : Prop := ∃ ms l, ls = ms ++ [l] ∧ l.Closes e

namespace EndsClosed

variable {e : Edition} {l : Lexeme} {ls : List Lexeme}

theorem append (ms : List Lexeme) (h : EndsClosed e ls) : EndsClosed e (ms ++ ls) := by
  obtain ⟨ks, l, rfl, hl⟩ := h
  exact ⟨ms ++ ks, l, by simp, hl⟩

theorem cons (l : Lexeme) (h : EndsClosed e ls) : EndsClosed e (l :: ls) := append [l] h

theorem semicolon : EndsClosed e [.semicolon] := ⟨[], .semicolon, rfl, .inl rfl⟩

theorem braced (hf : e.has .functions = true) : EndsClosed e (braced ls) :=
  ⟨.lbrace :: ls, .rbrace, rfl, .inr ⟨rfl, hf⟩⟩

end EndsClosed

theorem endsClosed_cases (e : Edition) :
    PrintableCases e (fun s => EndsClosed e (s.lexemes e))
      (fun p => ∀ l ∈ (lexemes e p).getLast?, l.Closes e) where
  expr := by
    intro x hc _
    rw [Stmt.lexemes_expr hc]
    exact .append _ .semicolon
  ifThen := by
    intro c body _ _ _
    rw [Stmt.lexemes]
    exact .append _ .semicolon
  ifElse := by
    intro c body alternative _ _ _ _
    rw [Stmt.lexemes]
    exact .append _ .semicolon
  letVar := by
    intro name x type _
    rw [Stmt.lexemes]
    exact .cons _ (.cons _ (.cons _ (.cons _ (.cons _ (.append _ .semicolon)))))
  ret := by
    intro x _ _
    rw [Stmt.lexemes]
    exact .cons _ (.append _ .semicolon)
  fn := by
    intro name params returnType body hf _ _ _ _ _
    rw [Stmt.lexemes]
    exact .cons _ (.cons _ (.append _ (.cons _ (.cons _ (.braced hf)))))
  assign := by
    intro target op x _ _ _ _
    rw [Stmt.lexemes]
    exact .cons _ (.cons _ (.append _ .semicolon))
  whileLoop := by
    intro c body hf _ _
    rw [Stmt.lexemes]
    exact .cons _ (.append _ (.braced (Edition.has_of_since_le (by decide) hf)))
  breakLoop := by
    intro _
    rw [Stmt.lexemes]
    exact .cons _ .semicolon
  continueLoop := by
    intro _
    rw [Stmt.lexemes]
    exact .cons _ .semicolon
  forLoop := by
    intro name x type c next body hf _ _ _ _
    rw [Stmt.lexemes]
    exact .cons _ (.cons _ (.append _ (.append _ (.cons _ (.append _ (.cons _
      (.braced (Edition.has_of_since_le (by decide) hf))))))))
  importPallet := by
    intro path _ _
    rw [Stmt.lexemes]
    exact .cons _ (.cons _ .semicolon)
  nil := by simp [lexemes]
  cons := by
    intro s ss _ hs hss l hl
    obtain ⟨ms, k, heq, hk⟩ := hs
    rw [lexemes, heq, List.getLast?_append] at hl
    cases hlast : (lexemes e ss).getLast? with
    | none =>
      have heq : k = l := by simpa [hlast] using hl
      exact heq ▸ hk
    | some m =>
      have heq : m = l := by simpa [hlast] using hl
      exact hss l (by simp [hlast, heq])

/-- The canonical text of a program in front of a readable text adds the lexemes of the program. -/
theorem ofSource_print {p : Program} (hp : arePrintable e p = true) {q : String}
    (hq : (Scan.ofSource e q).failure = none) :
    (Scan.ofSource e (Program.print e p ++ q)).failure = none ∧
      (Scan.ofSource e (Program.print e p ++ q)).lexemes =
        lexemes e p ++ (Scan.ofSource e q).lexemes :=
  ofSource_spaced ((allWritten_cases e).stmts p hp) ((endsClosed_cases e).stmts p hp) hq

end LimeLang
