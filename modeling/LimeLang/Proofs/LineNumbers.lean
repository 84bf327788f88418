import LimeLang.Proofs.Spelling
import LimeLang.Proofs.Tokenization

/-! The line of a token counts the line breaks in the gaps before it. A line break can also stand
within a string, and there it is not counted: from such a string on, all lines are too small. -/

namespace LimeLang

variable {e : Edition} {ps : List Piece} {cs last : List Char} {c : Cursor}

/-- The text that comes before the lexeme of piece `i`. Behind the last piece it is all of the
text. -/
def textBefore : List Piece → List Char → Nat → List Char
  | [], last, _ => last
  | p :: _, _, 0 => p.gap
  | p :: ps, last, i + 1 => p.gap ++ (p.word ++ textBefore ps last i)

/-- The line breaks within the strings among some pieces. -/
def hiddenBreaks (ps : List Piece) : Nat :=
  ((ps.filter fun p => p.lexeme.kind = .string).map fun p => p.word.count '\n').sum

theorem hiddenBreaks_cons (p : Piece) (ps : List Piece) :
    hiddenBreaks (p :: ps) =
      (if p.lexeme.kind = .string then p.word.count '\n' else 0) + hiddenBreaks ps := by
  by_cases h : p.lexeme.kind = .string <;> simp [hiddenBreaks, h]

theorem hiddenBreaks_eq_zero_iff :
    hiddenBreaks ps = 0 ↔ ∀ p ∈ ps, p.lexeme.kind = .string → '\n' ∉ p.word := by
  induction ps with
  | nil => simp [hiddenBreaks]
  | cons p ps ih => simp [hiddenBreaks_cons, ih, List.count_eq_zero]

theorem Tokenization.textBefore_of_some (h : Tokenization e cs ps last) {i : Nat} {p : Piece}
    (hi : ps[i]? = some p) : textBefore ps last i ++ p.word <+: cs := by
  induction h generalizing i with
  | done _ => simp at hi
  | @piece gap word rest last l ps _ _ _ ih =>
    cases i with
    | zero =>
      obtain rfl : ⟨gap, word, l⟩ = p := by simpa using hi
      exact ⟨rest, by simp [textBefore]⟩
    | succ i => simpa [textBefore] using ih (by simpa using hi)

theorem Tokenization.textBefore_of_none (h : Tokenization e cs ps last) {i : Nat}
    (hi : ps[i]? = none) : textBefore ps last i = cs := by
  induction h generalizing i with
  | done _ => rfl
  | piece _ _ _ ih =>
    cases i with
    | zero => simp at hi
    | succ i => simp [textBefore, ih (by simpa using hi)]

/-- A step of reading that gave a token of line `n` and ended on line `n`. -/
def Scanned.OnLine (s : Scanned) (n : Nat) : Prop :=
  s.after.line = n ∧ ∀ t, s.result = .ok t → t.line = n

theorem Cursor.number_onLine (c : Cursor) : c.number.OnLine c.line := by
  rw [Cursor.number]
  split
  · dsimp only
    split
    · exact ⟨rfl, by rintro _ ⟨⟩; rfl⟩
    · exact ⟨rfl, by rintro _ ⟨⟩; rfl⟩
  · dsimp only
    split
    · exact ⟨rfl, by rintro _ ⟨⟩⟩
    · exact ⟨rfl, by rintro _ ⟨⟩; rfl⟩

theorem Cursor.lexeme_onLine (e : Edition) (c : Cursor) : (c.lexeme e).OnLine c.line := by
  rw [Cursor.lexeme]
  split
  · exact ⟨rfl, by rintro _ ⟨⟩; rfl⟩
  · split
    · exact ⟨rfl, by rintro _ ⟨⟩; rfl⟩
    · split_ifs
      · exact ⟨rfl, by rintro _ ⟨⟩; rfl⟩
      · exact ⟨rfl, by rintro _ ⟨⟩; rfl⟩
      · exact c.number_onLine
      · exact ⟨rfl, by rintro _ ⟨⟩; rfl⟩

/-- A step of reading counts the line breaks of the gap it skips, and no others. -/
theorem Cursor.next_onLine (e : Edition) (c : Cursor) :
    (c.next e).OnLine (c.line + (c.rest.takeWhile isBlank).count '\n') :=
  c.skipBlanks.lexeme_onLine e

theorem newline_notMem_digits {ds : List Char} (h : AllDigits ds) : '\n' ∉ ds :=
  fun hn => absurd (h _ hn) (by decide)

theorem IsNumeral.newline_notMem {w : List Char} (h : IsNumeral w) : '\n' ∉ w := by
  cases h with
  | whole _ hd => exact newline_notMem_digits hd
  | pointed _ hd hf => simp [newline_notMem_digits hd, newline_notMem_digits hf]

theorem IsWord.newline_notMem {w : List Char} (h : IsWord w) : '\n' ∉ w := by
  intro hn
  have hcontinues := h.all _ hn
  rw [not_continuesWord_of_blank (by decide)] at hcontinues
  exact absurd hcontinues (by simp)

theorem operators_no_newline : ∀ s ∈ operators, '\n' ∉ s.text.toList := by
  decide

theorem Reads.newline_notMem {cs w : List Char} {l : Lexeme} (h : Reads e cs w l)
    (hl : l.kind ≠ .string) : '\n' ∉ w := by
  cases h with
  | numeral hw _ => exact hw.1.2.newline_notMem
  | word _ hw => exact hw.1.2.newline_notMem
  | string _ _ _ _ => exact absurd rfl hl
  | operator hs _ _ => exact operators_no_newline _ hs
  | illegal _ hb _ =>
    intro hn
    rw [← List.mem_singleton.mp hn] at hb
    exact absurd hb (by decide)

theorem Reads.has_strings {cs w : List Char} {l : Lexeme} (h : Reads e cs w l)
    (hl : l.kind = .string) : e.has .strings = true := by
  cases h with
  | numeral _ h => cases h <;> simp at hl
  | word _ _ => exact absurd hl (Kind.ofWord_ne e _).2.2
  | string he _ _ _ => exact he
  | operator hs _ _ => exact absurd hl (operators_kinds _ hs).2.2
  | illegal _ _ _ => simp at hl

theorem Tokenization.has_strings (h : Tokenization e cs ps last) :
    ∀ p ∈ ps, p.lexeme.kind = .string → e.has .strings = true := by
  induction h with
  | done _ => simp
  | piece _ hr _ ih => exact List.forall_mem_cons.mpr ⟨hr.has_strings, ih⟩

theorem next_rest_at_end (hc : ∀ x ∈ c.rest, isBlank x = true) : (c.next e).after.rest = [] := by
  have hskip : c.skipBlanks.rest = [] := by
    rw [skipBlanks_rest, List.dropWhile_eq_nil_iff.mpr hc]
  rw [Cursor.next, lexeme_of_nil hskip]
  simp [Cursor.skip, hskip]

theorem takeTokens_at_end {n i : Nat} {t : Token} (hc : ∀ x ∈ c.rest, isBlank x = true)
    (ht : (c.takeTokens e n).1[i]? = some t) :
    t.toLexeme = .eof ∧ t.line = c.line + c.rest.count '\n' := by
  induction n generalizing i c with
  | zero => simp [Cursor.takeTokens] at ht
  | succ n ih =>
    have hgap : c.rest.takeWhile isBlank = c.rest := List.takeWhile_eq_self_iff.mpr hc
    obtain ⟨hafter, hline⟩ := c.next_onLine e
    rw [hgap] at hafter hline
    obtain ⟨u, hu, heof⟩ := next_eof (e := e) hc
    have hrest := next_rest_at_end (e := e) hc
    rw [Cursor.takeTokens, hu] at ht
    cases i with
    | zero =>
      obtain rfl : u = t := by simpa using ht
      exact ⟨heof, hline u hu⟩
    | succ i =>
      have hlater := ih (c := (c.next e).after) (by simp [hrest]) (by simpa using ht)
      simpa [hafter, hrest] using hlater

/-- The line of each token, from the line on which reading begins. The induction is on the pieces,
each of which is one step of reading. -/
theorem Tokenization.takeTokens_line (h : Tokenization e cs ps last) {n i : Nat} {t : Token}
    (hc : c.rest = cs) (ht : (c.takeTokens e n).1[i]? = some t) :
    t.toLexeme = (ps[i]?.map Piece.lexeme).getD .eof ∧
      t.line + hiddenBreaks (ps.take i) = c.line + (textBefore ps last i).count '\n' := by
  induction h generalizing n i c with
  | @done gap hg =>
    obtain ⟨heof, hline⟩ := takeTokens_at_end (hc ▸ hg) ht
    simpa [hc ▸ hline, textBefore, hiddenBreaks] using heof
  | @piece gap word rest last l ps hg hr _ ih =>
    cases n with
    | zero => simp [Cursor.takeTokens] at ht
    | succ n =>
      obtain ⟨hafter, hline⟩ := c.next_onLine e
      rw [hc, takeWhile_gap hg hr] at hafter hline
      obtain ⟨hrest, ⟨u, hu, hul, -⟩ | ⟨f, hf, -⟩⟩ := next_piece hc hg hr
      · rw [Cursor.takeTokens, hu] at ht
        cases i with
        | zero =>
          obtain rfl : u = t := by simpa using ht
          simp [hul, hline u hu, textBefore, hiddenBreaks]
        | succ i =>
          obtain ⟨hl, hcount⟩ := ih hrest (by simpa using ht)
          refine ⟨by simpa using hl, ?_⟩
          have hword : word.count '\n' = if l.kind = .string then word.count '\n' else 0 := by
            split_ifs with hk
            · rfl
            · exact List.count_eq_zero.mpr (hr.newline_notMem hk)
          rw [List.take_succ_cons, hiddenBreaks_cons, ← hword]
          simp only [textBefore, List.count_append]
          omega
      · simp [Cursor.takeTokens, hf] at ht

/-- As long as no integer is too long, there is a token for each step of reading. -/
theorem Tokenization.takeTokens_length (h : Tokenization e cs ps last)
    (hshort : ∀ p ∈ ps, IsShort p.word p.lexeme) (hc : c.rest = cs) (n : Nat) :
    (c.takeTokens e n).1.length = n := by
  induction n generalizing cs last ps c with
  | zero => rfl
  | succ n ih =>
    cases h with
    | done hg =>
      obtain ⟨t, ht, -⟩ := next_eof (e := e) (hc ▸ hg)
      have hend : Tokenization e [] [] [] := .done (by simp)
      rw [Cursor.takeTokens, ht]
      simpa using ih hend (by simp) (next_rest_at_end (hc ▸ hg))
    | piece hg hr htail =>
      obtain ⟨hrest, ⟨t, ht, -⟩ | ⟨f, -, -, -, hlong⟩⟩ := next_piece hc hg hr
      · rw [Cursor.takeTokens, ht]
        simpa using ih htail (fun p hp => hshort p (List.mem_cons_of_mem _ hp)) hrest
      · exact absurd (hshort _ List.mem_cons_self) hlong

/-- The text has only one division into pieces. The token that step `i` of reading gives is that of
piece `i`, or the end of the file once the pieces are used up, and there is one for every step if no
integer is too long. Its line is short of the line on which its lexeme begins by the line breaks
within the strings before it. So it is exact if and only if no string before it goes over a line
break, and always in an edition without strings. -/
theorem token_line_exact_iff (e : Edition) (source : String) :
    ∃ ps last, Tokenization e source.toList ps last ∧
      ((Scan.ofSource e source).failure = none →
        ∀ n, ((Cursor.start source).takeTokens e n).1.length = n) ∧
      ∀ n i t, ((Cursor.start source).takeTokens e n).1[i]? = some t →
        (∀ p, ps[i]? = some p → t.toLexeme = p.lexeme ∧
          textBefore ps last i ++ p.word <+: source.toList) ∧
        (ps[i]? = none → t.toLexeme = .eof ∧ textBefore ps last i = source.toList) ∧
        t.line + hiddenBreaks (ps.take i) = 1 + (textBefore ps last i).count '\n' ∧
        (t.line = 1 + (textBefore ps last i).count '\n' ↔
          ∀ p ∈ ps.take i, p.lexeme.kind = .string → '\n' ∉ p.word) ∧
        (e.has .strings = false → t.line = 1 + (textBefore ps last i).count '\n') := by
  obtain ⟨ps, last, h⟩ := Tokenization.total e source.toList
  refine ⟨ps, last, h, fun hok => ?_, fun n i t ht => ?_⟩
  · rcases h.ofSource_cases with ⟨-, hshort, -⟩ | ⟨f, hf, -⟩
    · exact h.takeTokens_length hshort rfl
    · simp [hf] at hok
  · obtain ⟨hlexeme, hline⟩ := h.takeTokens_line (c := .start source) rfl ht
    replace hline : t.line + hiddenBreaks (ps.take i) = 1 + (textBefore ps last i).count '\n' :=
      hline
    have hexact : t.line = 1 + (textBefore ps last i).count '\n' ↔
        ∀ p ∈ ps.take i, p.lexeme.kind = .string → '\n' ∉ p.word := by
      rw [← hiddenBreaks_eq_zero_iff]
      omega
    refine ⟨fun p hp => ⟨by simpa [hp] using hlexeme, h.textBefore_of_some hp⟩,
      fun hp => ⟨by simpa [hp] using hlexeme, h.textBefore_of_none hp⟩, hline, hexact, fun he => ?_⟩
    refine hexact.mpr fun p hp hk => ?_
    rw [h.has_strings p (List.mem_of_mem_take hp) hk] at he
    exact absurd he (by simp)

theorem token_line_exact_iff_pair :
    let source := "\"a\"\n b"
    (Scan.ofSource .latest source).failure = none ∧
      ((Cursor.start source).takeTokens .latest 2).1.length = 2 ∧
      ∃ ps last t, Tokenization .latest source.toList ps last ∧
        ((Cursor.start source).takeTokens .latest 2).1[1]? = some t ∧ t.line = 2 ∧
        (t.line = 1 + (textBefore ps last 1).count '\n' ↔
          ∀ p ∈ ps.take 1, p.lexeme.kind = .string → '\n' ∉ p.word) := by
  intro source
  have hok : (Scan.ofSource .latest source).failure = none := by decide +kernel
  have ht : ((Cursor.start source).takeTokens .latest 2).1[1]? =
      some ⟨⟨.ident, .text "b"⟩, 2, 6⟩ := by decide +kernel
  obtain ⟨ps, last, h, hlength, hline⟩ := token_line_exact_iff .latest source
  exact ⟨hok, hlength hok 2, ps, last, _, h, ht, rfl, (hline 2 1 _ ht).2.2.2.1⟩

/-- A string goes over a line break, so the name behind it stands on the second line. It is put on
the first. -/
theorem line_short_behind_string :
    let source := "\"a\nb\" x"
    ((Cursor.start source).takeTokens .latest 2).1[1]? = some ⟨⟨.ident, .text "x"⟩, 1, 7⟩ ∧
      source.toList = "\"a\nb\" ".toList ++ "x".toList ∧ "\"a\nb\" ".toList.count '\n' = 1 := by
  decide +kernel

end LimeLang
