import LimeLang.Compile
import LimeLang.Proofs.Spelling

/-! What a source means depends on its lexemes alone: it can be laid out anew with any blanks
between them. -/

namespace LimeLang

variable {e : Edition}

/-- A word, with the closing quote that a string at the end of a text may lack. -/
def closed (w : List Char) : List Char := if w.count '"' = 1 then w ++ ['"'] else w

/-- A text that has the given words in order, with a blank behind each but the last. -/
inductive LaidOut : List (List Char) → List Char → Prop
  | nil {gap : List Char} : (∀ c ∈ gap, isBlank c = true) → LaidOut [] gap
  | cons {gap w rest : List Char} {ws : List (List Char)} : (∀ c ∈ gap, isBlank c = true) →
      (ws ≠ [] → ∃ c r, rest = c :: r ∧ isBlank c = true) → LaidOut ws rest →
      LaidOut (w :: ws) (gap ++ (w ++ rest))

theorem LaidOut.atBlank {ws : List (List Char)} {rest : List Char} (h : LaidOut ws rest)
    (hnext : ws ≠ [] → ∃ c r, rest = c :: r ∧ isBlank c = true) : AtBlank rest := by
  intro c hc
  cases h with
  | nil hgap => exact hgap c (List.mem_of_mem_head? hc)
  | cons _ _ _ =>
    obtain ⟨d, r, hd, hblank⟩ := hnext (by simp)
    rw [hd] at hc
    obtain rfl : d = c := by simpa using hc
    exact hblank

theorem closed_of_notMem {w : List Char} (h : '"' ∉ w) : closed w = w := by
  rw [closed, if_neg (by rw [List.count_eq_zero_of_not_mem h]; decide)]

theorem closed_quoted {w body : List Char} (hb : '"' ∉ body)
    (hw : w = '"' :: body ∨ w = '"' :: (body ++ ['"'])) : closed w = '"' :: (body ++ ['"']) := by
  have hcount : body.count '"' = 0 := List.count_eq_zero_of_not_mem hb
  rcases hw with rfl | rfl
  · rw [closed, if_pos (by simp [hcount])]
    rfl
  · rw [closed, if_neg (by simp [hcount])]

theorem quote_notMem_digits {ds : List Char} (h : AllDigits ds) : '"' ∉ ds :=
  fun hq => absurd (h _ hq) (by decide)

theorem IsNumeral.quote_notMem {w : List Char} (h : IsNumeral w) : '"' ∉ w := by
  cases h with
  | whole _ hd => exact quote_notMem_digits hd
  | pointed _ hd hf => simp [quote_notMem_digits hd, quote_notMem_digits hf]

theorem IsWord.quote_notMem {w : List Char} (h : IsWord w) : '"' ∉ w :=
  fun hq => absurd (h.all _ hq) (by decide)

theorem operators_no_quote : ∀ s ∈ operators, '"' ∉ s.text.toList := by
  decide

theorem IsNumeral.longest_blank {w r : List Char} (h : IsNumeral w) (hr : AtBlank r) :
    Longest IsNumeral (w ++ r) w := by
  cases h with
  | whole hne hd =>
    have hl := longest_numeralPart hne hd r
    rwa [numeralPart_blank hd hr] at hl
  | @pointed ds fs hne hd hf =>
    have hl := longest_numeralPart hne hd ('.' :: (fs ++ r))
    rw [numeralPart_pointed_blank hd hf hr] at hl
    simpa using hl

/-- A legal lexeme is read in the same way wherever its word stands before a blank. -/
theorem Reads.before_blank {cs w r : List Char} {l : Lexeme} (h : Reads e cs w l)
    (hl : l.kind ≠ .illegal) (hr : AtBlank r) : Reads e (closed w ++ r) (closed w) l := by
  cases h with
  | numeral hw hn =>
    have hnumeral : Longest IsNumeral (w ++ r) w := hw.1.2.longest_blank hr
    rw [closed_of_notMem hw.1.2.quote_notMem]
    cases hn with
    | int hp => exact .numeral hnumeral (.int hp)
    | secondPoint _ _ => exact absurd rfl hl
    | float hp _ => exact .numeral hnumeral (.float hp (not_point_blank hr))
  | word hd hw =>
    rw [closed_of_notMem hw.1.2.quote_notMem]
    exact .word hd (longest_word_blank hw.1.2 hr)
  | string hs _ hb hbody =>
    rw [closed_quoted hb hbody]
    exact .string hs (longest_quoted_closed hb r) hb (.inr rfl)
  | operator hs hf _ =>
    rw [closed_of_notMem (operators_no_quote _ hs)]
    exact .operator hs hf (longest_operator_blank hs hf hr)
  | illegal _ _ _ => exact absurd rfl hl

theorem Reads.isShort_closed {cs w : List Char} {l : Lexeme} (h : Reads e cs w l)
    (hs : IsShort w l) : IsShort (closed w) l := by
  cases h with
  | numeral hw _ => rwa [closed_of_notMem hw.1.2.quote_notMem]
  | word _ _ => exact isShort_of_kind (Kind.ofWord_ne e _).2.1
  | string _ _ _ _ => exact isShort_of_kind (by simp)
  | operator hop _ _ => exact isShort_of_kind (operators_kinds _ hop).2.1
  | illegal _ _ _ => exact isShort_of_kind (by simp)

theorem Tokenization.laidOut {cs last text : List Char} {ps : List Piece}
    (h : Tokenization e cs ps last) (hlegal : ∀ p ∈ ps, p.lexeme.kind ≠ .illegal)
    (hshort : ∀ p ∈ ps, IsShort p.word p.lexeme)
    (hl : LaidOut (ps.map fun p => closed p.word) text) :
    ∃ qs last', Tokenization e text qs last' ∧ qs.map Piece.lexeme = ps.map Piece.lexeme ∧
      ∀ q ∈ qs, IsShort q.word q.lexeme := by
  induction h generalizing text with
  | done _ =>
    cases hl with
    | nil hgap => exact ⟨[], text, .done hgap, rfl, by simp⟩
  | @piece gap word rest last l ps hg hr _ ih =>
    cases hl with
    | @cons gap' _ rest' _ hgap hnext hrest =>
      have hblank := hrest.atBlank hnext
      obtain ⟨hkind, hlegal⟩ := List.forall_mem_cons.mp hlegal
      obtain ⟨hword, hshort⟩ := List.forall_mem_cons.mp hshort
      obtain ⟨qs, last', ht, hmap, hqs⟩ := ih hlegal hshort hrest
      refine ⟨_, last', .piece hgap (hr.before_blank hkind hblank) ht, by simp [hmap], ?_⟩
      exact List.forall_mem_cons.mpr ⟨hr.isShort_closed hword, hqs⟩

theorem number_notice (c : Cursor) :
    c.number.notice = none ∨ ∃ t, c.number.result = .ok t ∧ t.kind = .illegal := by
  rw [Cursor.number]
  split
  · dsimp only
    split
    · exact .inr ⟨_, rfl, rfl⟩
    · exact .inl rfl
  · dsimp only
    split
    · exact .inl rfl
    · exact .inl rfl

theorem lexeme_notice (e : Edition) (c : Cursor) :
    (c.lexeme e).notice = none ∨ ∃ t, (c.lexeme e).result = .ok t ∧ t.kind = .illegal := by
  rw [Cursor.lexeme]
  split
  · exact .inl rfl
  · split
    · exact .inl rfl
    · split
      · exact .inl rfl
      · split
        · exact .inl rfl
        · split
          · exact number_notice c
          · exact .inl rfl

theorem upToEof_notices {fuel : Nat} {c : Cursor}
    (h : ∀ t ∈ (Scan.upToEof e fuel c).tokens, t.kind ≠ .illegal) :
    (Scan.upToEof e fuel c).notices = [] := by
  induction fuel generalizing c with
  | zero => rfl
  | succ fuel ih =>
    have hnotice := lexeme_notice e c.skipBlanks
    rw [Scan.upToEof] at h ⊢
    cases hres : (c.next e).result with
    | error f =>
      rcases hnotice with hnone | ⟨t, ht, -⟩
      · rw [Cursor.next, hnone]
        rfl
      · simp [Cursor.next, ht] at hres
    | ok t =>
      simp only [hres] at h ⊢
      have ht : t.kind ≠ .illegal := by
        by_cases heof : t.kind = .eof
        · simp [heof]
        · exact h t (by simp [heof])
      have hnone : (c.next e).notice = none := by
        rcases hnotice with hnone | ⟨t', ht', hk⟩
        · exact hnone
        · obtain rfl : t' = t := by simpa [Cursor.next, ht'] using hres
          exact absurd hk ht
      by_cases heof : t.kind = .eof
      · rw [if_pos heof, hnone]
        rfl
      · rw [if_neg heof] at h ⊢
        simp only [hnone, Option.toList_none, List.nil_append]
        exact ih fun k hk => h k (by simp [hk])

/-- A source without illegal lexemes that is laid out anew: its words in order, a string at the end
with its closing quote, and any blanks between them. -/
structure Relaid (e : Edition) (source text : String) : Prop where
  ok : (Scan.ofSource e source).failure = none
  legal : ∀ t ∈ (Scan.ofSource e source).tokens, t.kind ≠ .illegal
  laidOut : ∃ ps last, Tokenization e source.toList ps last ∧
    LaidOut (ps.map fun p => closed p.word) text.toList

def Files.Relaid (e : Edition) (files files' : Files) : Prop :=
  ∀ path, files.read path = files'.read path ∨ ∃ source text,
    files.read path = .ok source ∧ files'.read path = .ok text ∧ LimeLang.Relaid e source text

theorem ofSource_notices {source : String} {ls : List Lexeme}
    (h : (Scan.ofSource e source).tokens.map Token.toLexeme = ls ++ [.eof])
    (hlegal : ∀ l ∈ ls, l.kind ≠ .illegal) : (Scan.ofSource e source).notices = [] := by
  refine upToEof_notices fun t ht => ?_
  have hmem : t.toLexeme ∈ ls ++ [.eof] := h ▸ List.mem_map_of_mem ht
  rcases List.mem_append.mp hmem with hl | hl
  · exact hlegal _ hl
  · rw [List.mem_singleton.mp hl]
    decide

/-- Both texts have the same lexemes, and nothing is said about them. -/
theorem Relaid.scans {source text : String} (h : Relaid e source text) :
    (Scan.ofSource e text).failure = none ∧
      (Scan.ofSource e text).tokens.map Token.toLexeme =
        (Scan.ofSource e source).tokens.map Token.toLexeme ∧
      (Scan.ofSource e text).lexemes = (Scan.ofSource e source).lexemes ∧
      (Scan.ofSource e text).notices = [] ∧ (Scan.ofSource e source).notices = [] := by
  obtain ⟨ps, last, hpieces, hlaid⟩ := h.laidOut
  rcases hpieces.ofSource_cases with ⟨-, hshort, htokens, hlexemes⟩ | ⟨f, hf, -⟩
  · have hkinds : ∀ l ∈ ps.map Piece.lexeme, l.kind ≠ .illegal := by
      intro l hl
      have hmem : l ∈ (Scan.ofSource e source).tokens.map Token.toLexeme := by simp [htokens, hl]
      obtain ⟨t, ht, rfl⟩ := List.mem_map.mp hmem
      exact h.legal t ht
    obtain ⟨qs, last', hqs, hmap, hshort'⟩ := hpieces.laidOut (by simpa using hkinds) hshort hlaid
    rcases hqs.ofSource_cases with ⟨hok, -, htokens', hlexemes'⟩ | ⟨f, -, hlong, q, hq, hk, hd⟩
    · rw [hmap] at htokens' hlexemes'
      exact ⟨hok, htokens'.trans htokens.symm, hlexemes'.trans hlexemes.symm,
        ofSource_notices htokens' hkinds, ofSource_notices htokens hkinds⟩
    · have hle := hshort' q hq hk
      omega
  · have hok := h.ok
    simp [hf] at hok

theorem importer_relaid {files files' : Files} (h : files.Relaid e files') (depth : Nat) :
    Gen.importer e files' depth = Gen.importer e files depth := by
  induction depth with
  | zero => rfl
  | succ depth ih =>
    funext path
    rw [Gen.importer, Gen.importer, ih]
    rcases h (Files.normalize ("tests\\" ++ path).toList) with
      hread | ⟨source, text, hread, hread', hrelaid⟩
    · rw [hread]
    · obtain ⟨hok', -, hlexemes, hnotices', hnotices⟩ := hrelaid.scans
      simp only [hread, hread', hok', hrelaid.ok, hlexemes, hnotices', hnotices]

/-- A source that is laid out anew is read as the same lexemes, without notices, and has the same
tree and the same errors. Compiling it from any session comes to the same end, also if files that it
imports are laid out anew. -/
theorem layout_independent (e : Edition) (source text : String) (h : Relaid e source text) :
    (Scan.ofSource e text).failure = none ∧
      (Scan.ofSource e text).tokens.map Token.toLexeme =
        (Scan.ofSource e source).tokens.map Token.toLexeme ∧
      (Scan.ofSource e text).notices = [] ∧ (Scan.ofSource e source).notices = [] ∧
      Parsed.ofLexemes e (Scan.ofSource e text).lexemes =
        Parsed.ofLexemes e (Scan.ofSource e source).lexemes ∧
      ∀ (session : Session) (files files' : Files), files.Relaid e files' →
        session.compile e files' (Parsed.ofLexemes e (Scan.ofSource e text).lexemes).program =
          session.compile e files (Parsed.ofLexemes e
            (Scan.ofSource e source).lexemes).program := by
  obtain ⟨hok, htokens, hlexemes, hnotices', hnotices⟩ := h.scans
  refine ⟨hok, htokens, hnotices', hnotices, by rw [hlexemes], ?_⟩
  intro session files files' hfiles
  rw [Session.compile, Session.compile, importer_relaid hfiles, hlexemes]

theorem layout_independent_open_string :
    Relaid .latest "1+x\"y" "1 +\tx\n\"y\"" ∧
      (Scan.ofSource .latest "1 +\tx\n\"y\"").tokens.map Token.toLexeme =
        (Scan.ofSource .latest "1+x\"y").tokens.map Token.toLexeme ∧
      ∀ (session : Session) (files : Files),
        session.compile .latest files
            (Parsed.ofLexemes .latest (Scan.ofSource .latest "1 +\tx\n\"y\"").lexemes).program =
          session.compile .latest files
            (Parsed.ofLexemes .latest (Scan.ofSource .latest "1+x\"y").lexemes).program := by
  have hone : Reads .latest ("1".toList ++ "+x\"y".toList) "1".toList ⟨.int, .int 1⟩ :=
    .numeral (longest_numeral (c := '1') rfl "+x\"y".toList) (.int (by decide))
  have hplus : Reads .latest ("+".toList ++ "x\"y".toList) "+".toList ⟨.plus, .text "+"⟩ :=
    .of_operator (s := ⟨"+", .plus, .expressions⟩) rfl
  have hx : Reads .latest ("x".toList ++ "\"y".toList) "x".toList ⟨.ident, .text "x"⟩ :=
    .word rfl (longest_word (c := 'x') rfl "\"y".toList)
  have hy : Reads .latest ("\"y".toList ++ []) "\"y".toList ⟨.string, .text "y"⟩ :=
    .string rfl (longest_quoted ['y']) (by decide) (.inl rfl)
  have hblank : ∀ c : Char, c ∈ ([] : List Char) → isBlank c = true := by simp
  have hrelaid : Relaid .latest "1+x\"y" "1 +\tx\n\"y\"" := by
    refine ⟨by decide +kernel, by decide +kernel, _, _, .piece hblank hone (.piece hblank hplus
      (.piece hblank hx (.piece hblank hy (.done hblank)))), ?_⟩
    have hlast : LaidOut ["\"y\"".toList] "\n\"y\"".toList :=
      @LaidOut.cons ['\n'] _ [] _ (by simp [isBlank]) (by simp) (.nil hblank)
    have hthird : LaidOut ["x".toList, "\"y\"".toList] "\tx\n\"y\"".toList :=
      @LaidOut.cons ['\t'] _ _ _ (by simp [isBlank]) (fun _ => ⟨'\n', _, rfl, rfl⟩) hlast
    have hsecond : LaidOut ["+".toList, "x".toList, "\"y\"".toList] " +\tx\n\"y\"".toList :=
      @LaidOut.cons [' '] _ _ _ (by simp [isBlank]) (fun _ => ⟨'\t', _, rfl, rfl⟩) hthird
    exact @LaidOut.cons [] "1".toList _ _ hblank (fun _ => ⟨' ', _, rfl, rfl⟩) hsecond
  obtain ⟨-, htokens, -, -, -, hcompile⟩ := layout_independent .latest _ _ hrelaid
  exact ⟨hrelaid, htokens, fun session files => hcompile session files files fun _ => .inl rfl⟩

end LimeLang
