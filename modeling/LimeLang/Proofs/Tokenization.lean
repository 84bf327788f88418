import LimeLang.Proofs.LexemeClass

/-! Reading a source yields its only division into gaps and longest lexemes. The division is
defined from the classes of lexemes and not from the way in which the source is read. -/

namespace LimeLang

variable {e : Edition} {c : Cursor} {l : Lexeme} {ps : List Piece} {cs last : List Char}

/-- The lexeme that a numeral at the beginning of a text stands for. A second point directly
behind it makes it illegal. -/
inductive NumeralReads (cs w : List Char) : Lexeme → Prop
  | int : '.' ∉ w →
      NumeralReads cs w ⟨.int, .int (Nat.ofDigits 10 (w.map digitValue).reverse)⟩
  | secondPoint : '.' ∈ w → w ++ ['.'] <+: cs →
      NumeralReads cs w ⟨.illegal, .text (String.ofList w)⟩
  | float {ds fs : List Char} : w = ds ++ '.' :: fs → ¬ w ++ ['.'] <+: cs →
      NumeralReads cs w
        ⟨.float, .float (Number.Binary.ofDecimal (ds.map digitValue) (fs.map digitValue))⟩

def IsLexical (e : Edition) (w : List Char) : Prop :=
  IsNumeral w ∨ e.has .declarations = true ∧ IsWord w ∨ e.has .strings = true ∧ IsQuoted w ∨
    IsOperator e w

/-- The first lexeme of a text that does not begin with a blank: its word and what that word
stands for. -/
inductive Reads (e : Edition) (cs : List Char) : List Char → Lexeme → Prop
  | numeral {w : List Char} {l : Lexeme} : Longest IsNumeral cs w → NumeralReads cs w l →
      Reads e cs w l
  | word {w : List Char} : e.has .declarations = true → Longest IsWord cs w →
      Reads e cs w ⟨.ofWord e (String.ofList w), .text (String.ofList w)⟩
  | string {w body : List Char} : e.has .strings = true → Longest IsQuoted cs w →
      '"' ∉ body → w = '"' :: body ∨ w = '"' :: (body ++ ['"']) →
      Reads e cs w ⟨.string, .text (String.ofList body)⟩
  | operator {s : Spelling} : s ∈ operators → e.has s.feature = true →
      Longest (IsOperator e) cs s.text.toList → Reads e cs s.text.toList ⟨s.kind, .text s.text⟩
  | illegal {c : Char} : cs.head? = some c → isBlank c = false →
      (∀ w, w <+: cs → ¬ IsLexical e w) → Reads e cs [c] ⟨.illegal, .text c.toString⟩

structure Piece where
  gap : List Char
  word : List Char
  lexeme : Lexeme

/-- A division of a text into pieces, with the gap behind the last of them. -/
inductive Tokenization (e : Edition) : List Char → List Piece → List Char → Prop
  | done {gap : List Char} : (∀ c ∈ gap, isBlank c = true) → Tokenization e gap [] gap
  | piece {gap word rest last : List Char} {l : Lexeme} {ps : List Piece} :
      (∀ c ∈ gap, isBlank c = true) → Reads e (word ++ rest) word l →
      Tokenization e rest ps last →
      Tokenization e (gap ++ (word ++ rest)) (⟨gap, word, l⟩ :: ps) last

theorem Tokenization.flatMap_append (h : Tokenization e cs ps last) :
    ps.flatMap (fun p => p.gap ++ p.word) ++ last = cs := by
  induction h with
  | done _ => rfl
  | piece _ _ _ ih => simp [← ih]

theorem foldl_digits (ds : List Nat) :
    ds.foldl (fun n d => 10 * n + d) 0 = Nat.ofDigits 10 ds.reverse := by
  rw [Nat.ofDigits_eq_foldr, List.foldr_reverse]
  congr 1
  funext n d
  simp [Nat.add_comm]

theorem Reads.begins {cs w : List Char} (h : Reads e cs w l) : w <+: cs := by
  cases h with
  | numeral h _ => exact h.1.1
  | word _ h => exact h.1.1
  | string _ h _ _ => exact h.1.1
  | operator _ _ h => exact h.1.1
  | @illegal c h _ _ =>
    obtain ⟨t, rfl⟩ := List.head?_eq_some_iff.mp h
    exact ⟨t, rfl⟩

theorem operators_heads : ∀ s ∈ operators, ∀ c ∈ s.text.toList.head?,
    isBlank c = false ∧ Text.isAsciiDigit c = false ∧ startsWord c = false ∧ c ≠ '"' := by
  have hall : ∀ s ∈ operators, s.text.toList.head?.all fun c =>
      !isBlank c && !Text.isAsciiDigit c && !startsWord c && c ≠ '"' := by decide
  intro s hs c hc
  simpa [Option.mem_def.mp hc, and_assoc] using hall s hs

theorem operators_ne_nil : ∀ s ∈ operators, s.text.toList ≠ [] := by
  decide

theorem operators_kinds : ∀ s ∈ operators, s.kind ≠ .eof ∧ s.kind ≠ .int ∧ s.kind ≠ .string := by
  decide

theorem reserved_kinds : ∀ s ∈ keywords ++ slang ++ typeWords,
    s.kind ≠ .eof ∧ s.kind ≠ .int ∧ s.kind ≠ .string := by
  decide

theorem Kind.ofWord_ne (e : Edition) (w : String) :
    Kind.ofWord e w ≠ .eof ∧ Kind.ofWord e w ≠ .int ∧ Kind.ofWord e w ≠ .string := by
  rw [Kind.ofWord]
  split
  · rename_i s hs
    exact reserved_kinds s (List.mem_of_find?_eq_some hs)
  · simp

theorem isBlank_iff {c : Char} : isBlank c = true ↔ c = ' ' ∨ c = '\t' ∨ c = '\n' ∨ c = '\r' := by
  simp [isBlank, or_assoc]

theorem not_isBlank_of_digit {c : Char} (h : Text.isAsciiDigit c = true) : isBlank c = false := by
  apply Bool.eq_false_iff.mpr
  intro hb
  rcases isBlank_iff.mp hb with rfl | rfl | rfl | rfl <;> exact absurd h (by decide)

theorem not_isBlank_of_letter {c : Char} (h : startsWord c = true) : isBlank c = false := by
  apply Bool.eq_false_iff.mpr
  intro hb
  rcases isBlank_iff.mp hb with rfl | rfl | rfl | rfl <;> exact absurd h (by decide)

theorem not_startsWord_of_digit {c : Char} (h : Text.isAsciiDigit c = true) :
    startsWord c = false := by
  simp only [Text.isAsciiDigit, Bool.and_eq_true, decide_eq_true_eq, Char.le_def,
    UInt32.le_iff_toNat_le] at h
  simp only [startsWord, Text.isAsciiLetter, Bool.or_eq_false_iff, Bool.and_eq_false_iff,
    decide_eq_false_iff_not, Char.le_def, UInt32.le_iff_toNat_le]
  have h9 : '9'.val.toNat = 57 := rfl
  have ha : 'a'.val.toNat = 97 := rfl
  have hA : 'A'.val.toNat = 65 := rfl
  refine ⟨⟨.inl (by omega), .inl (by omega)⟩, ?_⟩
  rintro rfl
  exact absurd h.2 (by decide)

theorem operator?_eq_none {c : Char} (e : Edition) (t : List Char)
    (h : Text.isAsciiDigit c = true ∨ startsWord c = true ∨ c = '"') :
    operator? e (c :: t) = none := by
  cases ho : operator? e (c :: t) with
  | none => rfl
  | some s =>
    obtain ⟨hs, _, hl⟩ := operator?_some ho
    obtain ⟨r, hr⟩ := hl.1.1
    have hc : c ∈ s.text.toList.head? := by
      cases hw : s.text.toList with
      | nil => exact absurd hw (operators_ne_nil s hs)
      | cons d w =>
        rw [hw] at hr
        simpa using (List.cons.inj hr).1
    obtain ⟨_, hd, hl, hq⟩ := operators_heads s hs c hc
    rcases h with h | h | h
    · exact absurd h (by simp [hd])
    · exact absurd h (by simp [hl])
    · exact absurd h hq

def IsShort (w : List Char) (l : Lexeme) : Prop := l.kind = .int → w.length ≤ maxDigits

/-- A step of reading that took word `w` off a text and gave lexeme `l`, unless the word is an
integer that is too long. -/
def Scanned.Takes (s : Scanned) (cs w : List Char) (l : Lexeme) : Prop :=
  s.after.rest = cs.drop w.length ∧
    match s.result with
    | .ok t => t.toLexeme = l ∧ IsShort w l
    | .error f => l = ⟨.int, .int (Nat.ofDigits 10 (w.map digitValue).reverse)⟩ ∧
        f.digits = w.length ∧ ¬ IsShort w l

theorem isShort_of_kind {w : List Char} (h : l.kind ≠ .int) : IsShort w l :=
  fun hk => absurd hk h

theorem append_point_prefix_iff {cs w : List Char} (h : w <+: cs) :
    w ++ ['.'] <+: cs ↔ (cs.drop w.length).head? = some '.' := by
  obtain ⟨r, rfl⟩ := h
  rw [List.prefix_append_right_inj, List.drop_left]
  cases r with
  | nil => simp
  | cons c r => simp [eq_comm]

theorem numeralPart_of_point {cs tail : List Char}
    (h : cs.dropWhile Text.isAsciiDigit = '.' :: tail) :
    numeralPart cs = cs.takeWhile Text.isAsciiDigit ++ '.' :: tail.takeWhile Text.isAsciiDigit := by
  simp [numeralPart, h]

theorem numeralPart_of_no_point {cs : List Char}
    (h : ∀ tail, cs.dropWhile Text.isAsciiDigit ≠ '.' :: tail) :
    numeralPart cs = cs.takeWhile Text.isAsciiDigit := by
  rw [numeralPart]
  split
  · rename_i tail ht
    exact absurd ht (h tail)
  · exact List.append_nil _

theorem point_not_mem_digits (cs : List Char) : '.' ∉ cs.takeWhile Text.isAsciiDigit := by
  intro h
  exact absurd (List.mem_takeWhile_imp h) (by decide)

theorem number_takes (hp : numeralPart c.rest <+: c.rest)
    (h : NumeralReads c.rest (numeralPart c.rest) l) :
    c.number.Takes c.rest (numeralPart c.rest) l := by
  rw [Cursor.number]
  split
  · rename_i tail ht
    have hw := numeralPart_of_point ht
    have hlen : (c.rest.takeWhile Text.isAsciiDigit).length + 1 +
        (tail.takeWhile Text.isAsciiDigit).length = (numeralPart c.rest).length := by
      rw [hw]
      simp only [List.length_append, List.length_cons]
      omega
    have hpoint := append_point_prefix_iff hp
    simp only [hlen, Cursor.skip, Cursor.token, ← hw]
    cases h with
    | int h => exact absurd (by rw [hw]; simp) h
    | secondPoint _ h =>
      rw [if_pos (hpoint.mp h)]
      exact ⟨rfl, rfl, isShort_of_kind (by simp)⟩
    | float he h =>
      obtain ⟨rfl, -, rfl⟩ := (List.append_cons_inj_of_notMem (point_not_mem_digits c.rest)
        (point_not_mem_digits tail)).mp (hw.symm.trans he)
      rw [if_neg (fun hh => h (hpoint.mpr hh))]
      exact ⟨rfl, rfl, isShort_of_kind (by simp)⟩
  · rename_i hno
    have hw := numeralPart_of_no_point hno
    simp only [← hw, Cursor.skip, Cursor.token]
    cases h with
    | int h =>
      split
      · rename_i hlong
        exact ⟨rfl, rfl, rfl, fun hs => absurd (hs rfl) (not_le.mpr hlong)⟩
      · rename_i hlong
        exact ⟨rfl, by simp [foldl_digits], fun _ => not_lt.mp hlong⟩
    | secondPoint h _ => exact absurd (hw ▸ h) (point_not_mem_digits _)
    | float he _ =>
      refine absurd ?_ (point_not_mem_digits c.rest)
      rw [← hw, he]
      simp

theorem numeralReads_total (cs : List Char) : ∃ l, NumeralReads cs (numeralPart cs) l := by
  by_cases hno : ∀ tail, cs.dropWhile Text.isAsciiDigit ≠ '.' :: tail
  · exact ⟨_, .int (numeralPart_of_no_point hno ▸ point_not_mem_digits cs)⟩
  · simp only [not_forall, not_not] at hno
    obtain ⟨tail, ht⟩ := hno
    have hw := numeralPart_of_point ht
    by_cases hsecond : numeralPart cs ++ ['.'] <+: cs
    · exact ⟨_, .secondPoint (by rw [hw]; simp) hsecond⟩
    · exact ⟨_, .float hw hsecond⟩

theorem string_takes {t : List Char} (hc : c.rest = '"' :: t) :
    c.string.Takes c.rest (quotedPart t)
      ⟨.string, .text (String.ofList (t.takeWhile (· ≠ '"')))⟩ := by
  refine ⟨?_, by simp [Cursor.token, hc], isShort_of_kind (by simp)⟩
  have ht := List.takeWhile_append_dropWhile (p := (· ≠ '"')) (l := t)
  have hlen : (t.takeWhile (· ≠ '"')).length + (t.dropWhile (· ≠ '"')).length = t.length := by
    rw [← List.length_append, ht]
  simp only [Cursor.string, Cursor.skip, hc, List.tail_cons, List.drop_drop, quotedPart,
    List.length_cons, List.length_append, List.length_take, List.drop_succ_cons]
  rcases take_one_dropWhile_quote t with h | h
  · have hl := congrArg List.length h
    simp only [List.length_take, List.length_nil] at hl
    rw [List.drop_of_length_le (by omega), List.drop_of_length_le (by omega)]
  · have hl := congrArg List.length h
    simp only [List.length_take, List.length_cons, List.length_nil] at hl
    rw [hl]

theorem filter_quoted {w body : List Char} (hb : '"' ∉ body)
    (h : w = '"' :: body ∨ w = '"' :: (body ++ ['"'])) : w.filter (· ≠ '"') = body := by
  have hf : body.filter (· ≠ '"') = body := List.filter_eq_self.mpr (ne_quote_of_mem hb)
  rcases h with rfl | rfl
  · rw [List.filter_cons_of_neg (by simp), hf]
  · rw [List.filter_cons_of_neg (by simp), List.filter_append, hf]
    simp

theorem quotedPart_eq (t : List Char) :
    quotedPart t = '"' :: t.takeWhile (· ≠ '"') ∨
      quotedPart t = '"' :: (t.takeWhile (· ≠ '"') ++ ['"']) := by
  rcases take_one_dropWhile_quote t with h | h
  · exact .inl (by rw [quotedPart, h, List.append_nil])
  · exact .inr (by rw [quotedPart, h])

theorem lexeme_of_class {ch : Char} {t : List Char} (hc : c.rest = ch :: t)
    (ho : operator? e c.rest = none) :
    c.lexeme e = if ch = '"' && e.has .strings then c.string
      else if startsWord ch && e.has .declarations then c.word e
      else if Text.isAsciiDigit ch then c.number
      else ⟨.ok (c.token .illegal (.text ch.toString)), c.skip 1, none⟩ := by
  rw [Cursor.lexeme]
  split
  · rename_i h
    rw [hc] at h
    exact absurd h (by simp)
  · rename_i ch' t' h
    obtain ⟨rfl, rfl⟩ := List.cons.inj (hc.symm.trans h)
    simp only [ho]

theorem lexeme_of_operator {s : Spelling} (ho : operator? e c.rest = some s) :
    c.lexeme e = c.operator s := by
  rw [Cursor.lexeme]
  split
  · rename_i h
    obtain ⟨hs, _, hl⟩ := operator?_some ho
    rw [h] at hl
    exact absurd (List.prefix_nil.mp hl.1.1) (operators_ne_nil s hs)
  · simp only [ho]

theorem operator_takes {s : Spelling} (hs : s ∈ operators) :
    (c.operator s).Takes c.rest s.text.toList ⟨s.kind, .text s.text⟩ := by
  refine ⟨?_, rfl, isShort_of_kind (operators_kinds s hs).2.1⟩
  have hl : 0 < s.text.toList.length := List.length_pos_iff.mpr (operators_ne_nil s hs)
  simp only [Cursor.operator, Cursor.skip, List.drop_drop, ← String.length_toList]
  congr 1
  omega

theorem IsNumeral.head {w t : List Char} {c : Char} (h : IsNumeral w) (hw : w <+: c :: t) :
    Text.isAsciiDigit c = true := by
  cases h with
  | @whole ds hne hd =>
    obtain ⟨d, ds, rfl⟩ := List.exists_cons_of_ne_nil hne
    obtain ⟨rfl, -⟩ := List.cons_prefix_cons.mp hw
    exact hd d (by simp)
  | @pointed ds fs hne hd _ =>
    obtain ⟨d, ds, rfl⟩ := List.exists_cons_of_ne_nil hne
    obtain ⟨rfl, -⟩ := List.cons_prefix_cons.mp hw
    exact hd d (by simp)

theorem IsWord.head {w t : List Char} {c : Char} (h : IsWord w) (hw : w <+: c :: t) :
    startsWord c = true := by
  obtain ⟨d, r, rfl, hd, -⟩ := h
  obtain ⟨rfl, -⟩ := List.cons_prefix_cons.mp hw
  exact hd

theorem IsQuoted.head {w t : List Char} {c : Char} (h : IsQuoted w) (hw : w <+: c :: t) :
    c = '"' := by
  obtain ⟨body, -, rfl | rfl⟩ := h
  · exact (List.cons_prefix_cons.mp hw).1.symm
  · exact (List.cons_prefix_cons.mp hw).1.symm

theorem Longest.ne_nil {P : List Char → Prop} {cs w : List Char} (h : Longest P cs w)
    (hP : ¬ P []) : w ≠ [] := fun hw => hP (hw ▸ h.1.2)

theorem not_isNumeral_nil : ¬ IsNumeral [] := by
  intro h
  generalize hw : ([] : List Char) = w at h
  cases h with
  | whole hne _ => exact hne hw.symm
  | pointed => simp at hw

theorem not_isWord_nil : ¬ IsWord [] := by
  rintro ⟨c, t, h, -⟩
  exact absurd h (by simp)

theorem not_isQuoted_nil : ¬ IsQuoted [] := by
  rintro ⟨body, -, h | h⟩ <;> exact absurd h (by simp)

theorem Reads.word_ne_nil {cs w : List Char} (h : Reads e cs w l) : w ≠ [] := by
  cases h with
  | numeral h _ => exact h.ne_nil not_isNumeral_nil
  | word _ h => exact h.ne_nil not_isWord_nil
  | string _ h _ _ => exact h.ne_nil not_isQuoted_nil
  | operator hs _ _ => exact operators_ne_nil _ hs
  | illegal _ _ _ => simp

theorem Reads.head_not_blank {c : Char} {t w : List Char} (h : Reads e (c :: t) w l) :
    isBlank c = false := by
  cases h with
  | numeral h _ => exact not_isBlank_of_digit (h.1.2.head h.1.1)
  | word _ h => exact not_isBlank_of_letter (h.1.2.head h.1.1)
  | string _ h _ _ =>
    rw [h.1.2.head h.1.1]
    decide
  | @operator s hs _ h =>
    obtain ⟨d, w, hw⟩ := List.exists_cons_of_ne_nil (operators_ne_nil s hs)
    have hc := (List.cons_prefix_cons.mp (hw ▸ h.1.1)).1
    exact (operators_heads s hs c (by simp [hw, hc])).1
  | illegal h hb _ =>
    obtain rfl : c = _ := by simpa using h
    exact hb

theorem lexeme_takes {w : List Char} (h : Reads e c.rest w l) : (c.lexeme e).Takes c.rest w l := by
  obtain ⟨ch, t, hc⟩ : ∃ ch t, c.rest = ch :: t := by
    apply List.exists_cons_of_ne_nil
    intro hn
    exact h.word_ne_nil (List.prefix_nil.mp (hn ▸ h.begins))
  cases h with
  | numeral hl hn =>
    have hd : Text.isAsciiDigit ch = true := hl.1.2.head (hc ▸ hl.1.1)
    have ho : operator? e c.rest = none := hc ▸ operator?_eq_none e t (.inl hd)
    have hq : ch ≠ '"' := fun hq => absurd (hq ▸ hd) (by decide)
    have hw : w = numeralPart c.rest := hl.unique (hc ▸ longest_numeral hd t)
    subst hw
    rw [lexeme_of_class hc ho]
    simpa [hq, not_startsWord_of_digit hd, hd] using number_takes hl.1.1 hn
  | word he hl =>
    have hs : startsWord ch = true := hl.1.2.head (hc ▸ hl.1.1)
    have ho : operator? e c.rest = none := hc ▸ operator?_eq_none e t (.inr (.inl hs))
    have hq : ch ≠ '"' := fun hq => absurd (hq ▸ hs) (by decide)
    have hw : w = c.rest.takeWhile continuesWord := hl.unique (hc ▸ longest_word hs t)
    subst hw
    rw [lexeme_of_class hc ho]
    simp only [hq, decide_false, Bool.false_and, Bool.false_eq_true, if_false, hs, he,
      Bool.and_self, if_true]
    exact ⟨rfl, rfl, isShort_of_kind (Kind.ofWord_ne e _).2.1⟩
  | @string _ body he hl hb hbody =>
    obtain rfl : ch = '"' := hl.1.2.head (hc ▸ hl.1.1)
    have ho : operator? e c.rest = none := hc ▸ operator?_eq_none e t (.inr (.inr rfl))
    have hw : w = quotedPart t := hl.unique (hc ▸ longest_quoted t)
    subst hw
    have hbody' : t.takeWhile (· ≠ '"') = body := by
      rw [← filter_quoted (not_mem_takeWhile_quote t) (quotedPart_eq t), filter_quoted hb hbody]
    rw [lexeme_of_class hc ho, ← hbody']
    simpa [he] using string_takes hc
  | @operator s hs hf hl =>
    rw [lexeme_of_operator (operator?_of_longest hs hl)]
    exact operator_takes hs
  | @illegal d hd _ hno =>
    obtain rfl : ch = d := by simpa [hc] using hd
    have hone : [ch] <+: c.rest := hc ▸ ⟨t, rfl⟩
    have ho : operator? e c.rest = none := by
      cases ho : operator? e c.rest with
      | none => rfl
      | some s =>
        obtain ⟨hs, hf, hl⟩ := operator?_some ho
        exact absurd (.inr (.inr (.inr hl.1.2))) (hno _ hl.1.1)
    have hq : ¬ (ch = '"' ∧ e.has .strings = true) := fun hq =>
      hno _ hone (.inr (.inr (.inl ⟨hq.2, [], by simp, .inl (by rw [hq.1])⟩)))
    have hs : ¬ (startsWord ch = true ∧ e.has .declarations = true) := fun hs =>
      hno _ hone (.inr (.inl ⟨hs.2, ch, [], rfl, hs.1, by simp⟩))
    have hdigit : ¬ Text.isAsciiDigit ch = true := fun hd =>
      hno _ hone (.inl (.whole (by simp) (by simpa [AllDigits] using hd)))
    rw [lexeme_of_class hc ho]
    simp only [Bool.and_eq_true, decide_eq_true_eq, hq, hs, hdigit, if_false, Bool.false_eq_true]
    exact ⟨rfl, rfl, isShort_of_kind (by simp)⟩

theorem Reads.of_operator {s : Spelling} (h : operator? e cs = some s) :
    Reads e cs s.text.toList ⟨s.kind, .text s.text⟩ := by
  obtain ⟨hs, hf, hl⟩ := operator?_some h
  exact .operator hs hf hl

theorem Reads.total (e : Edition) {c : Char} (hc : isBlank c = false) (t : List Char) :
    ∃ w l, Reads e (c :: t) w l := by
  cases ho : operator? e (c :: t) with
  | some s => exact ⟨_, _, .of_operator ho⟩
  | none =>
    by_cases hq : e.has .strings = true ∧ c = '"'
    · obtain ⟨he, rfl⟩ := hq
      exact ⟨_, _, .string he (longest_quoted t) (not_mem_takeWhile_quote t) (quotedPart_eq t)⟩
    · by_cases hs : e.has .declarations = true ∧ startsWord c = true
      · exact ⟨_, _, .word hs.1 (longest_word hs.2 t)⟩
      · by_cases hd : Text.isAsciiDigit c = true
        · obtain ⟨l, hl⟩ := numeralReads_total (c :: t)
          exact ⟨_, l, .numeral (longest_numeral hd t) hl⟩
        · refine ⟨_, _, .illegal rfl hc ?_⟩
          rintro w hw (h | ⟨he, h⟩ | ⟨he, h⟩ | h)
          · exact hd (h.head hw)
          · exact hs ⟨he, h.head hw⟩
          · exact hq ⟨he, h.head hw⟩
          · exact operator?_none ho w hw h

theorem Reads.unique {cs v w : List Char} {k l : Lexeme} (hv : Reads e cs v k)
    (hw : Reads e cs w l) : v = w ∧ k = l := by
  obtain ⟨hrv, htv⟩ := lexeme_takes (c := ⟨cs, 0, 1⟩) hv
  obtain ⟨hrw, htw⟩ := lexeme_takes (c := ⟨cs, 0, 1⟩) hw
  have hdrop := hrv.symm.trans hrw
  have hlen := congrArg List.length hdrop
  simp only [List.length_drop] at hlen
  have hlv := hv.begins.length_le
  have hlw := hw.begins.length_le
  obtain rfl : v = w :=
    (List.prefix_of_prefix_length_le hv.begins hw.begins (by omega)).eq_of_length (by omega)
  refine ⟨rfl, ?_⟩
  split at htv <;> simp_all

theorem takeWhile_gap {gap word rest : List Char} (hg : ∀ c ∈ gap, isBlank c = true)
    (h : Reads e (word ++ rest) word l) : (gap ++ (word ++ rest)).takeWhile isBlank = gap := by
  apply takeWhile_of_boundary hg
  intro c hc
  obtain ⟨t, ht⟩ := List.head?_eq_some_iff.mp hc
  rw [ht] at h
  exact h.head_not_blank

theorem Tokenization.unique {cs last last' : List Char} {ps ps' : List Piece}
    (h : Tokenization e cs ps last) (h' : Tokenization e cs ps' last') :
    ps = ps' ∧ last = last' := by
  induction h generalizing ps' last' with
  | @done gap hg =>
    cases h' with
    | done _ => exact ⟨rfl, rfl⟩
    | @piece gap' word rest _ l _ hg' hr _ =>
      obtain ⟨c, t, rfl⟩ := List.exists_cons_of_ne_nil hr.word_ne_nil
      have hb := hg c (by simp)
      rw [hr.head_not_blank] at hb
      exact absurd hb (by simp)
  | @piece gap word rest last l ps hg hr _ ih =>
    generalize hcs : gap ++ (word ++ rest) = cs at h'
    cases h' with
    | done hg' =>
      obtain ⟨c, t, rfl⟩ := List.exists_cons_of_ne_nil hr.word_ne_nil
      have hb := hg' c (by rw [← hcs]; simp)
      rw [hr.head_not_blank] at hb
      exact absurd hb (by simp)
    | @piece gap' word' rest' _ l' ps' hg' hr' ht =>
      obtain rfl : gap = gap' := by
        rw [← takeWhile_gap hg hr, hcs, takeWhile_gap hg' hr']
      have hsame := List.append_cancel_left hcs
      rw [← hsame] at hr'
      obtain ⟨rfl, rfl⟩ := hr.unique hr'
      obtain rfl := List.append_cancel_left hsame
      obtain ⟨rfl, rfl⟩ := ih ht
      exact ⟨rfl, rfl⟩

theorem skipBlanks_rest (c : Cursor) : c.skipBlanks.rest = c.rest.dropWhile isBlank := by
  have h := List.takeWhile_append_dropWhile (p := isBlank) (l := c.rest)
  calc c.skipBlanks.rest = c.rest.drop (c.rest.takeWhile isBlank).length := rfl
    _ = (c.rest.takeWhile isBlank ++ c.rest.dropWhile isBlank).drop
          (c.rest.takeWhile isBlank).length := by rw [h]
    _ = c.rest.dropWhile isBlank := List.drop_left

theorem lexeme_of_nil (hc : c.rest = []) :
    c.lexeme e = ⟨.ok (c.token .eof (.text "")), c.skip 1, none⟩ := by
  rw [Cursor.lexeme]
  split
  · rfl
  · rename_i h
    exact absurd (hc.symm.trans h) (by simp)

theorem Reads.kind_ne_eof {cs w : List Char} (h : Reads e cs w l) : l.kind ≠ .eof := by
  cases h with
  | numeral _ h => cases h <;> simp
  | word _ _ => exact (Kind.ofWord_ne e _).1
  | string _ _ _ _ => simp
  | operator hs _ _ => exact (operators_kinds _ hs).1
  | illegal _ _ _ => simp

theorem dropWhile_gap {gap word rest : List Char} (hg : ∀ c ∈ gap, isBlank c = true)
    (h : Reads e (word ++ rest) word l) :
    (gap ++ (word ++ rest)).dropWhile isBlank = word ++ rest := by
  have hsplit := List.takeWhile_append_dropWhile (p := isBlank) (l := gap ++ (word ++ rest))
  rw [takeWhile_gap hg h] at hsplit
  exact List.append_cancel_left hsplit

/-- A step of reading takes a gap and the lexeme behind it. It fails only on an integer that is too
long. -/
theorem next_piece {gap word rest : List Char} (hc : c.rest = gap ++ (word ++ rest))
    (hg : ∀ x ∈ gap, isBlank x = true) (hr : Reads e (word ++ rest) word l) :
    (c.next e).after.rest = rest ∧
      ((∃ t, (c.next e).result = .ok t ∧ t.toLexeme = l ∧ IsShort word l) ∨
        ∃ f, (c.next e).result = .error f ∧ l.kind = .int ∧ f.digits = word.length ∧
          ¬ IsShort word l) := by
  have hskip : c.skipBlanks.rest = word ++ rest := by
    rw [skipBlanks_rest, hc, dropWhile_gap hg hr]
  obtain ⟨hrest, hres⟩ := lexeme_takes (c := c.skipBlanks) (e := e) (w := word) (l := l)
    (by rwa [hskip])
  refine ⟨by rw [Cursor.next, hrest, hskip, List.drop_left], ?_⟩
  rw [Cursor.next]
  cases hr : (c.skipBlanks.lexeme e).result with
  | ok tok =>
    rw [hr] at hres
    exact .inl ⟨tok, rfl, hres⟩
  | error f =>
    rw [hr] at hres
    exact .inr ⟨f, rfl, by rw [hres.1], hres.2⟩

theorem next_eof (hc : ∀ x ∈ c.rest, isBlank x = true) :
    ∃ t, (c.next e).result = .ok t ∧ t.toLexeme = .eof := by
  have hskip : c.skipBlanks.rest = [] := by
    rw [skipBlanks_rest, List.dropWhile_eq_nil_iff.mpr hc]
  exact ⟨_, by rw [Cursor.next, lexeme_of_nil hskip], rfl⟩

theorem piece_cases (e : Edition) (cs : List Char) :
    (∀ c ∈ cs, isBlank c = true) ∨ ∃ gap word rest l, cs = gap ++ (word ++ rest) ∧
      (∀ c ∈ gap, isBlank c = true) ∧ Reads e (word ++ rest) word l := by
  have hsplit := List.takeWhile_append_dropWhile (p := isBlank) (l := cs)
  have hblank : ∀ x ∈ cs.takeWhile isBlank, isBlank x = true :=
    fun _ hx => List.mem_takeWhile_imp hx
  cases hd : cs.dropWhile isBlank with
  | nil =>
    rw [hd, List.append_nil] at hsplit
    exact .inl (hsplit ▸ hblank)
  | cons ch t =>
    have hch : isBlank ch = false := by
      have hhead : (cs.dropWhile isBlank).head? = some ch := by rw [hd]; rfl
      exact head?_dropWhile_not hhead
    obtain ⟨w, l, hr⟩ := Reads.total e hch t
    obtain ⟨rest, hw⟩ := hr.begins
    refine .inr ⟨cs.takeWhile isBlank, w, rest, l, ?_, hblank, hw ▸ hr⟩
    rw [hw, ← hd, hsplit]

theorem Tokenization.total (e : Edition) (cs : List Char) :
    ∃ ps last, Tokenization e cs ps last := by
  induction h : cs.length using Nat.strong_induction_on generalizing cs with
  | _ n ih =>
    rcases piece_cases e cs with hall | ⟨gap, word, rest, l, rfl, hg, hr⟩
    · exact ⟨[], cs, .done hall⟩
    · have hpos := List.length_pos_iff.mpr hr.word_ne_nil
      simp only [List.length_append] at h
      obtain ⟨ps, last, ht⟩ := ih rest.length (by omega) rest rfl
      exact ⟨_, last, .piece hg hr ht⟩

theorem upToEof_of_eof {t : Token} (fuel : Nat) (h : (c.next e).result = .ok t)
    (hk : t.kind = .eof) :
    Scan.upToEof e (fuel + 1) c = ⟨[t], (c.next e).notice.toList, none, (c.next e).after⟩ := by
  simp only [Scan.upToEof, h, hk, if_true]

theorem upToEof_of_ok {t : Token} (fuel : Nat) (h : (c.next e).result = .ok t)
    (hk : t.kind ≠ .eof) :
    Scan.upToEof e (fuel + 1) c =
      { Scan.upToEof e fuel (c.next e).after with
        tokens := t :: (Scan.upToEof e fuel (c.next e).after).tokens
        notices :=
          (c.next e).notice.toList ++ (Scan.upToEof e fuel (c.next e).after).notices } := by
  simp only [Scan.upToEof, h, hk, if_false]

theorem upToEof_of_error {f : NumberTooLong} (fuel : Nat) (h : (c.next e).result = .error f) :
    (Scan.upToEof e (fuel + 1) c).failure = some f := by
  simp only [Scan.upToEof, h]

theorem Tokenization.length_le (h : Tokenization e cs ps last) : ps.length ≤ cs.length := by
  induction h with
  | done _ => simp
  | piece _ hr _ ih =>
    have hpos := List.length_pos_iff.mpr hr.word_ne_nil
    simp only [List.length_cons, List.length_append]
    omega

/-- Reading a text gives the lexemes of its pieces and the end of the file, unless one of the
pieces is an integer of too many digits. -/
theorem Tokenization.upToEof_cases (h : Tokenization e cs ps last) {fuel : Nat} (hc : c.rest = cs)
    (hfuel : cs.length < fuel) :
    ((Scan.upToEof e fuel c).failure = none ∧ (∀ p ∈ ps, IsShort p.word p.lexeme) ∧
        (Scan.upToEof e fuel c).tokens.map Token.toLexeme = ps.map Piece.lexeme ++ [.eof]) ∨
      ∃ f, (Scan.upToEof e fuel c).failure = some f ∧ maxDigits < f.digits ∧
        ∃ p ∈ ps, p.lexeme.kind = .int ∧ p.word.length = f.digits := by
  induction h generalizing fuel c with
  | @done gap hg =>
    obtain _ | fuel := fuel
    · omega
    obtain ⟨t, ht, heof⟩ := next_eof (e := e) (hc ▸ hg)
    have hk : t.kind = .eof := by rw [heof]; rfl
    rw [upToEof_of_eof fuel ht hk]
    exact .inl ⟨rfl, by simp, congrArg (· :: []) heof⟩
  | @piece gap word rest last l ps hg hr htok ih =>
    obtain _ | fuel := fuel
    · omega
    have hpos := List.length_pos_iff.mpr hr.word_ne_nil
    simp only [List.length_append] at hfuel
    obtain ⟨ha, ⟨t, hres, htl, hs⟩ | ⟨f, hres, hk, hd, hlong⟩⟩ := next_piece hc hg hr
    · have hk : t.kind ≠ .eof := htl ▸ hr.kind_ne_eof
      rw [upToEof_of_ok fuel hres hk]
      rcases @ih _ fuel ha (by omega) with ⟨hok, hps, hmap⟩ | ⟨f, hf, hlong, p, hp, hpk⟩
      · refine .inl ⟨hok, List.forall_mem_cons.mpr ⟨hs, hps⟩, ?_⟩
        rw [List.map_cons, htl, hmap]
        rfl
      · exact .inr ⟨f, hf, hlong, p, by simp [hp], hpk⟩
    · refine .inr ⟨f, upToEof_of_error fuel hres, ?_, _, List.mem_cons_self, hk, hd.symm⟩
      simpa [IsShort, hk, hd] using hlong

theorem upToEof_tokenization (e : Edition) {fuel : Nat} (hfuel : c.rest.length < fuel)
    (hok : (Scan.upToEof e fuel c).failure = none) :
    ∃ ps last, Tokenization e c.rest ps last ∧
      (Scan.upToEof e fuel c).tokens.map Token.toLexeme = ps.map Piece.lexeme ++ [.eof] ∧
      ps.length ≤ c.rest.length ∧ ∀ p ∈ ps, IsShort p.word p.lexeme := by
  obtain ⟨ps, last, ht⟩ := Tokenization.total e c.rest
  rcases ht.upToEof_cases rfl hfuel with ⟨-, hshort, hmap⟩ | ⟨f, hf, -⟩
  · exact ⟨ps, last, ht, hmap, ht.length_le, hshort⟩
  · simp [hf] at hok

theorem Tokenization.upToEof (h : Tokenization e cs ps last)
    (hshort : ∀ p ∈ ps, IsShort p.word p.lexeme) {fuel : Nat} (hc : c.rest = cs)
    (hfuel : cs.length < fuel) :
    (Scan.upToEof e fuel c).failure = none ∧
      (Scan.upToEof e fuel c).tokens.map Token.toLexeme = ps.map Piece.lexeme ++ [.eof] := by
  rcases h.upToEof_cases hc hfuel with ⟨hok, -, hmap⟩ | ⟨f, -, hlong, p, hp, hk, hd⟩
  · exact ⟨hok, hmap⟩
  · have hle := hshort p hp hk
    omega

theorem Scan.lexemes_eq_filter (s : Scan) :
    s.lexemes = (s.tokens.map Token.toLexeme).filter fun l => l.kind ≠ .eof := by
  rw [Scan.lexemes, List.filter_map]
  rfl

theorem lexemes_of_tokens {s : Scan} {ls : List Lexeme}
    (h : s.tokens.map Token.toLexeme = ls ++ [.eof]) (hk : ∀ l ∈ ls, l.kind ≠ .eof) :
    s.lexemes = ls := by
  rw [s.lexemes_eq_filter, h, List.filter_append, List.filter_eq_self.mpr (by simpa using hk)]
  simp [Lexeme.eof]

theorem Tokenization.kind_ne_eof (h : Tokenization e cs ps last) :
    ∀ l ∈ ps.map Piece.lexeme, l.kind ≠ .eof := by
  induction h with
  | done _ => simp
  | piece _ hr _ ih => simpa using ⟨hr.kind_ne_eof, by simpa using ih⟩

theorem Tokenization.ofSource_cases {source : String} {last : List Char}
    (h : Tokenization e source.toList ps last) :
    ((Scan.ofSource e source).failure = none ∧ (∀ p ∈ ps, IsShort p.word p.lexeme) ∧
        (Scan.ofSource e source).tokens.map Token.toLexeme = ps.map Piece.lexeme ++ [.eof] ∧
        (Scan.ofSource e source).lexemes = ps.map Piece.lexeme) ∨
      ∃ f, (Scan.ofSource e source).failure = some f ∧ maxDigits < f.digits ∧
        ∃ p ∈ ps, p.lexeme.kind = .int ∧ p.word.length = f.digits := by
  rcases h.upToEof_cases (c := .start source) rfl (Nat.lt_succ_self _) with ⟨hok, hshort, hmap⟩ | hf
  · exact .inl ⟨hok, hshort, hmap, lexemes_of_tokens hmap h.kind_ne_eof⟩
  · exact .inr hf

/-- Reading a source without failure gives its only tokenization, and the end of the file, in at
most one step more than the source has characters. -/
theorem ofSource_maximal_munch (e : Edition) (source : String)
    (hok : (Scan.ofSource e source).failure = none) :
    (Scan.ofSource e source).tokens.length ≤ source.length + 1 ∧
      ∃ ps last, Tokenization e source.toList ps last ∧
        ps.flatMap (fun p => p.gap ++ p.word) ++ last = source.toList ∧
        (∀ ps' last', Tokenization e source.toList ps' last' → ps' = ps ∧ last' = last) ∧
        (Scan.ofSource e source).tokens.map Token.toLexeme = ps.map Piece.lexeme ++ [.eof] := by
  obtain ⟨ps, last, ht, hmap, hle, -⟩ :=
    upToEof_tokenization e (c := .start source) (Nat.lt_succ_self _) hok
  have hlen := congrArg List.length hmap
  simp only [List.length_map, List.length_append, List.length_cons, List.length_nil] at hlen
  refine ⟨?_, ps, last, ht, ht.flatMap_append, fun _ _ h => h.unique ht, hmap⟩
  have hsrc : (Cursor.start source).rest.length = source.length := String.length_toList
  change (Scan.ofSource e source).tokens.length = _ at hlen
  omega

theorem ofSource_maximal_munch_mixed :
    (Scan.ofSource .latest "let x_1: int = 1.5 >=..\"a b").failure = none ∧
      ∃ ps last, Tokenization .latest "let x_1: int = 1.5 >=..\"a b".toList ps last ∧
        (Scan.ofSource .latest "let x_1: int = 1.5 >=..\"a b").tokens.map Token.toLexeme =
          ps.map Piece.lexeme ++ [.eof] := by
  have hok : (Scan.ofSource .latest "let x_1: int = 1.5 >=..\"a b").failure = none := by
    decide +kernel
  obtain ⟨_, ps, last, ht, _, _, hmap⟩ := ofSource_maximal_munch .latest _ hok
  exact ⟨hok, ps, last, ht, hmap⟩

end LimeLang
