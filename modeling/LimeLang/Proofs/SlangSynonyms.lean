import LimeLang.Proofs.LayoutIndependence
import LimeLang.Proofs.Respelling
import LimeLang.Proofs.WrittenForms
import Mathlib.Tactic.IntervalCases

/-! A reserved lexeme may be written in slang. All but the arrow are then read as the same lexeme
with another literal, and the tree stays the same unless it shows that literal, as an assignment
does with its operator. The arrow has no slang that can be read. -/

namespace LimeLang

variable {e : Edition} {cs last : List Char} {ps qs : List Piece} {w : List Char}

/-! ### A piece depends on the next character alone -/

theorem IsNumeral.of_initial {u v : List Char} (hv : IsNumeral v) (h : u <+: v) (hu : u ≠ []) :
    IsNumeral u := by
  cases hv with
  | whole _ hd => exact .whole hu fun c hc => hd c (h.subset hc)
  | @pointed ds fs hne hd hf =>
    obtain ⟨t, ht⟩ := h
    rcases List.append_eq_append_iff.mp ht with ⟨a, rfl, -⟩ | ⟨a, rfl, ha⟩
    · exact .whole hu fun c hc => hd c (List.mem_append_left _ hc)
    · cases a with
      | nil => exact .whole hu (by simpa using hd)
      | cons b a =>
        obtain ⟨rfl, rfl⟩ := List.cons.inj ha
        exact .pointed hne hd fun c hc => hf c (List.mem_append_left _ hc)

theorem IsNumeral.not_blank (h : IsNumeral w) : ∀ c ∈ w, isBlank c = false := by
  cases h with
  | whole _ hd => exact fun c hc => not_isBlank_of_digit (hd c hc)
  | pointed _ hd hf =>
    refine List.forall_mem_append.mpr ⟨fun c hc => not_isBlank_of_digit (hd c hc), ?_⟩
    exact List.forall_mem_cons.mpr ⟨by decide, fun c hc => not_isBlank_of_digit (hf c hc)⟩

theorem IsWord.of_initial {u v : List Char} (hv : IsWord v) (h : u <+: v) (hu : u ≠ []) :
    IsWord u := by
  obtain ⟨c, t, rfl, hc, ht⟩ := hv
  obtain ⟨d, u, rfl⟩ := List.exists_cons_of_ne_nil hu
  obtain ⟨rfl, hut⟩ := List.cons_prefix_cons.mp h
  exact ⟨d, u, rfl, hc, fun x hx => ht x (hut.subset hx)⟩

theorem IsWord.not_blank (h : IsWord w) : ∀ c ∈ w, isBlank c = false := by
  intro c hc
  refine Bool.eq_false_iff.mpr fun hb => ?_
  have hword := h.all c hc
  rw [not_continuesWord_of_blank hb] at hword
  cases hword

theorem IsOperator.not_blank (h : IsOperator e w) : ∀ c ∈ w, isBlank c = false := by
  obtain ⟨s, hs, -, rfl⟩ := h
  exact operators_no_blank s hs

theorem operators_short : ∀ s ∈ operators, s.text.toList.length ≤ 2 := by
  decide

/-- The longest word of a class stays the longest before another text, if that begins with the same
character or with a blank. -/
theorem Longest.of_next {P : List Char → Prop} {w r r' : List Char} (h : Longest P (w ++ r) w)
    (hP : ∀ {x v}, P (w ++ x :: v) → P (w ++ [x])) (hblank : ∀ {v}, P v →
    ∀ c ∈ v, isBlank c = false)
    (hr : ∀ x ∈ r'.head?, x ∈ r.head? ∨ isBlank x = true) : Longest P (w ++ r') w := by
  refine ⟨⟨List.prefix_append _ _, h.1.2⟩, fun v hv hPv => ?_⟩
  by_contra hlt
  obtain ⟨u, rfl⟩ := List.prefix_of_prefix_length_le (List.prefix_append w r') hv (by omega)
  cases u with
  | nil => simp at hlt
  | cons x u =>
    obtain ⟨t, rfl⟩ := (List.prefix_append_right_inj w).mp hv
    have hx := hP hPv
    rcases hr x rfl with hhead | hb
    · obtain ⟨r, rfl⟩ := List.head?_eq_some_iff.mp hhead
      have hle := h.2 (w ++ [x]) ⟨r, by simp⟩ hx
      simp at hle
    · have hnot := hblank hx x (by simp)
      simp [hb] at hnot

theorem point_initial_iff {w r : List Char} : w ++ ['.'] <+: w ++ r ↔ '.' ∈ r.head? := by
  rw [List.prefix_append_right_inj]
  constructor
  · rintro ⟨t, rfl⟩
    rfl
  · intro h
    obtain ⟨t, rfl⟩ := List.head?_eq_some_iff.mp h
    exact ⟨t, rfl⟩

/-- A string that is not closed goes to the end of the text. -/
theorem Longest.closed_quoted {w body r : List Char} (h : Longest IsQuoted (w ++ r) w)
    (hb : '"' ∉ body)
    (hw : w = '"' :: body ∨ w = '"' :: (body ++ ['"'])) (hr : r ≠ []) :
      w = '"' :: (body ++ ['"']) := by
  refine hw.resolve_left ?_
  rintro rfl
  obtain ⟨x, t, rfl⟩ := List.exists_cons_of_ne_nil hr
  have hlonger : IsQuoted ('"' :: (body ++ [x])) := by
    by_cases hx : x = '"'
    · exact ⟨body, hb, .inr (by rw [hx])⟩
    · exact ⟨body ++ [x], by simp [hb, Ne.symm hx], .inl rfl⟩
  have hle := h.2 _ ⟨t, by simp⟩ hlonger
  simp at hle

theorem Reads.of_next {w r r' : List Char} {l : Lexeme} (h : Reads e (w ++ r) w l) (hne : r ≠ [])
    (hr : ∀ x ∈ r'.head?, x ∈ r.head? ∨ isBlank x = true)
    (hpoint : '.' ∈ r.head? → '.' ∈ r'.head?) : Reads e (w ++ r') w l := by
  have hpoint' : '.' ∈ r'.head? → '.' ∈ r.head? := fun hh => (hr _ hh).resolve_right (by decide)
  cases h with
  | numeral hw hn =>
    refine .numeral (hw.of_next (fun {_ v} hv => hv.of_initial ⟨v, by simp⟩ (by simp)) (·.not_blank)
      hr) ?_
    cases hn with
    | int hp => exact .int hp
    | secondPoint hp hcs =>
      exact .secondPoint hp (point_initial_iff.mpr (hpoint (point_initial_iff.mp hcs)))
    | float hp hcs =>
      exact .float hp fun hh => hcs (point_initial_iff.mpr (hpoint' (point_initial_iff.mp hh)))
  | word hd hw =>
    exact .word hd (hw.of_next (fun {_ v} hv => hv.of_initial ⟨v, by simp⟩ (by simp)) (·.not_blank)
      hr)
  | string hs hw hb hbody =>
    obtain rfl := hw.closed_quoted hb hbody hne
    exact .string hs (longest_quoted_closed hb r') hb (.inr rfl)
  | @operator s hs hf hw =>
    refine .operator hs hf (hw.of_next ?_ (·.not_blank) hr)
    rintro x v ⟨t, ht, htf, htext⟩
    have hshort := operators_short t ht
    have hpos := List.length_pos_of_ne_nil (operators_ne_nil s hs)
    rw [htext, List.length_append, List.length_cons] at hshort
    obtain rfl : v = [] := List.length_eq_zero_iff.mp (by omega)
    exact ⟨t, ht, htf, htext⟩
  | @illegal c _ hc hnone =>
    refine .illegal rfl hc fun v hv hlex => ?_
    have hfirst : ¬ IsLexical e [c] := hnone [c] ⟨r, rfl⟩
    have hne' : v ≠ [] := by
      rintro rfl
      rcases hlex with hh | ⟨-, hh⟩ | ⟨-, hh⟩ | ⟨s, hs, -, hh⟩
      · exact not_isNumeral_nil hh
      · exact not_isWord_nil hh
      · exact not_isQuoted_nil hh
      · exact operators_ne_nil s hs hh
    obtain ⟨d, u, rfl⟩ := List.exists_cons_of_ne_nil hne'
    obtain ⟨rfl, hu⟩ := List.cons_prefix_cons.mp hv
    -- but for an operator of two characters, the first one alone would do
    rcases hlex with hh | ⟨hd, hh⟩ | ⟨hs, hh⟩ | hh
    · exact hfirst (.inl (hh.of_initial ⟨u, rfl⟩ (by simp)))
    · exact hfirst (.inr (.inl ⟨hd, hh.of_initial ⟨u, rfl⟩ (by simp)⟩))
    · obtain ⟨body, -, hbody⟩ := hh
      obtain rfl : d = '"' := hbody.elim (fun hh => (List.cons.inj hh).1) fun hh =>
        (List.cons.inj hh).1
      exact hfirst (.inr (.inr (.inl ⟨hs, [], by simp, .inl rfl⟩)))
    · have hblank := hh.not_blank
      obtain ⟨s, hs, hf, htext⟩ := hh
      have hshort := operators_short s hs
      rw [htext, List.length_cons] at hshort
      cases u with
      | nil => exact hfirst (.inr (.inr (.inr ⟨s, hs, hf, htext⟩)))
      | cons x u =>
        obtain rfl : u = [] := List.length_eq_zero_iff.mp (by simpa using hshort)
        obtain ⟨t, rfl⟩ := hu
        rcases hr x rfl with hhead | hb
        · obtain ⟨t', rfl⟩ := List.head?_eq_some_iff.mp hhead
          exact hnone [d, x] ⟨t', rfl⟩ (.inr (.inr (.inr ⟨s, hs, hf, htext⟩)))
        · have hnot := hblank x (by simp)
          simp [hb] at hnot

/-! ### A text with one word in slang -/

def Piece.text (p : Piece) : List Char := p.gap ++ p.word

/-- The text of the pieces with another word in place of that of `p`, set off by spaces. -/
def respelled (ps : List Piece) (p : Piece) (word : String) (qs : List Piece) (last : List Char) :
    List Char :=
  ps.flatMap Piece.text ++ (p.gap ++ ' ' :: (word.toList ++ ' ' :: (qs.flatMap Piece.text ++ last)))

theorem slang_words : ∀ s ∈ slang, s.kind ≠ .arrow → isWordText s.text = true := by
  decide

theorem slang_since : ∀ s ∈ slang, Feature.since .declarations ≤ s.feature.since := by
  decide

theorem slang_reserved : ∀ s ∈ slang, s.kind.isReserved = true := by
  decide

theorem Reads.slang {s : Spelling} (hs : s ∈ slang) (hf : e.has s.feature = true)
    (harrow : s.kind ≠ .arrow) {r : List Char} (hr : AtBlank r) :
    Reads e (s.text.toList ++ r) s.text.toList ⟨s.kind, .text s.text⟩ := by
  have hword := isWord_of_isWordText (slang_words s hs harrow)
  have hread : Reads e (s.text.toList ++ r) s.text.toList
      ⟨.ofWord e (String.ofList s.text.toList), .text (String.ofList s.text.toList)⟩ :=
    .word (Edition.has_of_since_le (slang_since s hs) hf) (longest_word_blank hword hr)
  rwa [String.ofList_toList, Kind.ofWord_reserved (by simp [hs]) hf] at hread

theorem Tokenization.blank_cons {ps : List Piece} (h : Tokenization e cs ps last) :
    ∃ qs last', Tokenization e (' ' :: cs) qs last' ∧
      qs.map Piece.lexeme = ps.map Piece.lexeme ∧ qs.map Piece.word = ps.map Piece.word := by
  cases h with
  | done hgap => exact ⟨[], _, .done (List.forall_mem_cons.mpr ⟨by decide, hgap⟩), rfl, rfl⟩
  | @piece gap word rest _ l ps hgap hr ht =>
    have hgap' : ∀ c ∈ ' ' :: gap, isBlank c = true := List.forall_mem_cons.mpr ⟨by decide, hgap⟩
    exact ⟨_, last, .piece hgap' hr ht, rfl, rfl⟩

theorem operators_no_point : ∀ s ∈ operators, '.' ∉ s.text.toList.head? := by
  decide

theorem Reads.head_ne_point {w r : List Char} {l : Lexeme} (h : Reads e (w ++ r) w l)
    (hk : l.kind.isReserved = true) : '.' ∉ (w ++ r).head? := by
  rw [List.head?_append_of_ne_nil _ h.word_ne_nil]
  cases h with
  | numeral _ hn => cases hn <;> cases hk
  | word _ hw =>
    obtain ⟨c, t, rfl, hc, -⟩ := hw.1.2
    rintro hpoint
    obtain rfl : c = '.' := by simpa using hpoint
    exact absurd hc (by decide)
  | string _ _ _ _ => cases hk
  | operator hs _ _ => exact operators_no_point _ hs
  | illegal _ _ _ => cases hk

theorem respelled_next {p : Piece} (h : Tokenization e cs (ps ++ p :: qs) last)
    (hk : p.lexeme.kind.isReserved = true) (word : String) :
    cs ≠ [] ∧ (∀ x ∈ (respelled ps p word qs last).head?, x ∈ cs.head? ∨ isBlank x = true) ∧
      ('.' ∈ cs.head? → '.' ∈ (respelled ps p word qs last).head?) := by
  cases ps with
  | nil =>
    cases h with
    | @piece gap w rest _ l _ hgap hr ht =>
      refine ⟨by simp [hr.word_ne_nil], ?_⟩
      cases gap with
      | nil =>
        exact ⟨fun x hx => .inr (atBlank_space _ x hx), fun hh => absurd hh (hr.head_ne_point hk)⟩
      | cons c gap => exact ⟨fun x hx => .inl hx, id⟩
  | cons q ps =>
    cases h with
    | @piece gap w rest _ l _ hgap hr ht =>
      refine ⟨by simp [hr.word_ne_nil], ?_⟩
      have hne : gap ++ w ≠ [] := by simp [hr.word_ne_nil]
      have hhead : (respelled (⟨gap, w, l⟩ :: ps) p word qs last).head? =
          (gap ++ (w ++ rest)).head? := by
        rw [respelled, List.flatMap_cons, Piece.text, List.append_assoc, List.head?_append_of_ne_nil
          _ hne, ← List.append_assoc, List.head?_append_of_ne_nil _ hne]
      rw [hhead]
      exact ⟨fun x hx => .inl hx, id⟩

/-- Writing one word in slang keeps the division of a text into pieces. -/
theorem Tokenization.respelled {s : Spelling} (hs : s ∈ slang) (hf : e.has s.feature = true)
    (harrow : s.kind ≠ .arrow) {p : Piece} (h : Tokenization e cs (ps ++ p :: qs) last)
    (hp : p.lexeme.kind = s.kind) :
    ∃ qs' last', Tokenization e (LimeLang.respelled ps p s.text qs last)
        (ps ++ ⟨p.gap ++ [' '], s.text.toList, ⟨s.kind, .text s.text⟩⟩ :: qs') last' ∧
      qs'.map Piece.lexeme = qs.map Piece.lexeme ∧ qs'.map Piece.word = qs.map Piece.word := by
  induction ps generalizing cs with
  | nil =>
    cases h with
    | @piece gap word rest _ l _ hgap hr ht =>
      obtain ⟨qs', last', ht', hlexemes, hwords⟩ := ht.blank_cons
      have hgap' : ∀ c ∈ gap ++ [' '], isBlank c = true :=
        List.forall_mem_append.mpr ⟨hgap, by simp [isBlank]⟩
      have hnew := Tokenization.piece hgap' (Reads.slang hs hf harrow (atBlank_space rest)) ht'
      refine ⟨qs', last', ?_, hlexemes, hwords⟩
      rw [List.append_assoc, ← ht.flatMap_append] at hnew
      exact hnew
  | cons q ps ih =>
    cases h with
    | @piece gap word rest _ l _ hgap hr ht =>
      obtain ⟨qs', last', ht', hlexemes, hwords⟩ := ih ht
      obtain ⟨hne, hnext, hpoint⟩ := respelled_next ht (hp ▸ slang_reserved s hs) s.text
      have hnew := Tokenization.piece hgap (hr.of_next hne hnext hpoint) ht'
      refine ⟨qs', last', ?_, hlexemes, hwords⟩
      rw [LimeLang.respelled, List.flatMap_cons, Piece.text, List.append_assoc, List.append_assoc]
      exact hnew

theorem isShort_map (hlexemes : qs.map Piece.lexeme = ps.map Piece.lexeme)
    (hwords : qs.map Piece.word = ps.map Piece.word) (h : ∀ p ∈ ps, IsShort p.word p.lexeme) :
    ∀ q ∈ qs, IsShort q.word q.lexeme := by
  induction ps generalizing qs with
  | nil => simp [List.map_eq_nil_iff.mp hwords]
  | cons p ps ih =>
    cases qs with
    | nil => simp
    | cons q qs =>
      obtain ⟨hlexeme, hlexemes⟩ := List.cons.inj hlexemes
      obtain ⟨hword, hwords⟩ := List.cons.inj hwords
      obtain ⟨hp, hps⟩ := List.forall_mem_cons.mp h
      exact List.forall_mem_cons.mpr ⟨hlexeme ▸ hword ▸ hp, ih hlexemes hwords hps⟩

theorem lexemes_respelled {s : Spelling} (hs : s ∈ slang) (hf : e.has s.feature = true)
    (harrow : s.kind ≠ .arrow) {p : Piece} {source : String} {last : List Char}
    (h : Tokenization e source.toList (ps ++ p :: qs) last) (hp : p.lexeme.kind = s.kind)
    (hok : (Scan.ofSource e source).failure = none) :
    (Scan.ofSource e (String.ofList (respelled ps p s.text qs last))).failure = none ∧
      (Scan.ofSource e (String.ofList (respelled ps p s.text qs last))).lexemes =
        ps.map Piece.lexeme ++ ⟨s.kind, .text s.text⟩ :: qs.map Piece.lexeme ∧
      (Scan.ofSource e source).lexemes = ps.map Piece.lexeme ++ p.lexeme :: qs.map
        Piece.lexeme := by
  rcases h.ofSource_cases with ⟨-, hshort, -, hlexemes⟩ | ⟨f, hfail, -⟩
  · obtain ⟨qs', last', ht', hmap, hwords⟩ := h.respelled hs hf harrow hp
    obtain ⟨hps, hpqs⟩ := List.forall_mem_append.mp hshort
    have hshort' : ∀ q ∈ ps ++ ⟨p.gap ++ [' '], s.text.toList, ⟨s.kind, .text s.text⟩⟩ :: qs',
        IsShort q.word q.lexeme := by
      refine List.forall_mem_append.mpr ⟨hps, List.forall_mem_cons.mpr ⟨?_, ?_⟩⟩
      · exact isShort_of_kind (reserved_kinds s (by simp [hs])).2.1
      · exact isShort_map hmap hwords (List.forall_mem_cons.mp hpqs).2
    rw [← String.toList_ofList (l := respelled ps p s.text qs last)] at ht'
    rcases ht'.ofSource_cases with ⟨hok', -, -, hlexemes'⟩ | ⟨f, -, hlong, q, hq, hk, hd⟩
    · exact ⟨hok', by rw [hlexemes', List.map_append, List.map_cons, hmap], by rw [hlexemes,
        List.map_append, List.map_cons]⟩
    · have hle := hshort' q hq hk
      omega
  · simp [hfail] at hok

/-- A source in which one word, but for an arrow, is replaced by its slang has the same errors, and
the same tree up to the words that come from this place. So the tree is the same if it has none: if
no parameter, type or target of an assignment is spelled like the word and, in the editions that
keep the operators of assignments, there is no assignment with this operator behind a target that is
spelled like the lexeme before it. -/
theorem slang_synonymous {e : Edition} {s : Spelling} (hs : s ∈ slang) (hf : e.has s.feature = true)
    (harrow : s.kind ≠ .arrow) {ps qs : List Piece} {p : Piece} {source : String} {last : List Char}
    (h : Tokenization e source.toList (ps ++ p :: qs) last) (hp : p.lexeme.kind = s.kind)
    (hok : (Scan.ofSource e source).failure = none) :
    let r : Respelling := ⟨s.kind, p.lexeme.literal, .text s.text, (ps.map Piece.lexeme).getLast?⟩
    let before := Parsed.ofLexemes e (Scan.ofSource e source).lexemes
    let scan := Scan.ofSource e (String.ofList (respelled ps p s.text qs last))
    let after := Parsed.ofLexemes e scan.lexemes
    scan.failure = none ∧ after.errors = before.errors ∧
      List.Forall₂ (Stmt.Respelt e r) before.program after.program ∧
      ((∀ v ∈ words before.program, ¬ r.Spells e v) → after.program = before.program) := by
  intro r before scan after
  obtain ⟨hok', hlexemes', hlexemes⟩ := lexemes_respelled hs hf harrow h hp hok
  have hold : p.lexeme = ⟨r.kind, r.old⟩ := congrArg (Lexeme.mk · p.lexeme.literal) hp
  have hread := Parsed.respelt e (r := r) (slang_reserved s hs) (qs.map Piece.lexeme)
    (rfl : _ = r.before)
  rw [← hold, ← hlexemes] at hread
  have hafter : after = Parsed.ofLexemes e
      (ps.map Piece.lexeme ++ ⟨r.kind, r.new⟩ :: qs.map Piece.lexeme) :=
    congrArg (Parsed.ofLexemes e) hlexemes'
  rw [← hafter] at hread
  exact ⟨hok', hread.1, hread.2, fun hunkept => (eq_of_respelt _ hread.2 hunkept).symm⟩

/-- The sign of a declaration, behind an assignment that keeps its own. -/
theorem slang_synonymous_declaration :
    ∃ ps p qs last, Tokenization .latest "x=1;let y:int=x".toList (ps ++ p :: qs) last ∧
      String.ofList (respelled ps p "be" qs last) = "x=1;let y:int be x" ∧
      (Scan.ofSource .latest "x=1;let y:int be x").failure = none ∧
      (Parsed.ofLexemes .latest (Scan.ofSource .latest "x=1;let y:int be x").lexemes).errors =
        (Parsed.ofLexemes .latest (Scan.ofSource .latest "x=1;let y:int=x").lexemes).errors ∧
      (Parsed.ofLexemes .latest (Scan.ofSource .latest "x=1;let y:int be x").lexemes).program =
        (Parsed.ofLexemes .latest (Scan.ofSource .latest "x=1;let y:int=x").lexemes).program := by
  have hblank : ∀ c ∈ ([] : List Char), isBlank c = true := by simp
  have hspace : ∀ c ∈ [' '], isBlank c = true := by simp [isBlank]
  have hx : Reads .latest ("x".toList ++ "=1;let y:int=x".toList) "x".toList ⟨.ident, .text "x"⟩ :=
    .word rfl (longest_word (c := 'x') rfl "=1;let y:int=x".toList)
  have hassign : Reads .latest ("=".toList ++ "1;let y:int=x".toList) "=".toList ⟨.eq, .text "="⟩ :=
    .of_operator (s := ⟨"=", .eq, .declarations⟩) rfl
  have hone : Reads .latest ("1".toList ++ ";let y:int=x".toList) "1".toList ⟨.int, .int 1⟩ :=
    .numeral (longest_numeral (c := '1') rfl ";let y:int=x".toList) (.int (by decide))
  have hend : Reads .latest (";".toList ++ "let y:int=x".toList) ";".toList
      ⟨.semicolon, .text ";"⟩ :=
    .of_operator (s := ⟨";", .semicolon, .expressions⟩) rfl
  have hlet : Reads .latest ("let".toList ++ " y:int=x".toList) "let".toList
      ⟨.letWord, .text "let"⟩ :=
    .word rfl (longest_word (c := 'l') rfl "et y:int=x".toList)
  have hy : Reads .latest ("y".toList ++ ":int=x".toList) "y".toList ⟨.ident, .text "y"⟩ :=
    .word rfl (longest_word (c := 'y') rfl ":int=x".toList)
  have hcolon : Reads .latest (":".toList ++ "int=x".toList) ":".toList ⟨.colon, .text ":"⟩ :=
    .of_operator (s := ⟨":", .colon, .declarations⟩) rfl
  have htype : Reads .latest ("int".toList ++ "=x".toList) "int".toList ⟨.typeWord, .text "int"⟩ :=
    .word rfl (longest_word (c := 'i') rfl "nt=x".toList)
  have hsign : Reads .latest ("=".toList ++ "x".toList) "=".toList ⟨.eq, .text "="⟩ :=
    .of_operator (s := ⟨"=", .eq, .declarations⟩) rfl
  have hlast : Reads .latest ("x".toList ++ []) "x".toList ⟨.ident, .text "x"⟩ :=
    .word rfl (longest_word (c := 'x') rfl [])
  have hpieces : Tokenization .latest "x=1;let y:int=x".toList
      ([⟨[], ['x'], ⟨.ident, .text "x"⟩⟩, ⟨[], ['='], ⟨.eq, .text "="⟩⟩,
        ⟨[], ['1'], ⟨.int, .int 1⟩⟩,
        ⟨[], [';'], ⟨.semicolon, .text ";"⟩⟩, ⟨[], ['l', 'e', 't'], ⟨.letWord, .text "let"⟩⟩,
        ⟨[' '], ['y'], ⟨.ident, .text "y"⟩⟩, ⟨[], [':'], ⟨.colon, .text ":"⟩⟩,
        ⟨[], ['i', 'n', 't'], ⟨.typeWord, .text "int"⟩⟩] ++
        ⟨[], ['='], ⟨.eq, .text "="⟩⟩ :: [⟨[], ['x'], ⟨.ident, .text "x"⟩⟩]) [] :=
    .piece hblank hx (.piece hblank hassign
      (.piece hblank hone (.piece hblank hend (.piece hblank hlet
      (.piece hspace hy (.piece hblank hcolon (.piece hblank htype (.piece hblank hsign
        (.piece hblank hlast (.done hblank))))))))))
  have hok : (Scan.ofSource .latest "x=1;let y:int=x").failure = none := by decide +kernel
  have hs : (⟨"be", .eq, .declarations⟩ : Spelling) ∈ slang := by simp [slang]
  obtain ⟨hok', herrors, -, hprogram⟩ := slang_synonymous hs rfl (by decide) hpieces rfl hok
  have hwords : words (Parsed.ofLexemes .latest
      (Scan.ofSource .latest "x=1;let y:int=x").lexemes).program =
      [.taken (.text "x"), .operator (.text "x") (.text "=")] := by
    decide +kernel
  refine ⟨_, _, _, _, hpieces, rfl, hok', herrors, hprogram ?_⟩
  rw [hwords]
  simp [Respelling.Spells]

theorem isWordText_of_isWord (h : IsWord w) : isWordText (String.ofList w) = true := by
  obtain ⟨c, t, rfl, hc, ht⟩ := h
  rw [isWordText, String.toList_ofList]
  simpa [hc] using ht

theorem Reads.arrow_literal {cs w : List Char} {l : Lexeme} (h : Reads e cs w l)
    (hl : l.kind = .arrow) : l.literal = .text "->" := by
  have hwords : ∀ s ∈ keywords ++ LimeLang.slang ++ typeWords, s.kind = .arrow →
      isWordText s.text = false := by
    decide
  have hoperators : ∀ s ∈ operators, s.kind = .arrow → s.text = "->" := by decide
  cases h with
  | numeral _ hn => cases hn <;> cases hl
  | word _ hw =>
    rcases Kind.ofWord_cases e (String.ofList w) with hident | ⟨s, hs, hkind, htext⟩
    · rw [hident] at hl
      cases hl
    · have hnot := hwords s hs (hkind.trans hl)
      rw [htext, isWordText_of_isWord hw.1.2] at hnot
      cases hnot
  | string _ _ _ _ => cases hl
  | operator hs _ _ => rw [hoperators _ hs hl]
  | illegal _ _ _ => cases hl

theorem Tokenization.arrow_literal {ps : List Piece} (h : Tokenization e cs ps last) :
    ∀ l ∈ ps.map Piece.lexeme, l.kind = .arrow → l.literal = .text "->" := by
  induction h with
  | done _ => simp
  | piece _ hr _ ih => exact List.forall_mem_cons.mpr ⟨hr.arrow_literal, ih⟩

/-- An assignment shows its operator as it is spelled, and the arrow has no slang that is read: all
arrows of a source are spelled in the same way. -/
theorem slang_not_synonymous :
    (∀ e : Edition, e.has .compoundAssignment = true →
      (Parsed.ofLexemes e (Scan.ofSource e "x = 5;").lexemes).errors = [] ∧
      words (Parsed.ofLexemes e (Scan.ofSource e "x = 5;").lexemes).program =
        [.taken (.text "x"), .operator (.text "x") (.text "=")] ∧
      words (Parsed.ofLexemes e (Scan.ofSource e "x be 5;").lexemes).program =
        [.taken (.text "x"), .operator (.text "x") (.text "be")]) ∧
    (∀ e : Edition, e.has .functions = true →
      (Parsed.ofLexemes e (Scan.ofSource e "fn f() -> int \x7b return 1; \x7d").lexemes).errors
        = [] ∧
      (Parsed.ofLexemes e (Scan.ofSource e "fn f() 3--D int \x7b return 1; \x7d").lexemes).errors
        ≠ []) ∧
    ∀ (e : Edition) (source : String), (Scan.ofSource e source).failure = none →
      ∀ l ∈ (Scan.ofSource e source).lexemes, l.kind = .arrow → l.literal = .text "->" := by
  refine ⟨fun e he => ?_, fun e he => ?_, fun e source hok => ?_⟩
  · obtain ⟨n, hn⟩ := e
    have hle : 14 ≤ n := of_decide_eq_true he
    obtain ⟨-, hmax⟩ := hn
    interval_cases n <;> decide +kernel +revert
  · obtain ⟨n, hn⟩ := e
    have hle : 6 ≤ n := of_decide_eq_true he
    obtain ⟨-, hmax⟩ := hn
    interval_cases n <;> decide +kernel +revert
  · obtain ⟨ps, last, ht⟩ := Tokenization.total e source.toList
    rcases ht.ofSource_cases with ⟨-, -, -, hlexemes⟩ | ⟨f, hfail, -⟩
    · rw [hlexemes]
      exact ht.arrow_literal
    · simp [hfail] at hok

end LimeLang
