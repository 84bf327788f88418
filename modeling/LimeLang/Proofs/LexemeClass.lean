import LimeLang.Token.Scan
import Mathlib.Data.List.Nodup
import Mathlib.Data.List.TakeWhile
import Mathlib.Data.Nat.Digits.Defs

/-! The classes of lexemes, described by their words alone, and the longest word of each class
at the beginning of a text. -/

namespace LimeLang

variable {cs : List Char}

/-- The longest prefix of a text among the words of a class. -/
def Longest (P : List Char → Prop) (cs w : List Char) : Prop :=
  (w <+: cs ∧ P w) ∧ ∀ v, v <+: cs → P v → v.length ≤ w.length

theorem Longest.unique {P : List Char → Prop} {cs v w : List Char} (hv : Longest P cs v)
    (hw : Longest P cs w) : v = w := by
  have hle := hw.2 v hv.1.1 hv.1.2
  have hge := hv.2 w hw.1.1 hw.1.2
  exact (List.prefix_of_prefix_length_le hv.1.1 hw.1.1 hle).eq_of_length_le hge

def AllDigits (ds : List Char) : Prop := ∀ c ∈ ds, Text.isAsciiDigit c = true

/-- Digits, perhaps with a point and more digits behind them. -/
inductive IsNumeral : List Char → Prop
  | whole {ds : List Char} : ds ≠ [] → AllDigits ds → IsNumeral ds
  | pointed {ds fs : List Char} : ds ≠ [] → AllDigits ds → AllDigits fs →
      IsNumeral (ds ++ '.' :: fs)

def IsWord (w : List Char) : Prop :=
  ∃ c t, w = c :: t ∧ startsWord c = true ∧ ∀ d ∈ t, continuesWord d = true

/-- A quote and what follows it, with or without a second quote at the end. -/
def IsQuoted (w : List Char) : Prop :=
  ∃ body, '"' ∉ body ∧ (w = '"' :: body ∨ w = '"' :: (body ++ ['"']))

def IsOperator (e : Edition) (w : List Char) : Prop :=
  ∃ s ∈ operators, e.has s.feature = true ∧ s.text.toList = w

theorem length_le_takeWhile {p : Char → Bool} {cs v : List Char} (hv : v <+: cs)
    (hp : ∀ c ∈ v, p c = true) : v.length ≤ (cs.takeWhile p).length := by
  obtain ⟨r, rfl⟩ := hv
  rw [List.takeWhile_append_of_pos hp]
  simp

theorem takeWhile_of_boundary {p : Char → Bool} {w r : List Char} (hw : ∀ c ∈ w, p c = true)
    (hr : ∀ c, r.head? = some c → p c = false) : (w ++ r).takeWhile p = w := by
  rw [List.takeWhile_append_of_pos hw]
  cases r with
  | nil => simp
  | cons c r => simp [hr c rfl]

theorem head?_dropWhile_not {p : Char → Bool} {c : Char} (h : (cs.dropWhile p).head? = some c) :
    p c = false := by
  induction cs with
  | nil => simp at h
  | cons d cs ih =>
    by_cases hd : p d = true
    · exact ih (by simpa [List.dropWhile_cons, hd] using h)
    · have : d = c := by simpa [List.dropWhile_cons, hd] using h
      exact this ▸ Bool.eq_false_iff.mpr hd

theorem longest_word {c : Char} (hc : startsWord c = true) (cs : List Char) :
    Longest IsWord (c :: cs) ((c :: cs).takeWhile continuesWord) := by
  have hcc := continuesWord_of_startsWord hc
  refine ⟨⟨List.takeWhile_prefix _, c, cs.takeWhile continuesWord, ?_, hc, ?_⟩, ?_⟩
  · simp [hcc]
  · exact fun d hd => List.mem_takeWhile_imp hd
  · rintro v hv ⟨d, t, rfl, hd, ht⟩
    apply length_le_takeWhile hv
    intro x hx
    rcases List.mem_cons.mp hx with rfl | hx
    · exact continuesWord_of_startsWord hd
    · exact ht x hx

/-- The text of a string, from its opening quote to the next quote or to the end. -/
def quotedPart (t : List Char) : List Char :=
  '"' :: (t.takeWhile (· ≠ '"') ++ (t.dropWhile (· ≠ '"')).take 1)

theorem not_mem_takeWhile_quote (t : List Char) : '"' ∉ t.takeWhile (· ≠ '"') := by
  intro h
  simpa using List.mem_takeWhile_imp h

theorem take_one_dropWhile_quote (t : List Char) :
    (t.dropWhile (· ≠ '"')).take 1 = [] ∨ (t.dropWhile (· ≠ '"')).take 1 = ['"'] := by
  cases h : t.dropWhile (· ≠ '"') with
  | nil => exact .inl rfl
  | cons d r =>
    have hhead : (t.dropWhile (· ≠ '"')).head? = some d := by rw [h]; rfl
    have hd := head?_dropWhile_not hhead
    exact .inr (by simpa using hd)

theorem quotedPart_begins (t : List Char) : quotedPart t <+: '"' :: t := by
  refine ⟨(t.dropWhile (· ≠ '"')).drop 1, ?_⟩
  simp only [quotedPart, List.cons_append, List.append_assoc, List.take_append_drop,
    List.takeWhile_append_dropWhile]

theorem ne_quote_of_mem {body : List Char} (hb : '"' ∉ body) :
    ∀ c ∈ body, decide (c ≠ '"') = true := by
  intro c hc
  have hne : c ≠ '"' := fun h => hb (h ▸ hc)
  simpa using hne

theorem longest_quoted (t : List Char) : Longest IsQuoted ('"' :: t) (quotedPart t) := by
  refine ⟨⟨quotedPart_begins t, t.takeWhile (· ≠ '"'), not_mem_takeWhile_quote t, ?_⟩, ?_⟩
  · rcases take_one_dropWhile_quote t with h | h
    · exact .inl (by rw [quotedPart, h, List.append_nil])
    · exact .inr (by rw [quotedPart, h])
  · rintro v hv ⟨body, hb, rfl | rfl⟩
    · have hp := (List.cons_prefix_cons.mp hv).2
      have hl := length_le_takeWhile hp (ne_quote_of_mem hb)
      simp only [quotedPart, List.length_cons, List.length_append]
      omega
    · obtain ⟨r, hr⟩ := (List.cons_prefix_cons.mp hv).2
      have hbody := ne_quote_of_mem hb
      have ht : t.takeWhile (· ≠ '"') = body := by
        rw [← hr, List.append_assoc]
        exact takeWhile_of_boundary hbody (by simp)
      have hd : t.dropWhile (· ≠ '"') = '"' :: r := by
        rw [← hr, List.append_assoc, List.dropWhile_append_of_pos hbody]
        simp
      rw [quotedPart, ht, hd]
      simp

def numeralPart (cs : List Char) : List Char :=
  cs.takeWhile Text.isAsciiDigit ++
    match cs.dropWhile Text.isAsciiDigit with
    | '.' :: tail => '.' :: tail.takeWhile Text.isAsciiDigit
    | _ => []

theorem isAsciiDigit_point : Text.isAsciiDigit '.' = false := by decide

theorem longest_numeral {c : Char} (hc : Text.isAsciiDigit c = true) (cs : List Char) :
    Longest IsNumeral (c :: cs) (numeralPart (c :: cs)) := by
  have hne : (c :: cs).takeWhile Text.isAsciiDigit ≠ [] := by simp [hc]
  have hall : ∀ t : List Char, AllDigits (t.takeWhile Text.isAsciiDigit) :=
    fun t d hd => List.mem_takeWhile_imp hd
  generalize c :: cs = t at hne ⊢
  have ht := List.takeWhile_append_dropWhile (p := Text.isAsciiDigit) (l := t)
  refine ⟨⟨?_, ?_⟩, ?_⟩
  · conv_rhs => rw [← ht]
    refine List.prefix_append_right_inj _ |>.mpr ?_
    split
    · rename_i tail heq
      rw [heq]
      exact List.cons_prefix_cons.mpr ⟨rfl, List.takeWhile_prefix _⟩
    · exact List.nil_prefix
  · rw [numeralPart]
    split
    · exact .pointed hne (hall _) (hall _)
    · rw [List.append_nil]
      exact .whole hne (hall _)
  · intro v hv hn
    cases hn with
    | whole _ hd =>
      have := length_le_takeWhile hv hd
      simp only [numeralPart, List.length_append]
      omega
    | @pointed ds fs _ hd hf =>
      obtain ⟨r, rfl⟩ := hv
      have hw : (ds ++ '.' :: fs ++ r).takeWhile Text.isAsciiDigit = ds := by
        rw [List.append_assoc]
        exact takeWhile_of_boundary hd (by simp [isAsciiDigit_point])
      have hr : (ds ++ '.' :: fs ++ r).dropWhile Text.isAsciiDigit = '.' :: (fs ++ r) := by
        rw [List.append_assoc, List.dropWhile_append_of_pos hd]
        simp [isAsciiDigit_point]
      have hl := length_le_takeWhile (List.prefix_append fs r) hf
      simp only [numeralPart, hw, hr, List.length_append, List.length_cons]
      omega

theorem operators_sorted :
    operators.Pairwise (fun s t => t.text.toList.length ≤ s.text.toList.length) := by
  decide

theorem operators_nodup : (operators.map Spelling.text).Nodup := by
  decide

theorem operator?_some {e : Edition} {s : Spelling} (h : operator? e cs = some s) :
    s ∈ operators ∧ e.has s.feature = true ∧ Longest (IsOperator e) cs s.text.toList := by
  obtain ⟨hs, before, after, hl, hb⟩ := List.find?_eq_some_iff_append.mp h
  simp only [Bool.and_eq_true, List.isPrefixOf_iff_prefix] at hs
  have hm : s ∈ operators := by simp [hl]
  refine ⟨hm, hs.1, ⟨⟨hs.2, s, hm, hs.1, rfl⟩, ?_⟩⟩
  rintro v hv ⟨t, ht, hf, rfl⟩
  rw [hl, List.mem_append] at ht
  rcases ht with ht | ht
  · have hh := hb t ht
    simp [hf, List.isPrefixOf_iff_prefix.mpr hv] at hh
  · have hsorted := operators_sorted
    rw [hl] at hsorted
    rcases List.mem_cons.mp ht with rfl | ht
    · exact le_rfl
    · exact (List.pairwise_cons.mp (List.pairwise_append.mp hsorted).2.1).1 t ht

theorem operator?_none {e : Edition} (h : operator? e cs = none) :
    ∀ w, w <+: cs → ¬ IsOperator e w := by
  rintro w hw ⟨s, hs, hf, rfl⟩
  have hh := List.find?_eq_none.mp h s hs
  simp [hf, List.isPrefixOf_iff_prefix.mpr hw] at hh

theorem operator?_of_longest {e : Edition} {s : Spelling} (hs : s ∈ operators)
    (hl : Longest (IsOperator e) cs s.text.toList) : operator? e cs = some s := by
  cases h : operator? e cs with
  | none => exact absurd hl.1.2 (operator?_none h _ hl.1.1)
  | some t =>
    obtain ⟨ht, _, hlt⟩ := operator?_some h
    have heq : t.text = s.text := String.toList_inj.mp (hlt.unique hl)
    rw [List.inj_on_of_nodup_map operators_nodup ht hs heq]

end LimeLang
