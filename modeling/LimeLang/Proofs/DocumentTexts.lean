import LimeLang.Proofs.ShortestDecimals
import LimeLang.Tree.Document

/-! A document is read back from its text. -/

namespace LimeLang

variable {n : Nat} {d : Document} {c : Char} {cs : List Char}

namespace Document

def hexValue (c : Char) : Nat := if c.isDigit then c.toNat - 48 else c.toNat - 87

def ofHex (cs : List Char) : Nat := cs.foldl (fun n c => 16 * n + hexValue c) 0

/-- The character that stands for itself or for a control character behind a backslash. -/
def escaped (c : Char) : Char :=
  if c = 'n' then '\n'
  else if c = 'r' then '\r'
  else if c = 't' then '\t'
  else if c = 'b' then Char.ofNat 8
  else if c = 'f' then Char.ofNat 12
  else c

/-- The character with the given number, and the text behind it. A number from the first range of
surrogates is followed by a second one, and the two make one character. -/
def numbered (cs : List Char) : Char × List Char :=
  let n := ofHex (cs.take 4)
  let rest := cs.drop 4
  if 0xd800 ≤ n ∧ n < 0xdc00 then
    (Char.ofNat (0x10000 + (n - 0xd800) * 0x400 + (ofHex ((rest.drop 2).take 4) - 0xdc00)),
      rest.drop 6)
  else (Char.ofNat n, rest)

/-- The first character of an escaped text, and the text behind it. -/
def unescape : List Char → Option (Char × List Char)
  | [] => none
  | c :: cs =>
    if c ≠ '\\' then some (c, cs)
    else if cs.head? = some 'u' then some (numbered cs.tail)
    else cs.head?.map fun d => (escaped d, cs.tail)

/-- The text up to the closing quote, and what follows the quote. -/
def readString : Nat → List Char → Option (List Char × List Char)
  | 0, _ => none
  | n + 1, cs =>
    if cs.head? = some '"' then some ([], cs.tail)
    else (unescape cs).bind fun r => (readString n r.2).map fun t => (r.1 :: t.1, t.2)

theorem hexValue_digitChar {d : Nat} (h : d < 16) : hexValue d.digitChar = d := by
  have hall : ∀ d < 16, hexValue (Nat.digitChar d) = d := by decide
  exact hall d h

theorem ofHex_append (cs : List Char) (c : Char) :
    ofHex (cs ++ [c]) = 16 * ofHex cs + hexValue c := by
  rw [ofHex, List.foldl_append]
  rfl

theorem ofHex_toDigits (n : Nat) : ofHex (Nat.toDigits 16 n) = n := by
  induction n using Nat.strongRecOn with
  | _ n ih =>
    by_cases hn : n < 16
    · rw [Nat.toDigits_of_lt_base hn]
      exact (Nat.zero_add _).trans (hexValue_digitChar hn)
    · have hlast := Nat.toDigits_append_toDigits (b := 16) (n := n / 16) (d := n % 16) (by decide)
        (by omega) (by omega)
      rw [Nat.div_add_mod, Nat.toDigits_of_lt_base (Nat.mod_lt n (by decide))] at hlast
      rw [← hlast, ofHex_append, ih (n / 16) (by omega), hexValue_digitChar (by omega)]
      omega

theorem ofHex_replicate (k : Nat) (cs : List Char) :
    ofHex (List.replicate k '0' ++ cs) = ofHex cs := by
  induction k with
  | zero => rfl
  | succ k ih => exact ih

theorem ofHex_hex (width n : Nat) : ofHex (Text.hex width n) = n := by
  rw [Text.hex, ofHex_replicate, ofHex_toDigits]

theorem length_hex (h : n < 0x10000) : (Text.hex 4 n).length = 4 := by
  have hlength := (Nat.length_toDigits_le_iff (b := 16) (n := n) (k := 4) (by decide)
    (by decide)).mpr h
  simp only [Text.hex, List.length_append, List.length_replicate]
  omega

theorem numbered_hex (h : n < 0xd800 ∨ 0xdfff < n) (hn : n < 0x10000) (rest : List Char) :
    numbered (Text.hex 4 n ++ rest) = (Char.ofNat n, rest) := by
  simp only [numbered, List.take_left' (length_hex hn), List.drop_left' (length_hex hn), ofHex_hex]
  rw [if_neg (by omega)]

theorem numbered_surrogates (hn : n < 0x100000) (rest : List Char) :
    numbered (Text.hex 4 (0xd800 + n / 0x400) ++
      ('\\' :: 'u' :: (Text.hex 4 (0xdc00 + n % 0x400) ++ rest))) =
        (Char.ofNat (0x10000 + n), rest) := by
  have hhigh := @length_hex (0xd800 + n / 0x400) (by omega)
  have hlow := @length_hex (0xdc00 + n % 0x400) (by omega)
  simp only [numbered, List.take_left' hhigh, List.drop_left' hhigh, ofHex_hex, List.drop_succ_cons,
    List.drop_zero, List.take_left' hlow, List.drop_left' hlow]
  rw [if_pos (by omega), show 0x10000 + (0xd800 + n / 0x400 - 0xd800) * 0x400 +
    (0xdc00 + n % 0x400 - 0xdc00) = 0x10000 + n by omega]

theorem unescape_control {c d : Char} (hc : c ≠ 'u') (hd : escaped c = d) (rest : List Char) :
    unescape (['\\', c] ++ rest) = some (d, rest) := by
  simp [unescape, hc, hd]

theorem unescape_number (cs : List Char) : unescape ('\\' :: 'u' :: cs) = some (numbered cs) := by
  simp [unescape]

theorem unescape_escape (c : Char) (rest : List Char) :
    unescape (escape c ++ rest) = some (c, rest) := by
  have hvalid : c.toNat < 0xd800 ∨ 0xdfff < c.toNat ∧ c.toNat < 0x110000 := c.valid
  simp only [escape, Bool.or_eq_true, Bool.and_eq_true, decide_eq_true_eq]
  split
  · rename_i h
    rcases h with rfl | rfl
    · exact unescape_control (by decide) (by decide) rest
    · exact unescape_control (by decide) (by decide) rest
  rename_i hplain
  split
  · rename_i h
    exact unescape_control (by decide) (by rw [h]; decide) rest
  split
  · rename_i h
    exact unescape_control (by decide) (by rw [h]; decide) rest
  split
  · rename_i h
    exact unescape_control (by decide) (by rw [h]; decide) rest
  split
  · rename_i h
    exact unescape_control (by decide) (Char.toNat_inj.mp (h ▸ by decide)) rest
  split
  · rename_i h
    exact unescape_control (by decide) (Char.toNat_inj.mp (h ▸ by decide)) rest
  split
  · simp [unescape, (not_or.mp hplain).2]
  split
  · rename_i h
    rw [List.cons_append, List.cons_append, unescape_number, numbered_hex (by omega) h,
      Char.ofNat_toNat]
  · rename_i h
    rw [List.cons_append, List.cons_append, unescape_number, List.append_assoc, List.cons_append,
      List.cons_append, numbered_surrogates (by omega),
      show 0x10000 + (c.toNat - 0x10000) = c.toNat by omega, Char.ofNat_toNat]

theorem head?_escape (c : Char) (rest : List Char) : (escape c ++ rest).head? ≠ some '"' := by
  intro h
  obtain ⟨cs, hcs⟩ := List.head?_eq_some_iff.mp h
  have hread := unescape_escape c rest
  rw [hcs, unescape, if_pos (by decide)] at hread
  obtain rfl : '"' = c := congrArg Prod.fst (Option.some.inj hread)
  simp [escape] at hcs

theorem readString_escape (hn : cs.length < n) (rest : List Char) :
    readString n (cs.flatMap escape ++ '"' :: rest) = some (cs, rest) := by
  induction cs generalizing n with
  | nil =>
    obtain _ | n := n
    · omega
    simp [readString]
  | cons c cs ih =>
    obtain _ | n := n
    · omega
    rw [List.flatMap_cons, List.append_assoc, readString, if_neg (head?_escape c _),
      unescape_escape, Option.bind_some, ih (by simpa using hn), Option.map_some]

def isWord (c : Char) : Bool := c.isAlphanum || c = '.' || c = '+' || c = '-'

def ofWord (cs : List Char) : Document :=
  if cs.all Char.isDigit then int (Nat.ofDigitChars 10 cs 0)
  else if cs.head? = some '-' then float (Number.Binary.read true cs.tail)
  else if cs = "null".toList then null
  else if cs = "true".toList then bool true
  else if cs = "false".toList then bool false
  else float (Number.Binary.read false cs)

def skip (cs : List Char) : List Char := cs.dropWhile isBlank

def readQuoted (cs : List Char) : Option (String × List Char) :=
  if cs.head? = some '"' then
    (readString cs.length cs.tail).map fun r => (String.ofList r.1, r.2)
  else none

/-- A name, a colon and what the given reader reads. -/
def readField (value : List Char → Option (Document × List Char)) (cs : List Char) :
    Option ((String × Document) × List Char) :=
  (readQuoted (skip cs)).bind fun k =>
    if k.2.head? = some ':' then (value k.2.tail).map fun d => ((k.1, d.1), d.2) else none

mutual

/-- A document at the beginning of a text, and what follows it. The fuel bounds the depth and the
length of what is read. -/
def read : Nat → List Char → Option (Document × List Char)
  | 0, _ => none
  | n + 1, cs =>
    let cs := skip cs
    if cs.head? = some '"' then (readQuoted cs).map fun r => (str r.1, r.2)
    else if cs.head? = some '[' then
      if (skip cs.tail).head? = some ']' then some (list [], (skip cs.tail).tail)
      else (read n cs.tail).bind fun d => (readItems n d.2).map fun ds => (list (d.1 :: ds.1), ds.2)
    else if cs.head? = some '\x7b' then
      if (skip cs.tail).head? = some '\x7d' then some (record [], (skip cs.tail).tail)
      else (readField (read n) cs.tail).bind fun f =>
        (readFields n f.2).map fun fs => (record (f.1 :: fs.1), fs.2)
    else some (ofWord (cs.takeWhile isWord), cs.dropWhile isWord)

def readItems : Nat → List Char → Option (List Document × List Char)
  | 0, _ => none
  | n + 1, cs =>
    let cs := skip cs
    if cs.head? = some ',' then
      (read n cs.tail).bind fun d => (readItems n d.2).map fun ds => (d.1 :: ds.1, ds.2)
    else if cs.head? = some ']' then some ([], cs.tail)
    else none

def readFields : Nat → List Char → Option (List (String × Document) × List Char)
  | 0, _ => none
  | n + 1, cs =>
    let cs := skip cs
    if cs.head? = some ',' then
      (readField (read n) cs.tail).bind fun f => (readFields n f.2).map fun fs =>
        (f.1 :: fs.1, fs.2)
    else if cs.head? = some '\x7d' then some ([], cs.tail)
    else none

end

def ofText? (s : String) : Option Document := (read (s.length + 1) s.toList).map Prod.fst

theorem skip_append {bs : List Char} (hbs : bs.all isBlank = true) (cs : List Char) :
    skip (bs ++ cs) = skip cs :=
  List.dropWhile_append_of_pos (List.all_eq_true.mp hbs)

theorem skip_cons (hc : isBlank c = false) (cs : List Char) : skip (c :: cs) = c :: cs := by
  simp [skip, hc]

theorem read_append {bs : List Char} (hbs : bs.all isBlank = true) (n : Nat) (cs : List Char) :
    read n (bs ++ cs) = read n cs := by
  cases n with
  | zero => rfl
  | succ n => simp only [read, skip_append hbs]

theorem newline_blank (i : Nat) : (newline i).toList.all isBlank = true := by
  simp [newline, isBlank]

theorem escape_ne_nil (c : Char) : escape c ≠ [] := by
  intro h
  have hread := unescape_escape c []
  rw [h] at hread
  cases hread

theorem length_le_flatMap_escape (cs : List Char) : cs.length ≤ (cs.flatMap escape).length := by
  induction cs with
  | nil => exact Nat.le_refl _
  | cons c cs ih =>
    have hpos := List.length_pos_of_ne_nil (escape_ne_nil c)
    rw [List.flatMap_cons, List.length_append, List.length_cons]
    omega

theorem toList_writeString (s : String) (rest : List Char) :
    (writeString s).toList ++ rest = '"' :: (s.toList.flatMap escape ++ '"' :: rest) := by
  simp [writeString]

theorem readQuoted_writeString (s : String) (rest : List Char) :
    readQuoted ((writeString s).toList ++ rest) = some (s, rest) := by
  have hlength := length_le_flatMap_escape s.toList
  rw [toList_writeString, readQuoted, if_pos List.head?_cons, List.tail_cons, readString_escape,
    Option.map_some, String.ofList_toList]
  simp only [List.length_cons, List.length_append]
  omega

/-- What can follow a number or a word. -/
def Ends (rest : List Char) : Prop := ∀ c, rest.head? = some c → isWord c = false

/-- The characters with which a document can begin. -/
def opens (c : Char) : Bool := isWord c || c = '"' || c = '[' || c = '\x7b'

theorem opens_of_isWord (h : isWord c = true) : opens c = true := by
  simp [opens, h]

theorem opens_ne {c d : Char} (hc : opens c = true) (hd : opens d = false) : c ≠ d := by
  rintro rfl
  rw [hc] at hd
  cases hd

theorem isBlank_of_opens (hc : opens c = true) : isBlank c = false := by
  by_contra hblank
  simp only [isBlank, Bool.not_eq_false, Bool.or_eq_true, decide_eq_true_eq] at hblank
  rcases hblank with ((rfl | rfl) | rfl) | rfl <;> cases hc

theorem dropWhile_of_boundary {p : Char → Bool} {w r : List Char} (hw : ∀ c ∈ w, p c = true)
    (hr : ∀ c, r.head? = some c → p c = false) : (w ++ r).dropWhile p = r := by
  rw [List.dropWhile_append_of_pos hw]
  cases r with
  | nil => rfl
  | cons c r => simp [hr c rfl]

theorem read_word {w rest : List Char} (hne : w ≠ []) (hw : ∀ c ∈ w, isWord c = true)
    (hrest : Ends rest) (n : Nat) : read (n + 1) (w ++ rest) = some (ofWord w, rest) := by
  have htake := takeWhile_of_boundary hw hrest
  have hdrop := dropWhile_of_boundary hw hrest
  obtain ⟨c, cs, rfl⟩ := List.exists_cons_of_ne_nil hne
  have hc := hw c List.mem_cons_self
  have hother : ∀ d, isWord d = false → some c ≠ some d := by
    rintro d hd heq
    obtain rfl := Option.some.inj heq
    rw [hc] at hd
    cases hd
  rw [List.cons_append] at htake hdrop ⊢
  simp only [read, skip_cons (isBlank_of_opens (opens_of_isWord hc)), List.head?_cons]
  rw [if_neg (hother _ rfl), if_neg (hother _ rfl), if_neg (hother _ rfl), htake, hdrop]

theorem ofWord_digits (n : Nat) : ofWord (Nat.toDigits 10 n) = int n := by
  have hdigits : (Nat.toDigits 10 n).all Char.isDigit = true :=
    List.all_eq_true.mpr fun c hc => Nat.isDigit_of_mem_toDigits (by decide) (by decide) hc
  rw [ofWord, if_pos hdigits, Nat.ofDigitChars_ten_toDigits]

theorem ofWord_number {x : Number.Double} {negative : Bool} (h : x.Written negative cs) :
    ofWord ((if negative then ['-'] else []) ++ cs) = float x := by
  obtain ⟨c, rest, hcs, hc⟩ := h.first
  obtain ⟨b, hb, hdigit⟩ := h.broken
  have hbroken : ∀ sign : List Char, ¬ (sign ++ cs).all Char.isDigit = true := by
    intro sign hall
    rw [List.all_eq_true.mp hall b (List.mem_append_right sign hb)] at hdigit
    cases hdigit
  -- No word begins with a digit or with the letter of infinity.
  have hhead : ∀ d : Char, d.isDigit = false → d ≠ 'I' → cs.head? ≠ some d := by
    intro d hd hI heq
    rw [hcs, List.head?_cons] at heq
    obtain rfl := Option.some.inj heq
    rcases hc with hc | hc
    · rw [hc] at hd
      cases hd
    · exact hI hc
  cases negative with
  | true =>
    rw [ofWord, if_neg (hbroken _), if_pos (by rfl)]
    exact congrArg float h.read
  | false =>
    have hnull : cs ≠ "null".toList := fun heq => hhead 'n' rfl (by decide) (heq ▸ rfl)
    have htrue : cs ≠ "true".toList := fun heq => hhead 't' rfl (by decide) (heq ▸ rfl)
    have hfalse : cs ≠ "false".toList := fun heq => hhead 'f' rfl (by decide) (heq ▸ rfl)
    have hplain : ¬ cs.all Char.isDigit = true := hbroken []
    change ofWord cs = float x
    rw [ofWord, if_neg hplain, if_neg (hhead '-' rfl (by decide)), if_neg hnull, if_neg htrue,
      if_neg hfalse, h.read]

theorem isWord_of_number {x : Number.Double} {negative : Bool} (h : x.Written negative cs) :
    ∀ c ∈ (if negative then ['-'] else []) ++ cs, isWord c = true := by
  intro c hc
  rcases List.mem_append.mp hc with hsign | hmem
  · cases negative with
    | true =>
      obtain rfl := List.mem_singleton.mp hsign
      rfl
    | false => cases hsign
  · rcases h.characters c hmem with halpha | hmark
    · simp [isWord, halpha]
    · simp only [List.mem_cons, List.not_mem_nil, or_false] at hmark
      rcases hmark with rfl | rfl | rfl <;> rfl

mutual

def floats : Document → List Number.Double
  | float x => [x]
  | list items => itemFloats items
  | record fields => fieldFloats fields
  | null | bool _ | int _ | str _ | missingNode | missingList => []

def itemFloats : List Document → List Number.Double
  | [] => []
  | d :: ds => floats d ++ itemFloats ds

def fieldFloats : List (String × Document) → List Number.Double
  | [] => []
  | (_, d) :: fields => floats d ++ fieldFloats fields

end

theorem isWord_of_isDigit (h : c.isDigit = true) : isWord c = true := by
  simp [isWord, Number.Binary.isAlphanum_of_isDigit h]

/-- The document is written as the given word. -/
structure IsWordOf (d : Document) (w : List Char) : Prop where
  nonempty : w ≠ []
  characters : ∀ c ∈ w, isWord c = true
  eq : ofWord w = d

theorem isWordOf_null (i : Nat) : IsWordOf null (write i null).toList := by
  show IsWordOf null "null".toList
  exact ⟨by decide, List.all_eq_true.mp (by decide), rfl⟩

theorem isWordOf_bool (i : Nat) (b : Bool) : IsWordOf (bool b) (write i (bool b)).toList := by
  show IsWordOf (bool b) (if b then "true" else "false").toList
  cases b
  · exact ⟨by decide, List.all_eq_true.mp (by decide), rfl⟩
  · exact ⟨by decide, List.all_eq_true.mp (by decide), rfl⟩

theorem isWordOf_int (i n : Nat) : IsWordOf (int n) (write i (int n)).toList := by
  show IsWordOf (int n) n.repr.toList
  rw [Nat.repr_eq_ofList_toDigits, String.toList_ofList]
  refine ⟨Nat.toDigits_ne_nil, fun c hc => ?_, ofWord_digits n⟩
  exact isWord_of_isDigit (Nat.isDigit_of_mem_toDigits (by decide) (by decide) hc)

theorem isWordOf_float (i : Nat) {x : Number.Double} (hx : x.IsNumber) :
    IsWordOf (float x) (write i (float x)).toList := by
  obtain ⟨negative, cs, h⟩ := hx.written
  obtain ⟨c, rest, hcs, -⟩ := h.first
  show IsWordOf (float x) (Number.Layout.document.write x).toList
  rw [h.text]
  exact ⟨by simp [hcs], isWord_of_number h, ofWord_number h⟩

theorem IsWordOf.eq_cons {w : List Char} (h : IsWordOf d w) :
    ∃ c cs, w = c :: cs ∧ opens c = true := by
  obtain ⟨c, cs, rfl⟩ := List.exists_cons_of_ne_nil h.nonempty
  exact ⟨c, cs, rfl, opens_of_isWord (h.characters c List.mem_cons_self)⟩

section Brackets

variable (i : Nat)

theorem toList_str (s : String) : (write i (str s)).toList = (writeString s).toList := rfl

theorem toList_list_nil : (write i (list [])).toList = ['[', ']'] := by
  show "[]".toList = _
  rfl

theorem toList_list (d : Document) (ds : List Document) : (write i (list (d :: ds))).toList =
    '[' :: ((newline (i + 4)).toList ++ ((write (i + 4) d).toList ++
      ((writeItems (i + 4) ds).toList ++ ((newline i).toList ++ [']'])))) := by
  simp [write]

theorem toList_record_nil : (write i (record [])).toList = ['\x7b', '\x7d'] := by
  show "\x7b\x7d".toList = _
  rfl

theorem toList_record (k : String) (d : Document) (fs : List (String × Document)) :
    (write i (record ((k, d) :: fs))).toList =
      '\x7b' :: ((newline (i + 4)).toList ++ ((writeString k).toList ++ (':' :: ' ' ::
        ((write (i + 4) d).toList ++
          ((writeFields (i + 4) fs).toList ++ ((newline i).toList ++ ['\x7d'])))))) := by
  simp [write]

theorem toList_items (d : Document) (ds : List Document) : (writeItems i (d :: ds)).toList =
    ',' :: ((newline i).toList ++ ((write i d).toList ++ (writeItems i ds).toList)) := by
  simp [writeItems]

theorem toList_fields (k : String) (d : Document) (fs : List (String × Document)) :
    (writeFields i ((k, d) :: fs)).toList =
      ',' :: ((newline i).toList ++ ((writeString k).toList ++ (':' :: ' ' ::
        ((write i d).toList ++ (writeFields i fs).toList)))) := by
  simp [writeFields]

theorem toList_items_nil : (writeItems i []).toList = [] := rfl

theorem toList_fields_nil : (writeFields i []).toList = [] := rfl

end Brackets

theorem write_eq_cons (hm : d.missing? = none) (hx : ∀ x ∈ d.floats, x.IsNumber) (i : Nat) :
    ∃ c cs, (write i d).toList = c :: cs ∧ opens c = true := by
  cases d with
  | null => exact (isWordOf_null i).eq_cons
  | bool b => exact (isWordOf_bool i b).eq_cons
  | int n => exact (isWordOf_int i n).eq_cons
  | float x => exact (isWordOf_float i (hx x (by simp [floats]))).eq_cons
  | str s =>
    have htext := toList_writeString s []
    rw [List.append_nil] at htext
    exact ⟨'"', _, by rw [toList_str, htext], rfl⟩
  | list items =>
    cases items with
    | nil => exact ⟨'[', _, toList_list_nil i, rfl⟩
    | cons d ds => exact ⟨'[', _, toList_list i d ds, rfl⟩
  | record fields =>
    cases fields with
    | nil => exact ⟨'\x7b', _, toList_record_nil i, rfl⟩
    | cons f fs => exact ⟨'\x7b', _, toList_record i f.1 f.2 fs, rfl⟩
  | missingNode => cases hm
  | missingList => cases hm

section Steps

variable (n : Nat) (cs : List Char)

theorem read_quote : read (n + 1) ('"' :: cs) = (readQuoted ('"' :: cs)).map fun r =>
    (str r.1, r.2) := by
  simp only [read, skip_cons (show isBlank '"' = false from rfl), List.head?_cons, if_true]

theorem read_bracket (h : (skip cs).head? ≠ some ']') : read (n + 1) ('[' :: cs) =
    (read n cs).bind fun d => (readItems n d.2).map fun ds => (list (d.1 :: ds.1), ds.2) := by
  simp only [read, skip_cons (show isBlank '[' = false from rfl), List.head?_cons, List.tail_cons]
  rw [if_neg (by decide), if_pos trivial, if_neg h]

theorem read_brace (h : (skip cs).head? ≠ some '\x7d') : read (n + 1) ('\x7b' :: cs) =
    (readField (read n) cs).bind fun f => (readFields n f.2).map fun fs =>
      (record (f.1 :: fs.1), fs.2) := by
  simp only [read, skip_cons (show isBlank '\x7b' = false from rfl), List.head?_cons,
    List.tail_cons]
  rw [if_neg (by decide), if_neg (by decide), if_pos trivial, if_neg h]

theorem readItems_comma : readItems (n + 1) (',' :: cs) =
    (read n cs).bind fun d => (readItems n d.2).map fun ds => (d.1 :: ds.1, ds.2) := by
  simp only [readItems, skip_cons (show isBlank ',' = false from rfl), List.head?_cons,
    List.tail_cons, if_true]

theorem readFields_comma : readFields (n + 1) (',' :: cs) =
    (readField (read n) cs).bind fun f => (readFields n f.2).map fun fs => (f.1 :: fs.1, fs.2) := by
  simp only [readFields, skip_cons (show isBlank ',' = false from rfl), List.head?_cons,
    List.tail_cons, if_true]

theorem readItems_close (i : Nat) :
    readItems (n + 1) ((newline i).toList ++ (']' :: cs)) = some ([], cs) := by
  simp only [readItems, skip_append (newline_blank i),
    skip_cons (show isBlank ']' = false from rfl), List.head?_cons, List.tail_cons]
  rw [if_neg (by decide), if_pos trivial]

theorem readFields_close (i : Nat) :
    readFields (n + 1) ((newline i).toList ++ ('\x7d' :: cs)) = some ([], cs) := by
  simp only [readFields, skip_append (newline_blank i),
    skip_cons (show isBlank '\x7d' = false from rfl), List.head?_cons, List.tail_cons]
  rw [if_neg (by decide), if_pos trivial]

end Steps

theorem skip_write (hm : d.missing? = none) (hx : ∀ x ∈ d.floats, x.IsNumber) (i : Nat)
    (rest : List Char) {b : Char} (hb : opens b = false) :
    (skip ((newline i).toList ++ ((write i d).toList ++ rest))).head? ≠ some b := by
  obtain ⟨c, cs, htext, hc⟩ := write_eq_cons hm hx i
  rw [skip_append (newline_blank i), htext, List.cons_append, skip_cons (isBlank_of_opens hc),
    List.head?_cons, ne_eq, Option.some.injEq]
  exact opens_ne hc hb

theorem ends_cons (hc : isWord c = false) (cs : List Char) : Ends (c :: cs) := by
  intro d hd
  obtain rfl := Option.some.inj hd
  exact hc

theorem ends_newline (i : Nat) (cs : List Char) : Ends ((newline i).toList ++ cs) := by
  rw [newline, String.toList_append]
  exact ends_cons rfl _

theorem ends_items (i j : Nat) (ds : List Document) (cs : List Char) :
    Ends ((writeItems i ds).toList ++ ((newline j).toList ++ cs)) := by
  cases ds with
  | nil =>
    rw [toList_items_nil]
    exact ends_newline j cs
  | cons d ds =>
    rw [toList_items]
    exact ends_cons rfl _

theorem ends_fields (i j : Nat) (fs : List (String × Document)) (cs : List Char) :
    Ends ((writeFields i fs).toList ++ ((newline j).toList ++ cs)) := by
  cases fs with
  | nil =>
    rw [toList_fields_nil]
    exact ends_newline j cs
  | cons f fs =>
    rw [toList_fields i f.1 f.2]
    exact ends_cons rfl _

theorem readField_write {cs rest : List Char} (hd : read n cs = some (d, rest)) (i : Nat)
    (name : String) :
    readField (read n) ((newline i).toList ++ ((writeString name).toList ++ (':' :: ' ' :: cs))) =
      some ((name, d), rest) := by
  have hspace : read n (' ' :: cs) = read n cs := @read_append [' '] rfl n cs
  have hquote : skip ((writeString name).toList ++ (':' :: ' ' :: cs)) =
      (writeString name).toList ++ (':' :: ' ' :: cs) := by
    rw [toList_writeString]
    exact skip_cons rfl _
  rw [readField, skip_append (newline_blank i), hquote, readQuoted_writeString, Option.bind_some,
    if_pos List.head?_cons, List.tail_cons, hspace, hd, Option.map_some]

/-- Some fuel is left for the characters of a text that is not empty. -/
theorem exists_fuel (h : (c :: cs).length ≤ n) : ∃ k, n = k + 1 ∧ cs.length ≤ k := by
  refine ⟨n - 1, ?_, ?_⟩ <;> rw [List.length_cons] at h <;> omega

theorem IsWordOf.read {w rest : List Char} (h : IsWordOf d w) (hn : w.length ≤ n)
    (hrest : Ends rest) : read n (w ++ rest) = some (d, rest) := by
  obtain ⟨c, cs, hw, -⟩ := h.eq_cons
  obtain ⟨k, rfl, -⟩ := exists_fuel (hw ▸ hn)
  rw [read_word h.nonempty h.characters hrest, h.eq]

/-- The document is read back from its text, whatever stands behind it, if there is fuel for each of
its characters. -/
def ReadBack (d : Document) : Prop :=
  d.missing? = none → (∀ x ∈ d.floats, x.IsNumber) → ∀ (i n : Nat) (rest : List Char),
    (write i d).toList.length ≤ n → Ends rest → read n ((write i d).toList ++ rest) = some (d, rest)

def ItemsReadBack (ds : List Document) : Prop :=
  missingItem? ds = none → (∀ x ∈ itemFloats ds, x.IsNumber) → ∀ (i j n : Nat) (rest : List Char),
    (writeItems i ds).toList.length < n →
      readItems n ((writeItems i ds).toList ++ ((newline j).toList ++ (']' :: rest))) =
        some (ds, rest)

def FieldsReadBack (fs : List (String × Document)) : Prop :=
  missingField? fs = none → (∀ x ∈ fieldFloats fs, x.IsNumber) → ∀ (i j n : Nat) (rest : List Char),
    (writeFields i fs).toList.length < n →
      readFields n ((writeFields i fs).toList ++ ((newline j).toList ++ ('\x7d' :: rest))) =
        some (fs, rest)

section Parts

variable {d : Document} {ds : List Document} {fs : List (String × Document)}

theorem ReadBack.of_word (h : ∀ i, (∀ x ∈ d.floats, x.IsNumber) → IsWordOf d (write i d).toList) :
    ReadBack d :=
  fun _ hx i _ _ hn hrest => (h i hx).read hn hrest

theorem readBack_str (s : String) : ReadBack (str s) := by
  intro _ _ i n rest hn _
  have htext := toList_writeString s []
  have hquoted := readQuoted_writeString s rest
  rw [List.append_nil] at htext
  rw [toList_str, htext] at hn
  obtain ⟨k, rfl, -⟩ := exists_fuel hn
  rw [toList_str]
  rw [toList_writeString] at hquoted ⊢
  rw [read_quote, hquoted, Option.map_some]

theorem readBack_list_nil : ReadBack (list []) := by
  intro _ _ i n rest hn _
  rw [toList_list_nil] at hn ⊢
  obtain ⟨k, rfl, -⟩ := exists_fuel hn
  rfl

theorem readBack_record_nil : ReadBack (record []) := by
  intro _ _ i n rest hn _
  rw [toList_record_nil] at hn ⊢
  obtain ⟨k, rfl, -⟩ := exists_fuel hn
  rfl

theorem itemsReadBack_nil : ItemsReadBack [] := by
  intro _ _ i j n rest hn
  obtain ⟨k, rfl⟩ : ∃ k, n = k + 1 := ⟨n - 1, by omega⟩
  rw [toList_items_nil]
  exact readItems_close k rest j

theorem fieldsReadBack_nil : FieldsReadBack [] := by
  intro _ _ i j n rest hn
  obtain ⟨k, rfl⟩ : ∃ k, n = k + 1 := ⟨n - 1, by omega⟩
  rw [toList_fields_nil]
  exact readFields_close k rest j

theorem ReadBack.list (hd : ReadBack d) (hds : ItemsReadBack ds) : ReadBack (list (d :: ds)) := by
  intro hm hx i n rest hn _
  have hm := Option.or_eq_none_iff.mp hm
  simp only [floats, itemFloats, List.mem_append] at hx
  rw [toList_list] at hn ⊢
  obtain ⟨k, rfl, hk⟩ := exists_fuel hn
  simp only [List.length_append, List.length_singleton] at hk
  have hopen := skip_write hm.1 (fun x h => hx x (.inl h)) (i + 4)
    ((writeItems (i + 4) ds).toList ++ ((newline i).toList ++ (']' :: rest))) (b := ']') rfl
  have hd := hd hm.1 (fun x h => hx x (.inl h)) (i + 4) k _ (by omega)
    (ends_items (i + 4) i ds (']' :: rest))
  have hds := hds hm.2 (fun x h => hx x (.inr h)) (i + 4) i k rest (by omega)
  simp only [List.cons_append, List.append_assoc, List.nil_append]
  rw [read_bracket _ _ hopen, read_append (newline_blank _), hd, Option.bind_some, hds,
    Option.map_some]

theorem ItemsReadBack.cons (hd : ReadBack d) (hds : ItemsReadBack ds) :
    ItemsReadBack (d :: ds) := by
  intro hm hx i j n rest hn
  have hm := Option.or_eq_none_iff.mp hm
  simp only [itemFloats, List.mem_append] at hx
  rw [toList_items] at hn ⊢
  obtain ⟨k, rfl, -⟩ := exists_fuel hn.le
  simp only [List.length_cons, List.length_append] at hn
  have hd := hd hm.1 (fun x h => hx x (.inl h)) i k _ (by omega) (ends_items i j ds (']' :: rest))
  have hds := hds hm.2 (fun x h => hx x (.inr h)) i j k rest (by omega)
  simp only [List.cons_append, List.append_assoc]
  rw [readItems_comma, read_append (newline_blank _), hd, Option.bind_some, hds, Option.map_some]

theorem ReadBack.record (name : String) (hd : ReadBack d) (hfs : FieldsReadBack fs) :
    ReadBack (record ((name, d) :: fs)) := by
  intro hm hx i n rest hn _
  have hm := Option.or_eq_none_iff.mp hm
  simp only [floats, fieldFloats, List.mem_append] at hx
  rw [toList_record] at hn ⊢
  obtain ⟨k, rfl, hk⟩ := exists_fuel hn
  simp only [List.length_append, List.length_cons, List.length_nil] at hk
  have hd := hd hm.1 (fun x h => hx x (.inl h)) (i + 4) k _ (by omega)
    (ends_fields (i + 4) i fs ('\x7d' :: rest))
  have hfs := hfs hm.2 (fun x h => hx x (.inr h)) (i + 4) i k rest (by omega)
  have hfield := readField_write hd (i + 4) name
  simp only [List.cons_append, List.append_assoc, List.nil_append]
  rw [read_brace, hfield, Option.bind_some, hfs, Option.map_some]
  rw [skip_append (newline_blank _), toList_writeString]
  exact nofun

theorem FieldsReadBack.cons (name : String) (hd : ReadBack d) (hfs : FieldsReadBack fs) :
    FieldsReadBack ((name, d) :: fs) := by
  intro hm hx i j n rest hn
  have hm := Option.or_eq_none_iff.mp hm
  simp only [fieldFloats, List.mem_append] at hx
  rw [toList_fields] at hn ⊢
  obtain ⟨k, rfl, -⟩ := exists_fuel hn.le
  simp only [List.length_cons, List.length_append] at hn
  have hd := hd hm.1 (fun x h => hx x (.inl h)) i k _ (by omega)
    (ends_fields i j fs ('\x7d' :: rest))
  have hfs := hfs hm.2 (fun x h => hx x (.inr h)) i j k rest (by omega)
  have hfield := readField_write hd i name
  simp only [List.cons_append, List.append_assoc]
  rw [readFields_comma, hfield, Option.bind_some, hfs, Option.map_some]

end Parts

mutual

theorem readBack : ∀ d : Document, ReadBack d
  | null => .of_word fun i _ => isWordOf_null i
  | bool b => .of_word fun i _ => isWordOf_bool i b
  | int n => .of_word fun i _ => isWordOf_int i n
  | float x => .of_word fun i hx => isWordOf_float i (hx x (by simp [floats]))
  | str s => readBack_str s
  | list [] => readBack_list_nil
  | list (d :: ds) => .list (readBack d) (itemsReadBack ds)
  | record [] => readBack_record_nil
  | record ((name, d) :: fs) => .record name (readBack d) (fieldsReadBack fs)
  | missingNode => nofun
  | missingList => nofun

theorem itemsReadBack : ∀ ds : List Document, ItemsReadBack ds
  | [] => itemsReadBack_nil
  | d :: ds => .cons (readBack d) (itemsReadBack ds)

theorem fieldsReadBack : ∀ fs : List (String × Document), FieldsReadBack fs
  | [] => fieldsReadBack_nil
  | (name, d) :: fs => .cons name (readBack d) (fieldsReadBack fs)

end

/-- A document without missing parts is read back from its text. -/
theorem ofText?_write (hm : d.missing? = none) (hx : ∀ x ∈ d.floats, x.IsNumber) :
    ofText? (d.write 0) = some d := by
  have hread := readBack d hm hx 0 ((d.write 0).length + 1) [] (by rw [String.length_toList]; omega)
    nofun
  rw [List.append_nil] at hread
  rw [ofText?, hread, Option.map_some]

end Document

end LimeLang
