import LimeLang.Proofs.PrintfFormats

/-! What the constant of a string literal holds. Every escape puts a null character behind its line
break, and the size of the constant counts characters, not bytes. So a text is printed up to its
first escape only, and fills its constant only if it is plain ASCII. -/

namespace LimeLang

open Code

variable {cs : List Char}

/-- The text that a literal stands for: each escape is a line break. -/
def meant : List Char → List Char
  | [] => []
  | '\\' :: 'n' :: cs => '\n' :: meant cs
  | c :: cs => c :: meant cs

/-- The text that a literal stands for, up to its first escape. -/
def upToEscape : List Char → List Char
  | [] => []
  | '\\' :: 'n' :: _ => ['\n']
  | c :: cs => c :: upToEscape cs

def EscapesLast (cs : List Char) : Prop :=
  ∀ before behind, cs = before ++ '\\' :: 'n' :: behind → behind = []

theorem meant_eq_nil_iff : meant cs = [] ↔ cs = [] := by
  fun_cases meant cs <;> simp

theorem escapesLast_escape_iff : EscapesLast ('\\' :: 'n' :: cs) ↔ cs = [] := by
  refine ⟨fun h => h [] cs rfl, ?_⟩
  rintro rfl before behind h
  have hlength := congrArg List.length h
  simp only [List.length_cons, List.length_nil, List.length_append] at hlength
  exact List.eq_nil_of_length_eq_zero (by omega)

theorem escapesLast_cons_iff {c : Char} (hc : ∀ ds, c = '\\' → cs = 'n' :: ds → False) :
    EscapesLast (c :: cs) ↔ EscapesLast cs := by
  refine ⟨fun h before behind hcs => h (c :: before) behind (by rw [hcs]; rfl),
    fun h before behind hcs => ?_⟩
  cases before with
  | nil =>
    obtain ⟨hslash, hn⟩ := List.cons.inj hcs
    exact (hc behind hslash hn).elim
  | cons d before => exact h before behind (List.cons.inj hcs).2

theorem upToEscape_eq_meant_iff (cs : List Char) : upToEscape cs = meant cs ↔ EscapesLast cs := by
  fun_induction meant cs with
  | case1 => simp [upToEscape, EscapesLast]
  | case2 cs _ => simp [upToEscape, escapesLast_escape_iff, eq_comm, meant_eq_nil_iff]
  | case3 c cs hc ih =>
    rw [upToEscape.eq_3 c cs hc, escapesLast_cons_iff hc, ← ih]
    simp

theorem null_notMem_upToEscape (h : '\x00' ∉ cs) : '\x00' ∉ upToEscape cs := by
  fun_induction upToEscape cs with
  | case1 => exact h
  | case2 => decide
  | case3 c cs hc ih => simp_all

theorem mem_of_mem_upToEscape {c : Char} (h : c ∈ upToEscape cs) : c ∈ cs ∨ c = '\n' := by
  fun_induction upToEscape cs with
  | case1 => exact .inl h
  | case2 => exact .inr (List.mem_singleton.mp h)
  | case3 d cs hd ih =>
    rcases List.mem_cons.mp h with rfl | h
    · exact .inl List.mem_cons_self
    · exact (ih h).imp (List.mem_cons_of_mem d) id

/-- The first null character comes right behind the first escape, or at the end. -/
theorem unescape_first_null (cs : List Char) :
    ∃ rest, Gen.unescape cs ++ ['\x00'] = upToEscape cs ++ '\x00' :: rest := by
  fun_induction Gen.unescape cs with
  | case1 => exact ⟨[], rfl⟩
  | case2 cs _ => exact ⟨Gen.unescape cs ++ ['\x00'], rfl⟩
  | case3 c cs hc ih =>
    obtain ⟨rest, hrest⟩ := ih
    exact ⟨rest, by rw [upToEscape.eq_3 c cs hc, List.cons_append, hrest]; rfl⟩

section Encoding

def utf8 (cs : List Char) : List UInt8 := (String.ofList cs).toUTF8.data.toList

theorem utf8_eq_flatMap (cs : List Char) : utf8 cs = cs.flatMap String.utf8EncodeChar := by
  simp [utf8, String.toUTF8, String.toByteArray_ofList, List.utf8Encode, List.data_toByteArray]

theorem utf8_inj {cs ds : List Char} : utf8 cs = utf8 ds ↔ cs = ds := by
  refine ⟨fun h => ?_, fun h => by rw [h]⟩
  have hbytes : (String.ofList cs).toByteArray = (String.ofList ds).toByteArray :=
    ByteArray.ext (Array.toList_inj.mp h)
  exact String.ofList_injective (String.toByteArray_inj.mp hbytes)

/-- A byte below 128 stands for itself, and for nothing else. -/
theorem toNat_eq_of_mem_utf8EncodeChar {c : Char} {b : UInt8} (hb : b.toNat < 128)
    (h : b ∈ String.utf8EncodeChar c) : c.toNat = b.toNat := by
  have hc : c.val.toNat = c.toNat := rfl
  simp only [String.utf8EncodeChar, hc] at h
  split_ifs at h with h₁ h₂ h₃
  all_goals
    simp only [List.mem_cons, List.not_mem_nil, or_false] at h
  · rw [h, UInt8.toNat_ofNat']
    omega
  · rcases h with rfl | rfl <;> rw [UInt8.toNat_ofNat'] at hb <;> omega
  · rcases h with rfl | rfl | rfl <;> rw [UInt8.toNat_ofNat'] at hb <;> omega
  · rcases h with rfl | rfl | rfl | rfl <;> rw [UInt8.toNat_ofNat'] at hb <;> omega

theorem byte_notMem_utf8 {d : Char} {b : UInt8} (hd : d.toNat = b.toNat) (hb : b.toNat < 128)
    (h : d ∉ cs) : b ∉ utf8 cs := by
  intro hmem
  rw [utf8_eq_flatMap] at hmem
  obtain ⟨c, hc, hbc⟩ := List.mem_flatMap.mp hmem
  have hsame : c = d := Char.toNat_inj.mp ((toNat_eq_of_mem_utf8EncodeChar hb hbc).trans hd.symm)
  exact h (hsame ▸ hc)

/-- How many bytes the encoding of a text has beyond one for each character. -/
def excess : List Char → Nat
  | [] => 0
  | c :: cs => (c.utf8Size - 1) + excess cs

theorem length_utf8 (cs : List Char) : (utf8 cs).length = cs.length + excess cs := by
  rw [utf8_eq_flatMap]
  induction cs with
  | nil => rfl
  | cons c cs ih =>
    have hpos := c.utf8Size_pos
    simp only [List.flatMap_cons, List.length_append, String.length_utf8EncodeChar, ih, excess,
      List.length_cons]
    omega

theorem excess_append (cs ds : List Char) : excess (cs ++ ds) = excess cs + excess ds := by
  induction cs with
  | nil => simp [excess]
  | cons c cs ih => rw [List.cons_append, excess, excess, ih, Nat.add_assoc]

theorem excess_unescape (cs : List Char) : excess (Gen.unescape cs) = excess cs := by
  fun_induction Gen.unescape cs with
  | case1 => rfl
  | case2 cs ih =>
    calc excess (['\n', '\x00'] ++ Gen.unescape cs)
        = excess ['\n', '\x00'] + excess cs := by rw [excess_append, ih]
      _ = excess (['\\', 'n'] ++ cs) := (excess_append ['\\', 'n'] cs).symm
  | case3 c cs _ ih => simpa [excess] using ih

theorem excess_eq_zero_iff : excess cs = 0 ↔ ∀ c ∈ cs, c.toNat < 128 := by
  have hsize : ∀ c : Char, c.utf8Size - 1 = 0 ↔ c.toNat < 128 := by
    intro c
    have hone : c.utf8Size = 1 ↔ c.toNat ≤ 127 :=
      Char.utf8Size_eq_one_iff.trans UInt32.le_iff_toNat_le
    have hpos := c.utf8Size_pos
    omega
  induction cs with
  | nil => simp [excess]
  | cons c cs ih =>
    rw [List.forall_mem_cons, ← hsize]
    exact Nat.add_eq_zero_iff.trans (and_congr_right' ih)

theorem cString_append {bs rest : List UInt8} (h : 0 ∉ bs) : cString (bs ++ 0 :: rest) = bs := by
  refine (List.takeWhile_append_of_pos fun b hb => ?_).trans (by simp)
  exact decide_eq_true fun h0 => h (h0 ▸ hb)

end Encoding

section Printing

variable {a : Assembly} {n : Nat} {text : String}

theorem printf_plain {bs : List UInt8} (h : 37 ∉ bs) (args : List Value) :
    a.printf bs args = some bs := by
  induction bs with
  | nil => rfl
  | cons b bs ih =>
    have hb : b.toNat ≠ '%'.toNat := fun heq =>
      h (List.mem_cons.mpr (.inl (UInt8.toNat_inj.mp heq.symm)))
    cases bs with
    | nil => rfl
    | cons c bs =>
      rw [Assembly.printf, if_pos hb, ih fun hmem => h (List.mem_cons_of_mem b hmem)]
      rfl

/-- A call of `printf` for a string, behind any code, writes these bytes and goes on. -/
def Code.Assembly.Prints (a : Assembly) (callee x : Operand) (bytes : List UInt8) : Prop :=
  ∀ r f k₁ k₂ k₃ k₄, ∃ f', ∀ fuel is out,
    a.run r (fuel + 4) (printfCode x x callee [] k₁ k₂ k₃ k₄ ++ is) f out =
      a.run r fuel is f' (bytes.reverse ++ out)

theorem run_call_declared {r r' : Routine} {fuel : Nat} {k callee : String} {t : Ty}
    {args : List (Option Operand)}
    {is : List Instr} {f : Frame} {out bytes : List UInt8} {format : Value} {rest : List Value}
    (hr : a.routine? callee = some r') (hblocks : r'.blocks = [])
      (hargs : f.args? args = some (format :: rest))
    (hbytes : (a.bytesAt? format).bind (a.printf · rest) = some bytes) :
    a.run r (fuel + 1) (⟨k, .call (.global callee t) args⟩ :: is) f out =
      a.run r fuel is (f.setValue k (.int 32 (BitVec.ofNat 32 bytes.length)))
        (bytes.reverse ++ out) := by
  simp only [Assembly.run, hr, hargs, hblocks, hbytes]

theorem cString_unescape (h : '\x00' ∉ cs) :
    cString (utf8 (Gen.unescape cs ++ ['\x00'])) = utf8 (upToEscape cs) := by
  obtain ⟨rest, hrest⟩ := unescape_first_null cs
  have hbytes : utf8 (upToEscape cs ++ '\x00' :: rest) = utf8 (upToEscape cs) ++ 0 ::
      utf8 rest := by
    simp only [utf8_eq_flatMap, List.flatMap_append, List.flatMap_cons]
    rfl
  rw [hrest, hbytes, cString_append (byte_notMem_utf8 rfl (by decide) (null_notMem_upToEscape h))]

/-- A string without directives is printed up to its first escape. -/
theorem prints_string {name : String} {ty : Ty} {r : Routine} (hnull : '\x00' ∉ text.toList)
    (hplain : '%' ∉ text.toList) (hitem : a.item?
    (Gen.stringName n) = some (.constant (.ofString n text)))
    (hr : a.routine? name = some r) (hblocks : r.blocks = []) :
    a.Prints (.global name ty) (stringOperand n text) (utf8 (upToEscape text.toList)) := by
  intro r' f k₁ k₂ k₃ k₄
  let bytes := utf8 (upToEscape text.toList)
  have hpercent : '%' ∉ upToEscape text.toList := fun h =>
    (mem_of_mem_upToEscape h).elim hplain (by decide)
  have hbytes : (a.bytesAt? (.global (Gen.stringName n))).bind (a.printf · []) = some bytes := by
    rw [Assembly.bytesAt?, hitem]
    change a.printf (cString ((Gen.unescape text.toList ++ ['\x00']).flatMap String.utf8EncodeChar))
      [] = _
    rw [← utf8_eq_flatMap, cString_unescape hnull,
      printf_plain (byte_notMem_utf8 rfl (by decide) hpercent)]
  let f₁ : Frame := ⟨f.values.set k₁ (.slot f.slots.size), f.slots.push none⟩
  let f₂ : Frame := { f₁ with
    slots := f₁.slots.setIfInBounds f.slots.size (some (.global (Gen.stringName n))) }
  let f₃ : Frame := f₂.setValue k₃ (.global (Gen.stringName n))
  have hstore : f₁.step? a ⟨k₂, .store (stringOperand n text)
      (.result k₁ (.pointer (stringOperand n text).ty))⟩ = some f₂ := by
    have hslot : f₁.values.get? k₁ = some (.slot f.slots.size) := Values.get?_set_same _ _ _
    simp [Frame.step?, Frame.value?, Frame.valueAs?, stringOperand, Item.operand, hslot,
      Frame.storeSlot?, f₁, f₂, Constant.ofString]
  have hargs : f₃.args? [some (.result k₃ .bytes)] = some [.global (Gen.stringName n)] := by
    have hformat : f₃.values.get? k₃ = some (.global (Gen.stringName n)) :=
      Values.get?_set_same _ _ _
    simp [Frame.args?, Frame.value?, Frame.valueAs?, hformat]
  refine ⟨f₃.setValue k₄ (.int 32 (BitVec.ofNat 32 bytes.length)), fun fuel is out => ?_⟩
  rw [printfCode, List.cons_append, Assembly.run_straight rfl]
  change a.run r' (fuel + 3) _ f₁ out = _
  rw [List.cons_append, Assembly.run_straight rfl, hstore]
  change a.run r' (fuel + 2) _ f₂ out = _
  rw [List.cons_append, Assembly.run_straight rfl]
  change a.run r' (fuel + 1) _ f₃ out = _
  exact run_call_declared hr hblocks hargs hbytes

end Printing

section Generation

variable {e : Edition} {s t : Session} {text : String}

/-- The session with the constant of a string literal. -/
def Session.withString (s : Session) (text : String) : Session :=
  { s with
    counter := s.counter + 1
    assembly := s.assembly.add (.constant (.ofString (s.counter + 1) text)) }

theorem run_string (s : Session) (text : String) : (Gen.string text).run s =
    if s.assembly.item? (Gen.stringName (s.counter + 1)) = none then
      (.ok (.of (stringOperand (s.counter + 1) text) (stringOperand (s.counter + 1) text).ty),
        s.withString text)
    else (.error (.duplicateName (Gen.stringName (s.counter + 1))),
      { s with counter := s.counter + 1 }) := by
  have hcount : Gen.countUp.run s = (.ok (s.counter + 1), { s with counter := s.counter + 1 }) :=
    rfl
  rw [Gen.string, Gen.run_bind_of_ok hcount]
  split_ifs with hitem
  · rw [Gen.run_bind_of_ok (Gen.run_addItem hitem)]
    rfl
  · obtain ⟨i, hi⟩ := Option.ne_none_iff_exists'.mp hitem
    rw [Gen.run_bind, Gen.run_addItem_taken hi]
    rfl

/-- A `printf` of one literal that compiles is code for the constant of the literal. -/
theorem printf_literal_ok (he : e.has .strings = true) (hs : Reachable e s) {r : Typed}
    (h : (Gen.value e (.call (.ident "printf") [.str text])).run s = (.ok r, t)) :
    ∃ b p k₁ k₂ k₃ k₄, s.scopes.find? Gen.printfName = some b ∧ s.place = some p ∧
      Emitted p (s.withString text) (printfCode (stringOperand (s.counter + 1) text)
        (stringOperand (s.counter + 1) text) b.value [] k₁ k₂ k₃ k₄) t ∧
      t.assembly.item? (Gen.stringName (s.counter + 1)) =
        some (.constant (.ofString (s.counter + 1) text)) := by
  rw [Gen.value] at h
  obtain ⟨name, _, hname, h⟩ := Gen.bind_ok h
  cases hname
  obtain ⟨args, s₁, hargs, h⟩ := Gen.bind_ok h
  rw [Gen.values] at hargs
  obtain ⟨first, s₂, hfirst, hargs⟩ := Gen.bind_ok hargs
  rw [Gen.values] at hargs
  cases hargs
  rw [Gen.value] at hfirst
  have hnumbers := string_numbers hfirst
  have hquiet := (quiet.string text).of_run hfirst
  obtain ⟨rfl, -, rfl⟩ := Gen.string_ok hfirst
  have hitem := hnumbers.constants 0 text rfl
  have hprintf : e.has .strings && (Literal.text "printf" = Gen.printfName) := by
    rw [he]
    rfl
  rw [Gen.applied, if_pos hprintf] at h
  obtain ⟨p, hp⟩ := printf_placed h
  have hvalid := hquiet.valid (hs.valid (Edition.has_of_since_le (by decide) he))
  obtain ⟨b, k₁, k₂, k₃, k₄, hb, hcode⟩ := printf_ok (hvalid.stands hp) rfl hitem h
  exact ⟨b, p, k₁, k₂, k₃, k₄, hb, hp, hcode,
    ((keepsNumbers.printf _).of_run h).constants _ _ hitem⟩

end Generation

/-- What becomes of a string literal. Its constant ends with a null byte, and has as many bytes as
its size says, as it must to be accepted, just if all characters are ASCII. The bytes before its
first null byte are those of the text up to its first escape, and so the whole text just if nothing
stands behind an escape. That is also what a `printf` of the literal prints. -/
theorem string_kept_whole_iff {e : Edition} (he : e.has .strings = true) {s : Session}
    (hs : Reachable e s) {text : String} (hnull : '\x00' ∉ text.toList) :
    let c := Constant.ofString (s.counter + 1) text
    let x := (Item.constant c).operand
    ∃ size bytes, c.ty = .array size .i8 ∧ c.initial = .bytes bytes ∧
      (Gen.value e (.str text)).run s =
        (if s.assembly.item? c.name = none then (.ok (.of x x.ty), s.withString text)
        else (.error (.duplicateName c.name), { s with counter := s.counter + 1 })) ∧
      bytes.getLast? = some 0 ∧ bytes.length = size + excess text.toList ∧
      (bytes.length = size ↔ ∀ ch ∈ text.toList, ch.toNat < 128) ∧
      (c.isAccepted = true ↔ bytes.length = size) ∧
      cString bytes = utf8 (upToEscape text.toList) ∧
      (cString bytes = utf8 (meant text.toList) ↔ EscapesLast text.toList) ∧
      (∀ r t, (Gen.value e (.call (.ident "printf") [.str text])).run s = (.ok r, t) →
        ∃ b p k₁ k₂ k₃ k₄, s.scopes.find? Gen.printfName = some b ∧ s.place = some p ∧
          Emitted p (s.withString text) (printfCode x x b.value [] k₁ k₂ k₃ k₄) t ∧
          t.assembly.item? c.name = some (.constant c)) ∧
      ('%' ∉ text.toList → ∀ (a : Assembly) (r : Routine) (ty : Ty),
        a.item? c.name = some (.constant c) →
        a.routine? r.name = some r → r.blocks = [] →
          a.Prints (.global r.name ty) x (cString bytes)) := by
  intro c x
  let chars := Gen.unescape text.toList ++ ['\x00']
  have hlast : (utf8 chars).getLast? = some 0 := by
    simp only [chars, utf8_eq_flatMap, List.flatMap_append]
    exact List.getLast?_append_of_ne_nil _ (by decide)
  have hexcess : excess chars = excess text.toList := by
    rw [excess_append, excess_unescape]
    rfl
  have hlength : (utf8 chars).length = chars.length + excess text.toList := by
    rw [length_utf8, hexcess]
  have hcstring : cString (utf8 chars) = utf8 (upToEscape text.toList) := cString_unescape hnull
  refine ⟨chars.length, utf8 chars,
    rfl, by rw [utf8_eq_flatMap]; rfl, ?_, hlast, hlength, ?_, ?_, hcstring, ?_,
    fun r t h => printf_literal_ok he hs h, fun hplain a r ty hitem hr hblocks => ?_⟩
  · rw [Gen.value]
    exact run_string s text
  · rw [← excess_eq_zero_iff, hlength]
    omega
  · rw [utf8_eq_flatMap]
    simp [c, Constant.isAccepted, Constant.ofString, chars]
  · rw [hcstring, utf8_inj, upToEscape_eq_meant_iff]
  · rw [hcstring]
    exact prints_string hnull hplain hitem hr hblocks

namespace PrintSample

open FormatSample

def line : String := "tick 1\\n"

def printed : Except Failure Typed × Session :=
  (Gen.value .latest (.call (.ident "printf") [.str line])).run session

end PrintSample

open FormatSample PrintSample

theorem string_kept_whole_iff_line :
    Reachable .latest session ∧ '\x00' ∉ line.toList ∧ EscapesLast line.toList ∧
      ∃ size bytes, (Constant.ofString 1 line).ty = .array size .i8 ∧
        (Constant.ofString 1 line).initial = .bytes bytes ∧ bytes.length = size ∧
        cString bytes = utf8 (meant line.toList) ∧
        printed.2.assembly.Prints callee (stringOperand 1 line) (utf8 (meant line.toList)) := by
  have hreach : Reachable .latest session := Session.within_reachable _ _
  have hnull : '\x00' ∉ line.toList := by decide
  have hlast : EscapesLast line.toList := (upToEscape_eq_meant_iff _).mp (by decide)
  have hcounter : session.counter + 1 = 1 := by decide +kernel
  have hok : printed.1.isOk = true := by decide +kernel
  have hdeclared : (printed.2.assembly.routine? "printf").map (fun r => (r.name, r.blocks)) =
      some ("printf", []) := by decide +kernel
  obtain ⟨r, hr, hfields⟩ := Option.map_eq_some_iff.mp hdeclared
  obtain ⟨hname, hblocks⟩ := Prod.mk.inj hfields
  obtain ⟨size, bytes, hty, hinitial, -, -, -, hascii, -, -, hwhole, hemitted, hprints⟩ :=
    string_kept_whole_iff (Edition.latest_has _) hreach hnull
  rw [hcounter] at hty hinitial
  refine ⟨hreach, hnull, hlast, size, bytes, hty, hinitial,
    hascii.mpr (excess_eq_zero_iff.mp (by decide)), hwhole.mpr hlast, ?_⟩
  rcases hrun : printed with ⟨r', t⟩
  rw [hrun] at hok hr
  cases r' with
  | error f => cases hok
  | ok v =>
    obtain ⟨_, _, _, _, _, _, -, -, -, hitem⟩ := hemitted v t hrun
    have hwritten := hprints (by decide) t.assembly r (.pointer (.function .i32 [.bytes] true))
      hitem (hname.symm ▸ hr) hblocks
    rwa [hwhole.mpr hlast, hcounter, hname] at hwritten

/-- An escape with text behind it cuts the text off, and a letter outside of ASCII does not fit. -/
theorem string_cut_or_refused :
    let cut : Constant := ⟨"__str_1", true, .array 5 .i8, .bytes [97, 10, 0, 98, 0]⟩
    let refused : Constant := ⟨"__str_1", true, .array 2 .i8, .bytes [195, 169, 0]⟩
    ((Gen.value .latest (.str "a\\nb")).run session).2.assembly.item?
      "__str_1" = some (.constant cut) ∧
      cString [97, 10, 0, 98, 0] = [97, 10] ∧ utf8 (meant "a\\nb".toList) = [97, 10, 98] ∧
      ((Gen.value .latest (.str "é")).run session).2.assembly.item?
        "__str_1" = some (.constant refused) ∧
      refused.isAccepted = false := by
  decide +kernel

end LimeLang
