import LimeLang.Proofs.ValueInversion

/-! The format of a `printf`. It is looked up by number once all arguments are computed, so it is
the string that was made last, and not the first argument when a string follows it. -/

namespace LimeLang

open Code

variable {text : String}

mutual

/-- The string literals of an expression, in the order in which they are computed. -/
def Expr.strings : Expr → List String
  | .str text => [text]
  | .infixed l _ r => l.strings ++ r.strings
  | .prefixed _ x => x.strings
  | .call _ args => stringsOf args
  | _ => []

def stringsOf : List Expr → List String
  | [] => []
  | x :: xs => x.strings ++ stringsOf xs

end

/-- The strings that were numbered behind `n`, each with a constant of its own. -/
structure Session.Numbers (t : Session) (n : Nat) (texts : List String) : Prop where
  counter : t.counter = n + texts.length
  constants : ∀ i text, texts[i]? = some text →
    t.assembly.item? (Gen.stringName (n + 1 + i)) = some (.constant (.ofString (n + 1 + i) text))

/-- What code without strings leaves alone. -/
structure Session.KeepsNumbers (s t : Session) : Prop where
  counter : t.counter = s.counter
  constants : s.assembly.KeepsConstants t.assembly

namespace Session.Numbers

variable {s t u : Session} {n : Nat} {l l' : List String}

theorem nil (s : Session) : s.Numbers s.counter [] := ⟨rfl, by simp⟩

theorem append (h : t.Numbers n l) (hc : t.assembly.KeepsConstants u.assembly)
    (h' : u.Numbers t.counter l') : u.Numbers n (l ++ l') where
  counter := by rw [h'.counter, h.counter, List.length_append, Nat.add_assoc]
  constants := by
    intro i text hi
    by_cases hlt : i < l.length
    · rw [List.getElem?_append_left hlt] at hi
      exact hc _ _ (h.constants i text hi)
    · have hle : l.length ≤ i := Nat.le_of_not_lt hlt
      rw [List.getElem?_append_right hle] at hi
      have hnumber : t.counter + 1 + (i - l.length) = n + 1 + i := by
        have hcounter := h.counter
        omega
      have hitem := h'.constants _ _ hi
      rwa [hnumber] at hitem

theorem keeps (h : t.Numbers n l) (htu : t.KeepsNumbers u) : u.Numbers n l where
  counter := htu.counter.trans h.counter
  constants i text hi := htu.constants _ _ (h.constants i text hi)

end Session.Numbers

theorem keepsNumbers : ClosedCode (Obeys Session.KeepsNumbers) where
  pure := .pure fun _ => ⟨rfl, fun _ _ h => h⟩
  throw _ := .throw (fun _ => ⟨rfl, fun _ _ h => h⟩) _
  bind := .bind fun _ _ _ h h' => ⟨h'.counter.trans h.counter, fun n c hc =>
    h'.constants n c (h.constants n c hc)⟩
  get hf _ := .get hf
  emit _ := .emit (fun _ => ⟨rfl, fun _ _ h => h⟩)
    (fun _ _ _ _ hr => ⟨rfl, Assembly.KeepsConstants.steps.takeName hr⟩)
    fun _ _ _ _ hr => ⟨rfl, Assembly.KeepsConstants.steps.withInstr hr⟩

section Counting

variable {e : Edition} {s t : Session}

theorem string_numbers {r : Typed} (h : (Gen.string text).run s = (.ok r, t)) :
    t.Numbers s.counter [text] := by
  obtain ⟨-, hitem, rfl⟩ := Gen.string_ok h
  refine ⟨rfl, fun i text' hi => ?_⟩
  cases i with
  | zero =>
    obtain rfl := Option.some.inj hi
    exact (Assembly.item?_add hitem).trans (if_pos rfl)
  | succ i => simp at hi

mutual

theorem value_numbers : ∀ (x : Expr) {s t : Session} {r : Typed},
    (Gen.value e x).run s = (.ok r, t) → t.Numbers s.counter x.strings
  | .missing, s, t, r, h => by
    rw [Gen.value] at h
    cases h
  | .int n, s, t, r, h | .float x, s, t, r, h => by
    rw [Gen.value] at h
    cases h
    exact .nil s
  | .bool b, s, t, r, h => by
    obtain ⟨_, hrun⟩ := value_bool e b s
    rw [h] at hrun
    cases hrun
    exact .nil _
  | .ident y, s, t, r, h => by
    rw [Gen.value] at h
    obtain ⟨b, s₁, hb, h⟩ := Gen.bind_ok h
    obtain ⟨-, rfl⟩ := Gen.binding_ok hb
    obtain ⟨v, s₂, hv, h⟩ := Gen.bind_ok h
    cases h
    exact (Session.Numbers.nil s).keeps ((keepsNumbers.load b.value).of_run hv)
  | .str text, s, t, r, h => by
    rw [Gen.value] at h
    exact string_numbers h
  | .infixed l op r, s, t, v, h => by
    rw [Gen.value] at h
    obtain ⟨x, s₁, h₁, h⟩ := Gen.bind_ok h
    obtain ⟨y, s₂, h₂, h⟩ := Gen.bind_ok h
    have hboth := (value_numbers l h₁).append ((quiet.value e r).of_run h₂).constants
      (value_numbers r h₂)
    exact hboth.keeps ((keepsNumbers.infixed e op x y).of_run h)
  | .prefixed op r, s, t, v, h => by
    rw [Gen.value] at h
    obtain ⟨x, s₁, h₁, h⟩ := Gen.bind_ok h
    exact (value_numbers r h₁).keeps ((keepsNumbers.prefixed op x).of_run h)
  | .call f args, s, t, r, h => by
    rw [Gen.value] at h
    obtain ⟨name, s₁, h₁, h⟩ := Gen.bind_ok h
    obtain ⟨vs, s₂, h₂, h⟩ := Gen.bind_ok h
    have hargs := values_numbers args h₂
    rw [((keepsNumbers.named f).of_run h₁).counter] at hargs
    exact hargs.keeps ((keepsNumbers.applied e name vs).of_run h)
  | .openCall f, s, t, r, h => by
    rw [Gen.value] at h
    obtain ⟨name, s₁, h₁, h⟩ := Gen.bind_ok h
    cases h
  | .stepped .., s, t, r, h | .ifThen .., s, t, r, h | .ifElse .., s, t, r, h => by
    rw [Gen.value] at h
    cases h

theorem values_numbers : ∀ (xs : List Expr) {s t : Session} {vs : List Typed},
    (Gen.values e xs).run s = (.ok vs, t) → t.Numbers s.counter (stringsOf xs)
  | [], s, t, vs, h => by
    rw [Gen.values] at h
    cases h
    exact .nil s
  | x :: xs, s, t, vs, h => by
    rw [Gen.values] at h
    obtain ⟨v, s₁, h₁, h⟩ := Gen.bind_ok h
    obtain ⟨ws, s₂, h₂, h⟩ := Gen.bind_ok h
    cases h
    exact (value_numbers x h₁).append ((quiet.values e xs).of_run h₂).constants
      (values_numbers xs h₂)

end

end Counting

section Formatting

variable {s t : Session} {p : Place} {v : Operand} {args : List (Option Operand)}

theorem checkArguments_ok {i : Nat} {ts : List Ty}
    (h : (Gen.checkArguments i ts args).run s = (.ok (), t)) : s = t := by
  induction ts generalizing i args with
  | nil =>
    cases h
    rfl
  | cons ty ts ih =>
    cases args with
    | nil => cases h
    | cons a args =>
      cases a with
      | none => cases h
      | some x =>
        simp only [Gen.checkArguments, Gen.need, pure_bind] at h
        split_ifs at h
        · exact ih h
        · cases h

theorem call_ok {f : Operand} (hs : s.Stands p) (h : (Gen.call f args).run s = (.ok v, t)) :
    ∃ m, v = .result m (Op.call f args).ty ∧ Emitted p s [⟨m, .call f args⟩] t := by
  rw [Gen.call] at h
  split at h
  · cases h
  · obtain ⟨_, s₁, hcheck, h⟩ := Gen.bind_ok h
    obtain rfl := checkArguments_ok hcheck
    exact (hs.emit rfl).of_ok h

/-- The constant for a string with a number, as instructions refer to it. -/
def stringOperand (n : Nat) (text : String) : Operand := (Item.constant (.ofString n text)).operand

theorem bitcast_string (n : Nat) (text : String) :
    Gen.bitcast (stringOperand n text) .bytes = Gen.emit
      (.bitcast (stringOperand n text) .bytes) := by
  refine if_neg fun h => ?_
  cases h

theorem run_format (k : Nat) (own : String) {n : Nat} (hn : s.counter = n)
    (hitem : s.assembly.item? (Gen.stringName n) = some (.constant (.ofString n text))) :
    (Gen.format (stringOperand k own)).run
      s = (Gen.emit (.bitcast (stringOperand n text) .bytes)).run s := by
  subst hn
  have hnone : (Gen.loadedFrom? (stringOperand k own)).run s = (.ok none, s) := rfl
  rw [← bitcast_string, Gen.format, Gen.run_bind_of_ok hnone]
  dsimp only
  rw [Gen.run_bind_of_ok (Gen.run_get s), Gen.run_bind_of_ok (Gen.run_get s), hitem]
  rfl

/-- The code of a `printf` of the string `own`, where `last` is the string that was made last. The
names are those of its four instructions. -/
def printfCode (own last callee : Operand) (args : List (Option Operand)) (k₁ k₂ k₃ k₄ : String) :
    List Instr :=
  [⟨k₁, .alloca own.ty⟩, ⟨k₂, .store own (.result k₁ (.pointer own.ty))⟩,
    ⟨k₃, .bitcast last .bytes⟩, ⟨k₄, .call callee (some (.result k₃ .bytes) :: args)⟩]

theorem printf_ok {k n : Nat} {own text : String} {vs : List Typed} {r : Typed} (hs : s.Stands p)
    (hn : s.counter = n) (hitem : s.assembly.item?
    (Gen.stringName n) = some (.constant (.ofString n text)))
    (h : (Gen.printf (.of (stringOperand k own) (stringOperand k own).ty :: vs)).run
      s = (.ok r, t)) :
    ∃ b k₁ k₂ k₃ k₄, s.scopes.find? Gen.printfName = some b ∧
      Emitted p s (printfCode (stringOperand k own) (stringOperand n text) b.value
        (vs.map Typed.value) k₁ k₂ k₃ k₄) t := by
  obtain ⟨b, s₁, hb, h⟩ := Gen.bind_ok h
  obtain ⟨hfind, rfl⟩ := Gen.binding_ok hb
  obtain ⟨slot, s₁, halloca, h⟩ := Gen.bind_ok h
  have hslot := hs.emit (show (Op.alloca (stringOperand k own).ty).isTerminator = false from rfl)
  obtain ⟨k₁, rfl, h₁⟩ := hslot.of_ok halloca
  obtain ⟨_, s₂, hstore, h⟩ := Gen.bind_ok h
  have hs₁ := hs.emitted h₁
  have hkept := hs₁.store (show (Operand.result k₁ (.pointer (stringOperand k own).ty)).ty =
    .pointer (stringOperand k own).ty from rfl)
  obtain ⟨k₂, h₂⟩ := hkept.of_ok hstore
  have hs₂ := hs₁.emitted h₂
  obtain ⟨_, _, hneed, h⟩ := Gen.bind_ok h
  cases hneed
  obtain ⟨x, s₃, hformat, h⟩ := Gen.bind_ok h
  have hkeeps₁ := (keepsNumbers.alloca _).of_run halloca
  have hkeeps₂ := (keepsNumbers.store _ _).of_run hstore
  -- the counter has not moved since the arguments were computed, so it names the string made last
  rw [run_format k own ((hkeeps₂.counter.trans hkeeps₁.counter).trans hn)
    (hkeeps₂.constants _ _ (hkeeps₁.constants _ _ hitem))] at hformat
  obtain ⟨k₃, rfl, h₃⟩ := (hs₂.emit rfl).of_ok hformat
  obtain ⟨v, s₄, hcall, h⟩ := Gen.bind_ok h
  cases h
  obtain ⟨k₄, -, h₄⟩ := call_ok (hs₂.emitted h₃) hcall
  exact ⟨b, k₁, k₂, k₃, k₄, hfind, ((h₁.trans h₂).trans h₃).trans h₄⟩

theorem printf_placed {ty : Ty} {vs : List Typed} {r : Typed}
    (h : (Gen.printf (.of v (.pointer ty) :: vs)).run s = (.ok r, t)) : ∃ p, s.place = some p := by
  cases hp : s.place with
  | some p => exact ⟨p, rfl⟩
  | none =>
    obtain ⟨b, s₁, hb, h⟩ := Gen.bind_ok h
    obtain ⟨-, rfl⟩ := Gen.binding_ok hb
    obtain ⟨slot, s₁, halloca, -⟩ := Gen.bind_ok h
    have hnowhere : (Gen.alloca (some (.pointer ty))).run s = (.error .noBlock, s) :=
      Gen.run_emit_nowhere hp
    cases halloca.symm.trans hnowhere

/-- The string that was made last, if the string number `n` is `text` and others follow it. -/
def lastString (n : Nat) (text : String) (others : List String) : Operand :=
  stringOperand (n + others.length) (others.getLastD text)

theorem lastString_eq_first_iff {n : Nat} {others : List String} :
    lastString n text others = stringOperand n text ↔ others = [] := by
  refine ⟨fun h => ?_, fun h => by rw [h]; rfl⟩
  have hname : Gen.stringName (n + others.length) = Gen.stringName n := (Operand.global.inj h).1
  have hnumber : n + others.length = n :=
    Names.repr_injective ((String.append_right_inj _).mp hname)
  exact List.eq_nil_of_length_eq_zero (by omega)

theorem Session.Numbers.last {n : Nat} {others : List String} (h : t.Numbers n (text :: others)) :
    t.assembly.item? (Gen.stringName (n + 1 + others.length)) =
      some (.constant (.ofString (n + 1 + others.length) (others.getLastD text))) := by
  refine h.constants _ _ ?_
  have hlast : (text :: others).getLast? = some (others.getLastD text) := by
    rw [List.getLast?_cons, List.getLastD_eq_getLast?]
  rw [← hlast, List.getLast?_eq_getElem?]
  rfl

end Formatting

/-- The format of a `printf` is its own string just if no string literal comes up in the other
arguments. They are handed over in order. -/
theorem printf_formats_last_string {e : Edition} (he : e.has .strings = true) {s t : Session}
    (hs : Reachable e s) {text : String} {xs : List Expr} {r : Typed}
    (h : (Gen.value e (.call (.ident "printf") (.str text :: xs))).run s = (.ok r, t)) :
    ∃ first s₁ vs s₂ b p k₁ k₂ k₃ k₄,
      first = stringOperand (s.counter + 1) text ∧
      (Gen.value e (.str text)).run s = (.ok (.of first first.ty), s₁) ∧
      (Gen.values e xs).run s₁ = (.ok vs, s₂) ∧
      s.scopes.find? Gen.printfName = some b ∧ s.place = some p ∧
      Emitted p s₂ (printfCode first (lastString (s.counter + 1) text (stringsOf xs)) b.value
        (vs.map Typed.value) k₁ k₂ k₃ k₄) t ∧
      t.Numbers s.counter (text :: stringsOf xs) ∧
      (lastString (s.counter + 1) text (stringsOf xs) = first ↔ stringsOf xs = []) := by
  rw [Gen.value] at h
  obtain ⟨name, _, hname, h⟩ := Gen.bind_ok h
  cases hname
  obtain ⟨args, s₂, hargs, h⟩ := Gen.bind_ok h
  rw [Gen.values] at hargs
  obtain ⟨first, s₁, hfirst, hargs⟩ := Gen.bind_ok hargs
  obtain ⟨vs, s₃, hvs, hret⟩ := Gen.bind_ok hargs
  cases hret
  have hstring : (Gen.string text).run s = (.ok first, s₁) := by
    rw [← hfirst, Gen.value]
  obtain ⟨rfl, -, -⟩ := Gen.string_ok hstring
  have hnumbers : s₂.Numbers s.counter (text :: stringsOf xs) :=
    (string_numbers hstring).append ((quiet.values e xs).of_run hvs).constants
      (values_numbers xs hvs)
  have hquiet := ((quiet.string text).of_run hstring).trans ((quiet.values e xs).of_run hvs)
  have hprintf : e.has .strings && (Literal.text "printf" = Gen.printfName) := by
    rw [he]
    rfl
  rw [Gen.applied, if_pos hprintf] at h
  obtain ⟨p, hp⟩ := printf_placed h
  have hvalid := hquiet.valid (hs.valid (Edition.has_of_since_le (by decide) he))
  have hcounter : s₂.counter = s.counter + 1 + (stringsOf xs).length := by
    rw [hnumbers.counter, List.length_cons]
    omega
  obtain ⟨b, k₁, k₂, k₃, k₄, hb, hcode⟩ := printf_ok (hvalid.stands hp) hcounter hnumbers.last h
  exact ⟨_, s₁, vs, s₂, b, p, k₁, k₂, k₃, k₄, rfl, hfirst, hvs, hquiet.scopes ▸ hb,
    hquiet.place ▸ hp, hcode,
    hnumbers.keeps ((keepsNumbers.printf _).of_run h), lastString_eq_first_iff⟩

namespace FormatSample

def session : Session := .within .latest []

def mixed : List Expr := [.str "b", .infixed (.int 2) .mul (.int 3)]

def callee : Operand := .global "printf" (.pointer (.function .i32 [.bytes] true))

end FormatSample

open FormatSample

theorem printf_formats_last_string_mixed :
    Reachable .latest session ∧ stringsOf mixed = ["b"] ∧
    ∃ r t s₁ s₂ vs k₁ k₂ k₃ k₄,
      (Gen.value .latest (.call (.ident "printf") (.str "a %s %i" :: mixed))).run session =
        (.ok r, t) ∧
      (Gen.values .latest mixed).run s₁ = (.ok vs, s₂) ∧
      Emitted mainEntry s₂ (printfCode (stringOperand 1 "a %s %i") (stringOperand 2 "b") callee
        (vs.map Typed.value) k₁ k₂ k₃ k₄) t := by
  have hok : ((Gen.value .latest (.call (.ident "printf") (.str "a %s %i" :: mixed))).run
      session).1.isOk = true := by
    decide +kernel
  have hreach : Reachable .latest session := Session.within_reachable _ _
  have hcounter : session.counter = 0 := by decide +kernel
  have hplace : session.place = some mainEntry := by decide +kernel
  have hcallee : session.scopes.find? Gen.printfName = some ⟨callee, .i32⟩ := by decide +kernel
  refine ⟨hreach, rfl, ?_⟩
  rcases hrun : (Gen.value .latest (.call (.ident "printf") (.str "a %s %i" :: mixed))).run
    session with ⟨r, t⟩
  rw [hrun] at hok
  cases r with
  | error f => cases hok
  | ok r =>
    obtain ⟨first, s₁, vs, s₂, b, p, k₁, k₂, k₃, k₄, rfl, -, hvs, hb, hp, hcode, -, -⟩ :=
      printf_formats_last_string (Edition.latest_has _) hreach hrun
    obtain rfl := Option.some.inj (hcallee.symm.trans hb)
    obtain rfl := Option.some.inj (hplace.symm.trans hp)
    rw [hcounter] at hcode
    exact ⟨r, t, s₁, s₂, vs, k₁, k₂, k₃, k₄, rfl, hvs, hcode⟩

/-- With a string behind it, a format goes unused: the call formats `b`. -/
theorem printf_loses_format :
    ((Gen.value .latest (.call (.ident "printf") [.str "a %s", .str "b"])).run session).1.isOk
      = true ∧
    ((Gen.value .latest (.call (.ident "printf") [.str "a %s", .str "b"])).run
      session).2.assembly.code? mainEntry =
      some (printfCode (stringOperand 1 "a %s") (stringOperand 2 "b") callee
        [some (stringOperand 2 "b")] ".2" ".3" ".4" ".5") ∧
    stringOperand 2 "b" ≠ stringOperand 1 "a %s" := by
  decide +kernel

end LimeLang
