import LimeLang.Proofs.IntegerPrograms

/-! Running code, up to fuel. More fuel never changes an answer, so code that leads to other code
gives the same answers; what it takes in fuel is only bounded from below. -/

namespace LimeLang

open Code

namespace Code

namespace Outcome

variable {α β : Type}

/-- The same answer, where there is one already. -/
def Below (x y : Outcome α) : Prop := x = .outOfFuel ∨ x = y

theorem Below.refl (x : Outcome α) : x.Below x := .inr rfl

theorem Below.trans {x y z : Outcome α} (h : x.Below y) (h' : y.Below z) : x.Below z := by
  rcases h with h | rfl
  · exact .inl h
  · exact h'

theorem Below.eq {x y : Outcome α} (h : x.Below y) (hx : x ≠ .outOfFuel) : y = x :=
  (h.resolve_left hx).symm

theorem Below.outOfFuel {x y : Outcome α} (h : x.Below y) (hy : y = .outOfFuel) :
    x = .outOfFuel := by
  rcases h with h | rfl
  · exact h
  · exact hy

theorem Below.bind {x y : Outcome α} {f g : α → Outcome β} (h : x.Below y)
    (hf : ∀ a, (f a).Below (g a)) : (x.bind f).Below (y.bind g) := by
  rcases h with rfl | rfl
  · exact .inl rfl
  · cases x with
    | done a => exact hf a
    | stuck => exact .refl _
    | outOfFuel => exact .refl _

end Outcome

def Op.isStraight : Op → Bool
  | .binary .. | .icmp .. | .fcmp .. | .sitofp .. | .bitcast .. | .alloca _ | .load _ | .store .. =>
  true
  | _ => false

namespace Assembly

variable {a : Assembly} {r : Routine} {n : Nat} {name : String} {is : List Instr} {f : Frame}
  {out : List UInt8}

theorem run_zero : a.run r 0 is f out = .outOfFuel := by
  cases is <;> rfl

theorem run_straight {i : Instr} (h : i.op.isStraight = true) : a.run r (n + 1) (i :: is) f out =
    match f.step? a i with
    | some f => a.run r n is f out
    | none => .stuck := by
  obtain ⟨name, op⟩ := i
  cases op <;> simp [Op.isStraight] at h <;> rfl

theorem run_br {t : String} {b : Block} (hb : r.block? t = some b) :
    a.run r (n + 1) (⟨name, .br t⟩ :: is) f out = a.run r n b.instrs f out := by
  simp [run, hb]

theorem run_condBr {c : Operand} {t e : String} {x : Value} {holds : Bool} {b : Block}
    (hc : f.value? c = some x) (hx : x.truth? = some holds)
    (hb : r.block? (if holds then t else e) = some b) :
    a.run r (n + 1) (⟨name, .condBr (some c) t e⟩ :: is) f out = a.run r n b.instrs f out := by
  simp [run, hc, hx, hb]

theorem run_ret {v : Operand} {x : Value} (hv : f.value? v = some x) :
    a.run r (n + 1) (⟨name, .ret (some v)⟩ :: is) f out = .done (x, out) := by
  simp [run, hv]

theorem run_call {callee : String} {t : Ty} {args : List (Option Operand)} {xs : List Value}
    {r' : Routine} {entry : Block} {bs : List Block} (hr : a.routine? callee = some r')
    (hb : r'.blocks = entry :: bs) (hargs : f.args? args = some xs) :
    a.run r (n + 1) (⟨name, .call (.global callee t) args⟩ :: is) f out =
      (a.run r' n entry.instrs (r'.frame xs) out).bind fun y =>
        a.run r n is (f.setValue name y.1) y.2 := by
  simp only [run, hr, hargs, hb]
  cases a.run r' n entry.instrs (r'.frame xs) out <;> rfl

theorem run_call_below {callee : String} {t : Ty} {args : List (Option Operand)}
    (ih : ∀ (r : Routine) (is : List Instr) (f : Frame) (out : List UInt8),
      (a.run r n is f out).Below (a.run r (n + 1) is f out)) :
    (a.run r (n + 1) (⟨name, .call (.global callee t) args⟩ :: is) f out).Below
      (a.run r (n + 2) (⟨name, .call (.global callee t) args⟩ :: is) f out) := by
  cases hr : a.routine? callee with
  | none =>
    simp only [run, hr]
    exact .refl _
  | some r' =>
    cases hargs : f.args? args with
    | none =>
      simp only [run, hr, hargs]
      exact .refl _
    | some xs =>
      cases hb : r'.blocks with
      | cons entry bs =>
        rw [run_call hr hb hargs, run_call hr hb hargs]
        exact (ih r' entry.instrs (r'.frame xs) out).bind fun y => ih r is _ _
      | nil =>
        simp only [run, hr, hargs, hb]
        cases xs with
        | nil => exact .refl _
        | cons x xs =>
          dsimp only
          cases (a.bytesAt? x).bind (a.printf · xs) with
          | none => exact .refl _
          | some text => exact ih r is _ _

theorem run_below (a : Assembly) (n : Nat) : ∀ (r : Routine) (is : List Instr) (f : Frame)
    (out : List UInt8), (a.run r n is f out).Below (a.run r (n + 1) is f out) := by
  induction n with
  | zero => exact fun r is f out => .inl run_zero
  | succ n ih =>
    intro r is f out
    cases is with
    | nil => exact .refl _
    | cons i is =>
      by_cases hs : i.op.isStraight = true
      · rw [run_straight hs, run_straight hs]
        cases f.step? a i with
        | none => exact .refl _
        | some f => exact ih r is f out
      · obtain ⟨name, op⟩ := i
        cases op with
        | br t =>
          simp only [run]
          cases r.block? t with
          | none => exact .refl _
          | some b => exact ih r b.instrs f out
        | condBr c t e =>
          cases c with
          | none => exact .refl _
          | some c =>
            simp only [run]
            cases (f.value? c).bind Value.truth? with
            | none => exact .refl _
            | some holds =>
              cases hb : r.block? (if holds = true then t else e) with
              | none => simpa only [hb] using .refl _
              | some b => simpa only [hb] using ih r b.instrs f out
        | ret v =>
          cases v with
          | none => exact .refl _
          | some v => exact .refl _
        | call callee args =>
          cases callee with
          | global callee t => exact run_call_below ih
          | _ => exact .refl _
        | _ => simp [Op.isStraight] at hs

theorem run_mono {m : Nat} (h : m ≤ n) : (a.run r m is f out).Below (a.run r n is f out) := by
  induction h with
  | refl => exact .refl _
  | step _ ih => exact ih.trans (run_below _ _ _ _ _ _)

end Assembly

end Code

/-- A moment of a call: its routine, what is left of the current block, and its frame. -/
structure Config where
  routine : Routine
  instrs : List Instr
  frame : Frame

section Machine

variable (a : Assembly) (out : List UInt8)

def Config.run (n : Nat) (c : Config) : Outcome (Value × List UInt8) :=
  a.run c.routine n c.instrs c.frame out

def Config.Ends (c : Config) (o : Outcome (Value × List UInt8)) : Prop := ∃ n, c.run a out n = o

/-- The second moment comes after the first one: both end alike, the second one not later. -/
structure Config.Leads (c c' : Config) : Prop where
  below : ∀ n, (c.run a out n).Below (c'.run a out n)
  reaches : ∀ n, ∃ m, (c'.run a out n).Below (c.run a out m)

def Config.Steps (c c' : Config) : Prop := ∀ n, c.run a out (n + 1) = c'.run a out n

/-- Code goes the way that a meaning says: on to a moment that fits the result, or not on at all.
Where the meaning needs more than its fuel, the code needs more than `n`. -/
def Follows {α : Type} (n : Nat) (o : Outcome α) (c : Config) (P : α → Config → Prop) : Prop :=
  match o with
  | .done x => ∃ c', c.Leads a out c' ∧ P x c'
  | .stuck => c.Ends a out .stuck
  | .outOfFuel => c.run a out n = .outOfFuel

end Machine

section

variable {a : Assembly} {out : List UInt8} {c c' c'' : Config} {m n : Nat}

theorem Config.run_below (c : Config) (n : Nat) : (c.run a out n).Below (c.run a out (n + 1)) :=
  Assembly.run_below _ _ _ _ _ _

theorem Config.run_mono (c : Config) (h : m ≤ n) : (c.run a out m).Below (c.run a out n) :=
  Assembly.run_mono h

theorem Config.Ends.unique {o o' : Outcome (Value × List UInt8)} (h : c.Ends a out o)
    (h' : c.Ends a out o') (ho : o ≠ .outOfFuel) (ho' : o' ≠ .outOfFuel) : o = o' := by
  obtain ⟨m, rfl⟩ := h
  obtain ⟨n, rfl⟩ := h'
  rcases Nat.le_total m n with hmn | hmn
  · exact ((c.run_mono hmn).eq ho).symm
  · exact (c.run_mono hmn).eq ho'

namespace Config.Leads

theorem refl (c : Config) : c.Leads a out c := ⟨fun _ => .refl _, fun n => ⟨n, .refl _⟩⟩

theorem trans (h : c.Leads a out c') (h' : c'.Leads a out c'') : c.Leads a out c'' where
  below := fun n => (h.below n).trans (h'.below n)
  reaches := by
    intro n
    obtain ⟨m, hm⟩ := h'.reaches n
    obtain ⟨k, hk⟩ := h.reaches m
    exact ⟨k, hm.trans hk⟩

theorem ends (h : c.Leads a out c') {o : Outcome (Value × List UInt8)} (ho : o ≠ .outOfFuel)
    (h' : c'.Ends a out o) : c.Ends a out o := by
  obtain ⟨n, rfl⟩ := h'
  obtain ⟨m, hm⟩ := h.reaches n
  exact ⟨m, hm.eq ho⟩

end Config.Leads

theorem Config.Steps.leads (h : c.Steps a out c') : c.Leads a out c' where
  below := fun n => h n ▸ c.run_below n
  reaches := fun n => ⟨n + 1, h n ▸ .refl _⟩

namespace Follows

variable {α β : Type} {o : Outcome α} {P : α → Config → Prop}

theorem done {x : α} (h : P x c) : Follows a out n (.done x) c P := ⟨c, .refl c, h⟩

theorem le (h : Follows a out n o c P) (hm : m ≤ n) : Follows a out m o c P := by
  cases o with
  | done x => exact h
  | stuck => exact h
  | outOfFuel => exact (c.run_mono hm).outOfFuel h

theorem leads (hc : c.Leads a out c') (h : Follows a out n o c' P) : Follows a out n o c P := by
  cases o with
  | done x =>
    obtain ⟨d, hd, hP⟩ := h
    exact ⟨d, hc.trans hd, hP⟩
  | stuck => exact hc.ends (by simp) h
  | outOfFuel => exact (hc.below n).outOfFuel h

theorem step (hc : c.Steps a out c') (h : Follows a out n o c' P) :
    Follows a out (n + 1) o c P := by
  cases o with
  | done x => exact leads hc.leads h
  | stuck => exact leads hc.leads h
  | outOfFuel => exact (hc n).trans h

theorem bind {f : α → Outcome β} {Q : β → Config → Prop} (h : Follows a out n o c P)
    (hf : ∀ x d, P x d → Follows a out n (f x) d Q) : Follows a out n (o >>= f) c Q := by
  cases o with
  | done x =>
    obtain ⟨d, hd, hP⟩ := h
    exact leads hd (hf x d hP)
  | stuck => exact h
  | outOfFuel => exact h

theorem mono {Q : α → Config → Prop} (h : Follows a out n o c P) (hQ : ∀ x d, P x d → Q x d) :
    Follows a out n o c Q := by
  cases o with
  | done x =>
    obtain ⟨d, hd, hP⟩ := h
    exact ⟨d, hd, hQ x d hP⟩
  | stuck => exact h
  | outOfFuel => exact h

section Instructions

variable {r : Routine} {i : Instr} {name : String} {is : List Instr} {f g : Frame}

theorem straight (hi : i.op.isStraight = true) (hf : f.step? a i = some g)
    (h : Follows a out n o ⟨r, is, g⟩ P) : Follows a out n o ⟨r, i :: is, f⟩ P := by
  refine leads (Config.Steps.leads fun k => ?_) h
  simp only [Config.run]
  rw [Assembly.run_straight hi, hf]

theorem computed {x : Option Word} (hi : i.op.isStraight = true)
    (hf : f.step? a i = x.map fun w => f.setValue i.name (.int 32 w)) :
    Follows a out n (.ofOption x) ⟨r, i :: is, f⟩ fun w d =>
      d = ⟨r, is, f.setValue i.name (.int 32 w)⟩ := by
  cases x with
  | some w => exact straight hi hf (done rfl)
  | none =>
    refine ⟨1, ?_⟩
    simp only [Config.run]
    rw [Assembly.run_straight hi, hf]
    rfl

/-- A call gives what the callee ends with. Its code runs after the call itself. -/
theorem called {callee : String} {t : Ty} {args : List (Option Operand)} {xs : List Value}
    {r' : Routine} {entry : Block} {bs : List Block} {o : Outcome Word}
    (hr : a.routine? callee = some r') (hb : r'.blocks = entry :: bs)
      (hargs : f.args? args = some xs)
    (hdone : ∀ w, o = .done w →
      Config.Ends a out ⟨r', entry.instrs, r'.frame xs⟩ (.done (.int 32 w, out)))
    (hstuck : o = .stuck → Config.Ends a out ⟨r', entry.instrs, r'.frame xs⟩ .stuck)
    (hfuel : o = .outOfFuel → ∀ k < n,
      Config.run a out k ⟨r', entry.instrs, r'.frame xs⟩ = .outOfFuel) :
    Follows a out n o ⟨r, ⟨name, .call (.global callee t) args⟩ :: is, f⟩ fun w d =>
      d = ⟨r, is, f.setValue name (.int 32 w)⟩ := by
  have hrun : ∀ k, Config.run a out (k + 1) ⟨r, ⟨name, .call (.global callee t) args⟩ :: is, f⟩ =
      (Config.run a out k ⟨r', entry.instrs, r'.frame xs⟩).bind fun y =>
        a.run r k is (f.setValue name y.1) y.2 := fun k => Assembly.run_call hr hb hargs
  cases o with
  | done w =>
    obtain ⟨k, hk⟩ := hdone w rfl
    refine ⟨_, ⟨fun m => ?_, fun m => ⟨max k m + 1, ?_⟩⟩, rfl⟩
    · cases m with
      | zero => exact .inl Assembly.run_zero
      | succ m =>
        rw [hrun]
        by_cases hm : Config.run a out m ⟨r', entry.instrs, r'.frame xs⟩ = .outOfFuel
        · rw [hm]
          exact .inl rfl
        · have heq := Config.Ends.unique ⟨m, rfl⟩ ⟨k, hk⟩ hm (by simp)
          rw [heq]
          exact Config.run_below ⟨r, is, f.setValue name (.int 32 w)⟩ m
    · rw [hrun, ((Config.run_mono _ (Nat.le_max_left k m)).eq (by rw [hk]; simp)), hk]
      exact Config.run_mono ⟨r, is, f.setValue name (.int 32 w)⟩ (Nat.le_max_right k m)
  | stuck =>
    obtain ⟨k, hk⟩ := hstuck rfl
    exact ⟨k + 1, by rw [hrun, hk]; rfl⟩
  | outOfFuel =>
    cases n with
    | zero => exact Assembly.run_zero
    | succ n =>
      refine (hrun n).trans ?_
      rw [hfuel rfl n (Nat.lt_succ_self n)]
      rfl

end Instructions

end Follows

namespace Config.Steps

variable {r : Routine} {name : String} {is : List Instr} {f : Frame}

theorem br {t : String} {b : Block} (hb : r.block? t = some b) :
    Config.Steps a out ⟨r, ⟨name, .br t⟩ :: is, f⟩ ⟨r, b.instrs, f⟩ :=
  fun _ => Assembly.run_br hb

theorem condBr {x : Operand} {t e : String} {v : Value} {holds : Bool} {b : Block}
    (hx : f.value? x = some v) (hv : v.truth? = some holds)
    (hb : r.block? (if holds then t else e) = some b) :
    Config.Steps a out ⟨r, ⟨name, .condBr (some x) t e⟩ :: is, f⟩ ⟨r, b.instrs, f⟩ :=
  fun _ => Assembly.run_condBr hx hv hb

end Config.Steps

theorem Config.ends_ret {r : Routine} {name : String} {is : List Instr} {f : Frame} {x : Operand}
    {v : Value} (hx : f.value? x = some v) :
    Config.Ends a out ⟨r, ⟨name, .ret (some x)⟩ :: is, f⟩ (.done (v, out)) :=
  ⟨1, Assembly.run_ret hx⟩

end

end LimeLang
