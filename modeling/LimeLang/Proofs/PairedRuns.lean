import LimeLang.Proofs.CodePairing
import LimeLang.Proofs.Machine

/-! Code that belongs together runs alike: calls of the same routine end with the same result and
the same output, though a detour takes a step more. -/

namespace LimeLang

open Code

/-- What executing the first instruction comes to. -/
inductive Move
  | stuck
  | done (x : Value)
  | goto (text : List UInt8) (is : List Instr) (f : Code.Frame)
  | call (r : Routine) (is : List Instr) (f : Code.Frame)

def Move.ofBlock (f : Code.Frame) : Option Block → Move
  | some b => .goto [] b.instrs f
  | none => .stuck

def Move.ofFrame (is : List Instr) : Option Code.Frame → Move
  | some f => .goto [] is f
  | none => .stuck

def Move.ofText (name : String) (is : List Instr) (f : Code.Frame) : Option (List UInt8) → Move
  | some text => .goto text is (f.setValue name (.int 32 (BitVec.ofNat 32 text.length)))
  | none => .stuck

/-- A call of a routine without code prints. -/
def Code.Assembly.printed? (a : Assembly) : List Value → Option (List UInt8)
  | [] => none
  | format :: xs => (a.bytesAt? format).bind (a.printf · xs)

def Code.Assembly.callMove (a : Assembly) (name : String) (is : List Instr) (f : Code.Frame)
    (xs : List Value) (r : Routine) : Move :=
  match r.blocks with
  | entry :: _ => .call r entry.instrs (r.frame xs)
  | [] => .ofText name is f (a.printed? xs)

def Code.Assembly.move (a : Assembly) (r : Routine) (i : Instr) (is : List Instr) (f : Code.Frame) :
    Move :=
  match i.op with
  | .br t => .ofBlock f (r.block? t)
  | .condBr (some c) t e =>
    match (f.value? c).bind Value.truth? with
    | some holds => .ofBlock f (r.block? (if holds then t else e))
    | none => .stuck
  | .ret (some v) =>
    match f.value? v with
    | some x => .done x
    | none => .stuck
  | .call (.global name _) args =>
    match a.routine? name, f.args? args with
    | some callee, some xs => a.callMove i.name is f xs callee
    | _, _ => .stuck
  | _ => .ofFrame is (f.step? a i)

def Code.Assembly.resume (a : Assembly) (r : Routine) (n : Nat) (i : Instr) (is : List Instr)
    (f : Code.Frame) (out : List UInt8) : Move → Outcome (Value × List UInt8)
  | .stuck => .stuck
  | .done x => .done (x, out)
  | .goto text is' f' => a.run r n is' f' (text.reverse ++ out)
  | .call r' is' f' => (a.run r' n is' f' out).bind fun y =>
      a.run r n is (f.setValue i.name y.1) y.2

theorem Code.Assembly.run_move (a : Assembly) (r : Routine) (n : Nat) (i : Instr) (is : List Instr)
    (f : Code.Frame) (out : List UInt8) :
    a.run r (n + 1) (i :: is) f out = a.resume r n i is f out (a.move r i is f) := by
  obtain ⟨name, op⟩ := i
  cases op with
  | br t =>
    simp only [run, move]
    cases r.block? t <;> rfl
  | condBr c t e =>
    cases c with
    | none => rfl
    | some c =>
      simp only [run, move]
      cases (f.value? c).bind Value.truth? with
      | none => rfl
      | some holds =>
        dsimp only
        cases r.block? (if holds = true then t else e) <;> rfl
  | ret v =>
    cases v with
    | none => rfl
    | some v =>
      simp only [run, move]
      cases f.value? v <;> rfl
  | call callee args =>
    cases callee with
    | global callee t =>
      simp only [run, move]
      cases a.routine? callee with
      | none => rfl
      | some r' =>
        cases f.args? args with
        | none => rfl
        | some xs =>
          dsimp only [callMove]
          cases r'.blocks with
          | cons entry bs =>
            dsimp only [resume]
            cases a.run r' n entry.instrs (r'.frame xs) out <;> rfl
          | nil =>
            cases xs with
            | nil => rfl
            | cons x xs =>
              dsimp only [printed?]
              cases (a.bytesAt? x).bind (a.printf · xs) <;> rfl
    | _ => rfl
  | _ =>
    rw [run_straight rfl, move]
    cases f.step? a _ <;> rfl

structure Code.Frame.Mates (ρ : Pairing) (r : String) (f g : Code.Frame) : Prop where
  slots : f.slots = g.slots
  instrs : ∀ i j, ρ.instrs r i j → f.values.get? i.name = g.values.get? j.name
  params : ∀ n, ρ.params r n → f.values.get? n = g.values.get? n

namespace Code.Frame.Mates

variable {ρ : Pairing} {r : String} {f g : Code.Frame} {x y : Operand} {a b : Assembly}
  {i j : Instr}

theorem valueAs? (h : f.Mates ρ r g) (hxy : x.Mates ρ (some r) y) (t : Ty) :
    f.valueAs? t x = g.valueAs? t y := by
  cases hxy with
  | int | float | global => rfl
  | result t hr hij =>
    obtain rfl := Option.some.inj hr
    exact h.instrs _ _ hij

theorem value? (h : f.Mates ρ r g) (hxy : x.Mates ρ (some r) y) : f.value? x = g.value? y := by
  rw [Code.Frame.value?, Code.Frame.value?, hxy.ty_eq]
  exact h.valueAs? hxy _

theorem args? (h : f.Mates ρ r g) {xs ys : List (Option Operand)}
    (hxs : List.Forall₂ (ρ.MatesOpt (some r)) xs ys) : f.args? xs = g.args? ys := by
  induction hxs with
  | nil => rfl
  | cons hxy _ ih =>
    cases hxy with
    | none => rfl
    | some hxy => rw [Code.Frame.args?, Code.Frame.args?, h.value? hxy, ih]

theorem setValue (h : f.Mates ρ r g) (hfits : ρ.Fits a b) (hij : ρ.instrs r i j) (v : Value) :
    (f.setValue i.name v).Mates ρ r (g.setValue j.name v) where
  slots := h.slots
  instrs i' j' hij' := by
    have hnames := hfits.names r i i' j j' hij hij'
    simp only [Code.Frame.setValue]
    by_cases heq : i.name = i'.name
    · rw [← heq, ← hnames.mp heq, Values.get?_set_same, Values.get?_set_same]
    · rw [Values.get?_set_other _ heq, Values.get?_set_other _ (fun hj => heq (hnames.mpr hj))]
      exact h.instrs i' j' hij'
  params n hn := by
    obtain ⟨hi, hj⟩ := hfits.apart r n i j hn hij
    simp only [Code.Frame.setValue]
    rw [Values.get?_set_other _ hi, Values.get?_set_other _ hj]
    exact h.params n hn

theorem computed (h : f.Mates ρ r g) (hfits : ρ.Fits a b) (hij : ρ.instrs r i j)
    (v : Option Value) : Option.Rel (fun f g => f.Mates ρ r g) (do return f.setValue i.name (← v))
      (do return g.setValue j.name (← v)) := by
  cases v with
  | none => exact .none
  | some v => exact .some (h.setValue hfits hij v)

theorem combined (h : f.Mates ρ r g) (hfits : ρ.Fits a b) (hij : ρ.instrs r i j)
    (v w : Option Value) (op : Value → Value → Option Value) :
    Option.Rel (fun f g => f.Mates ρ r g) (do return f.setValue i.name (← op (← v) (← w)))
      (do return g.setValue j.name (← op (← v) (← w))) := by
  cases v with
  | none => exact .none
  | some v =>
    cases w with
    | none => exact .none
    | some w => exact h.computed hfits hij (op v w)

theorem alloca (h : f.Mates ρ r g) (hfits : ρ.Fits a b) (hij : ρ.instrs r i j) :
    Code.Frame.Mates ρ r ⟨f.values.set i.name (.slot f.slots.size), f.slots.push none⟩
      ⟨g.values.set j.name (.slot g.slots.size), g.slots.push none⟩ := by
  have hset := h.setValue hfits hij (.slot g.slots.size)
  rw [h.slots]
  exact ⟨rfl, hset.instrs, hset.params⟩

theorem storeSlot? (h : f.Mates ρ r g) (k : Nat) (v : Value) :
    Option.Rel (fun f g => f.Mates ρ r g) (f.storeSlot? k v) (g.storeSlot? k v) := by
  rw [Code.Frame.storeSlot?, Code.Frame.storeSlot?, h.slots]
  split_ifs
  · exact .some ⟨rfl, h.instrs, h.params⟩
  · exact .none

theorem stored (h : f.Mates ρ r g) {x x' y y' : Operand} (hx : f.value? x = g.value? x')
    (hy : f.value? y = g.value? y') (n m : String) :
    Option.Rel (fun f g => f.Mates ρ r g) (f.step? a ⟨n, .store x y⟩)
      (g.step? b ⟨m, .store x' y'⟩) := by
  simp only [Code.Frame.step?, hx, hy]
  cases g.value? x' with
  | none => exact .none
  | some v =>
    cases g.value? y' with
    | none => exact .none
    | some p =>
      cases p with
      | slot k => exact h.storeSlot? k v
      | _ => exact .none

end Code.Frame.Mates

namespace Pairing.Fits

variable {ρ : Pairing} {a b : Assembly} {r n : String} {f g : Code.Frame} {i j : Instr}

theorem bytesAt?_eq (h : ρ.Fits a b) (x : Value) : a.bytesAt? x = b.bytesAt? x := by
  cases x with
  | global n =>
    rw [Assembly.bytesAt?, Assembly.bytesAt?]
    rcases h.items n with ⟨ha, hb⟩ | ⟨c, ha, hb⟩ | ⟨ra, rb, ha, hb⟩
    · rw [ha, hb]
    · rw [ha, hb]
    · rw [ha, hb]
  | _ => rfl

theorem printf_eq (h : ρ.Fits a b) (bs : List UInt8) (xs : List Value) :
    a.printf bs xs = b.printf bs xs := by
  have hdirective : ∀ letter x, a.directive? letter x = b.directive? letter x := by
    intro letter x
    unfold Assembly.directive?
    rw [h.bytesAt?_eq]
  fun_induction Assembly.printf a bs xs with
  | case1 => rfl
  | case2 => rfl
  | case3 c d bs xs hc ih => rw [Assembly.printf, if_pos hc, ih]
  | case4 c d bs xs hc letter hletter ih =>
    rw [Assembly.printf, if_neg hc]
    simp only [letter] at hletter
    simp only [hletter, if_true, ih]
  | case5 c d bs hc letter hpercent hletter =>
    rw [Assembly.printf, if_neg hc]
    simp only [letter] at hpercent hletter
    simp only [hpercent, hletter, if_true, if_false]
  | case6 c d bs hc letter hpercent hletter x xs ih =>
    rw [Assembly.printf, if_neg hc]
    simp only [letter] at hpercent hletter
    simp only [hpercent, hletter, if_true, if_false, ← hdirective, ← ih, letter]
  | case7 c d bs xs hc letter hpercent hletter ih =>
    rw [Assembly.printf, if_neg hc]
    simp only [letter] at hpercent hletter
    simp only [hpercent, hletter, if_false, ih]
    rfl

theorem printed?_eq (h : ρ.Fits a b) (xs : List Value) : a.printed? xs = b.printed? xs := by
  cases xs with
  | nil => rfl
  | cons x xs =>
    rw [Assembly.printed?, Assembly.printed?, h.bytesAt?_eq]
    congr 1
    funext bs
    exact h.printf_eq bs xs

theorem step?_mates (h : ρ.Fits a b) (hfg : f.Mates ρ r g) (hij : ρ.instrs r i j) :
    Option.Rel (fun f g => f.Mates ρ r g) (f.step? a i) (g.step? b j) := by
  have hop := h.mates r i j hij
  obtain ⟨n, op⟩ := i
  obtain ⟨m, op'⟩ := j
  cases hop with
  | binary op hx hy =>
    simp only [Code.Frame.step?, hfg.value? hx, hfg.value? hy]
    exact hfg.combined h hij _ _ fun v w => v.binary op w
  | icmp rel hx hy =>
    cases hy with
    | none => exact .none
    | some hy =>
      simp only [Code.Frame.step?, hfg.value? hx, hx.ty_eq, hfg.valueAs? hy]
      exact hfg.combined h hij _ _ fun v w => v.icmp rel w
  | fcmp rel hx hy =>
    cases hy with
    | none => exact .none
    | some hy =>
      simp only [Code.Frame.step?, hfg.value? hx, hfg.value? hy]
      exact hfg.combined h hij _ _ fun v w => v.fcmp rel w
  | sitofp t hx =>
    simp only [Code.Frame.step?, hfg.value? hx]
    cases g.value? _ with
    | none => exact .none
    | some v => exact hfg.computed h hij v.toFloat
  | bitcast t hx =>
    simp only [Code.Frame.step?, hfg.value? hx]
    exact hfg.computed h hij _
  | alloca t => exact .some (hfg.alloca h hij)
  | load hx =>
    simp only [Code.Frame.step?, hfg.value? hx]
    cases g.value? _ with
    | none => exact .none
    | some v =>
      cases v with
      | slot k =>
        have hload : f.loadSlot? k = g.loadSlot? k := by rw [Code.Frame.loadSlot?, hfg.slots,
          Code.Frame.loadSlot?]
        dsimp only [Option.bind_eq_bind, Option.bind_some]
        rw [hload]
        exact hfg.computed h hij _
      | global name =>
        dsimp only [Option.bind_eq_bind, Option.bind_some]
        rcases h.items name with ⟨ha, hb⟩ | ⟨c, ha, hb⟩ | ⟨ra, rb, ha, hb⟩
        · rw [ha, hb]
          exact .none
        · rw [ha, hb]
          split
          · exact .some (hfg.setValue h hij _)
          · exact .none
        · rw [ha, hb]
          exact .none
      | _ => exact .none
  | store hx hy => exact hfg.stored (hfg.value? hx) (hfg.value? hy) n m
  | storeParam t hn hy =>
    have hx : f.value? (.result _ t) = g.value? (.result _ t) := hfg.params _ hn
    exact hfg.stored hx (hfg.value? hy) n m
  | call | br | condBr | ret => exact .none

end Pairing.Fits

/-- Two moves to code that belongs together. The second one may lead to a block that only leads
on. -/
inductive Move.Mates (ρ : Pairing) (a b : Assembly) (r : String) : Move → Move → Prop
  | stuck : Mates ρ a b r .stuck .stuck
  | done (x : Value) : Mates ρ a b r (.done x) (.done x)
  | goto {is js f g} (text : List UInt8) : List.Forall₂ (ρ.instrs r) is js → f.Mates ρ r g →
      Mates ρ a b r (.goto text is f) (.goto text js g)
  | detour {is js f g n z ks} : List.Forall₂ (ρ.instrs r) is js → f.Mates ρ r g →
      b.code? ⟨r, z⟩ = some js → Mates ρ a b r (.goto [] is f) (.goto [] (⟨n, .br z⟩ :: ks) g)
  | call {m ra rb is js f g} : a.routine? m = some ra → b.routine? m = some rb →
      List.Forall₂ (ρ.instrs m) is js → f.Mates ρ m g →
      Mates ρ a b r (.call ra is f) (.call rb js g)

section Moves

variable {ρ : Pairing} {a b : Assembly} {r : String} {ra rb : Routine} {f g : Code.Frame}
  {i j : Instr} {is js : List Instr}

theorem Pairing.Fits.jump_mates (h : ρ.Fits a b) (hsettled : ρ.Settled b)
    (hra : a.routine? r = some ra)
    (hrb : b.routine? r = some rb) (hfg : f.Mates ρ r g) {x y : String} (hxy : ρ.Targets r x y) :
    Move.Mates ρ a b r (.ofBlock f (ra.block? x)) (.ofBlock g (rb.block? y)) := by
  rcases hxy with hxy | hxy
  · obtain ⟨is, js, his, hjs, hcode⟩ := h.code r x y hxy
    obtain ⟨bx, hbx, rfl⟩ := Assembly.block?_of_code hra his
    obtain ⟨by', hby, rfl⟩ := Assembly.block?_of_code hrb hjs
    rw [hbx, hby]
    exact .goto [] hcode hfg
  · obtain ⟨n, z, ks, hks, hxz⟩ := hsettled r x y hxy
    obtain ⟨is, js, his, hjs, hcode⟩ := h.code r x z hxz
    obtain ⟨bx, hbx, rfl⟩ := Assembly.block?_of_code hra his
    obtain ⟨by', hby, hinstrs⟩ := Assembly.block?_of_code hrb hks
    rw [hbx, hby, Move.ofBlock, Move.ofBlock, hinstrs]
    exact .detour hcode hfg hjs

theorem Code.Values.get?_zip_of_not_mem {names : List String} {n : String} (hn : n ∉ names)
    (xs : List Value) : Values.get? (names.zip xs) n = none := by
  induction names generalizing xs with
  | nil => rfl
  | cons m names ih =>
    cases xs with
    | nil => rfl
    | cons x xs =>
      have hne : ¬ m = n := fun heq => hn (heq ▸ List.mem_cons_self)
      rw [List.zip_cons_cons, Values.get?, if_neg hne]
      exact ih (fun hmem => hn (List.mem_cons_of_mem _ hmem)) xs

theorem Pairing.Fits.frame_mates (h : ρ.Fits a b) (hra : a.routine? r = some ra)
    (hparams : ra.params = rb.params)
    (xs : List Value) : (ra.frame xs).Mates ρ r (rb.frame xs) where
  slots := rfl
  instrs i j hij := by
    -- no instruction has the name of a parameter
    have hi : i.name ∉ ra.params.map Prod.fst := by
      intro hmem
      obtain ⟨p, hp, heq⟩ := List.mem_map.mp hmem
      exact (h.apart r p.1 i j (h.given r ra hra p hp) hij).1 heq.symm
    have hj : j.name ∉ rb.params.map Prod.fst := by
      intro hmem
      obtain ⟨p, hp, heq⟩ := List.mem_map.mp hmem
      exact (h.apart r p.1 i j (h.given r ra hra p (hparams ▸ hp)) hij).2 heq.symm
    rw [Routine.frame, Routine.frame, Values.get?_zip_of_not_mem hi, Values.get?_zip_of_not_mem hj]
  params n _ := by rw [Routine.frame, Routine.frame, hparams]

theorem Pairing.Fits.entries (h : ρ.Fits a b) (hra : a.routine? r = some ra)
    (hrb : b.routine? r = some rb) :
    ra.blocks = [] ∧ rb.blocks = [] ∨ ∃ x xs y ys, ra.blocks = x :: xs ∧ rb.blocks = y :: ys ∧
      List.Forall₂ (ρ.instrs r) x.instrs y.instrs := by
  obtain ⟨rb', hrb', -, -, -, hentry⟩ := h.routines hra
  obtain rfl := Option.some.inj (hrb.symm.trans hrb')
  cases hxs : ra.blocks with
  | nil =>
    cases hys : rb.blocks with
    | nil => exact .inl ⟨rfl, rfl⟩
    | cons y ys =>
      rw [hxs, hys] at hentry
      cases hentry
  | cons x xs =>
    cases hys : rb.blocks with
    | nil =>
      rw [hxs, hys] at hentry
      cases hentry
    | cons y ys =>
      rw [hxs, hys] at hentry
      cases hentry with
      | some hxy =>
        obtain ⟨is, js, his, hjs, hcode⟩ := h.code r _ _ hxy
        rw [Assembly.code?, hra, Option.bind_some, Routine.block?, hxs,
          List.find?_cons_of_pos (by simp)] at his
        rw [Assembly.code?, hrb, Option.bind_some, Routine.block?, hys,
          List.find?_cons_of_pos (by simp)] at hjs
        obtain rfl := Option.some.inj his
        obtain rfl := Option.some.inj hjs
        exact .inr ⟨x, xs, y, ys, rfl, rfl, hcode⟩

theorem Move.Mates.ofText {is js : List Instr} (h : ρ.Fits a b) (hij : ρ.instrs r i j)
    (hcode : List.Forall₂ (ρ.instrs r) is js) (hfg : f.Mates ρ r g) (text : Option (List UInt8)) :
    Move.Mates ρ a b r (.ofText i.name is f text) (.ofText j.name js g text) := by
  cases text with
  | none => exact .stuck
  | some text => exact .goto text hcode (hfg.setValue h hij _)

theorem Move.Mates.ofFrame {f g : Option Code.Frame} (hcode : List.Forall₂ (ρ.instrs r) is js)
    (hfg : Option.Rel (fun f g => f.Mates ρ r g) f g) :
      Move.Mates ρ a b r (.ofFrame is f) (.ofFrame js g) := by
  cases hfg with
  | none => exact .stuck
  | some hfg => exact .goto [] hcode hfg

theorem Pairing.Fits.move_mates (h : ρ.Fits a b) (hsettled : ρ.Settled b)
    (hra : a.routine? r = some ra)
    (hrb : b.routine? r = some rb) (hfg : f.Mates ρ r g) (hij : ρ.instrs r i j)
    (hcode : List.Forall₂ (ρ.instrs r) is js) :
    Move.Mates ρ a b r (a.move ra i is f) (b.move rb j js g) := by
  have hop := h.mates r i j hij
  have hstep := h.step?_mates hfg hij
  obtain ⟨n, op⟩ := i
  obtain ⟨m, op'⟩ := j
  cases hop with
  | br hx => exact h.jump_mates hsettled hra hrb hfg hx
  | condBr hc hx hy =>
    cases hc with
    | none => exact .ofFrame hcode hstep
    | some hc =>
      simp only [Assembly.move, hfg.value? hc]
      cases (g.value? _).bind Value.truth? with
      | none => exact .stuck
      | some holds =>
        cases holds with
        | true => exact h.jump_mates hsettled hra hrb hfg hx
        | false => exact h.jump_mates hsettled hra hrb hfg hy
  | ret hv =>
    cases hv with
    | none => exact .ofFrame hcode hstep
    | some hv =>
      simp only [Assembly.move, hfg.value? hv]
      cases g.value? _ with
      | none => exact .stuck
      | some x => exact .done x
  | call hf hxs =>
    cases hf with
    | global name t =>
      simp only [Assembly.move, hfg.args? hxs]
      cases hcallee : a.routine? name with
      | none =>
        rw [h.routine?_none hcallee]
        exact .stuck
      | some ra' =>
        obtain ⟨rb', hrb', -, hparams, -, -⟩ := h.routines hcallee
        rw [hrb']
        cases g.args? _ with
        | none => exact .stuck
        | some xs =>
          dsimp only [Assembly.callMove]
          rcases h.entries hcallee hrb' with ⟨hxs, hys⟩ | ⟨x, _, y, _, hxs, hys, hentry⟩
          · rw [hxs, hys, h.printed?_eq]
            exact Move.Mates.ofText (i := ⟨n, _⟩) (j := ⟨m, _⟩) h hij hcode hfg _
          · rw [hxs, hys]
            exact .call hcallee hrb' hentry (h.frame_mates hcallee hparams xs)
    | int | float | result => exact .ofFrame hcode hstep
  | _ => exact .ofFrame hcode hstep

end Moves

theorem Code.Assembly.call_eq_bind {a : Assembly} {n : Nat} {name : String} {args : List Value}
    {r : Routine}
    {entry : Block} {bs : List Block} (hr : a.routine? name = some r)
      (hbs : r.blocks = entry :: bs) :
    a.call n name args =
      (a.run r n entry.instrs (r.frame args) []).bind fun y => .done (y.1, y.2.reverse) := by
  simp only [call, hr, hbs]
  cases a.run r n entry.instrs (r.frame args) [] <;> rfl

namespace Pairing.Fits

variable {ρ : Pairing} {a b : Assembly}

/-- The second side does what the first side does, in at most twice as many steps. -/
theorem run_below (h : ρ.Fits a b) (hsettled : ρ.Settled b) (n : Nat) :
    ∀ {r : String} {ra rb : Routine} {is js : List Instr} {f g : Code.Frame} (out : List UInt8),
      a.routine? r = some ra → b.routine? r = some rb → List.Forall₂ (ρ.instrs r) is js →
      f.Mates ρ r g → (a.run ra n is f out).Below (b.run rb (2 * n) js g out) := by
  induction n with
  | zero => exact fun _ _ _ _ _ => .inl Assembly.run_zero
  | succ n ih =>
    intro r ra rb is js f g out hra hrb hcode hfg
    cases hcode with
    | nil => exact .refl _
    | cons hij hcode =>
      have hmove := h.move_mates hsettled hra hrb hfg hij hcode
      rw [show 2 * (n + 1) = 2 * n + 1 + 1 from rfl, Assembly.run_move, Assembly.run_move]
      generalize a.move ra _ _ f = move at hmove
      generalize b.move rb _ _ g = move' at hmove
      cases hmove with
      | stuck => exact .refl _
      | done x => exact .refl _
      | goto text hcode hfg =>
        exact (ih _ hra hrb hcode hfg).trans (Assembly.run_mono (Nat.le_succ _))
      | detour hcode hfg hz =>
        obtain ⟨b', hb', rfl⟩ := Assembly.block?_of_code hrb hz
        rw [Assembly.resume, Assembly.resume, Assembly.run_br hb']
        exact ih _ hra hrb hcode hfg
      | call hra' hrb' hentry hframe =>
        refine Outcome.Below.bind ((ih out hra' hrb' hentry hframe).trans
          (Assembly.run_mono (Nat.le_succ _))) ?_
        exact fun y => (ih y.2 hra hrb hcode (hfg.setValue h hij y.1)).trans
          (Assembly.run_mono (Nat.le_succ _))

/-- The first side does what the second side does, in at most as many steps. -/
theorem run_above (h : ρ.Fits a b) (hsettled : ρ.Settled b) (n : Nat) :
    ∀ {r : String} {ra rb : Routine} {is js : List Instr} {f g : Code.Frame} (out : List UInt8),
      a.routine? r = some ra → b.routine? r = some rb → List.Forall₂ (ρ.instrs r) is js →
      f.Mates ρ r g → (b.run rb n js g out).Below (a.run ra n is f out) := by
  induction n with
  | zero => exact fun _ _ _ _ _ => .inl Assembly.run_zero
  | succ n ih =>
    intro r ra rb is js f g out hra hrb hcode hfg
    cases hcode with
    | nil => exact .refl _
    | cons hij hcode =>
      have hmove := h.move_mates hsettled hra hrb hfg hij hcode
      rw [Assembly.run_move, Assembly.run_move]
      generalize a.move ra _ _ f = move at hmove
      generalize b.move rb _ _ g = move' at hmove
      cases hmove with
      | stuck => exact .refl _
      | done x => exact .refl _
      | goto text hcode hfg => exact ih _ hra hrb hcode hfg
      | detour hcode hfg hz =>
        obtain ⟨b', hb', rfl⟩ := Assembly.block?_of_code hrb hz
        refine (Assembly.run_mono (Nat.le_succ n)).trans ?_
        rw [Assembly.run_br hb']
        exact ih _ hra hrb hcode hfg
      | call hra' hrb' hentry hframe =>
        exact (ih out hra' hrb' hentry hframe).bind fun y =>
          ih y.2 hra hrb hcode (hfg.setValue h hij y.1)

/-- Calls end alike on both sides, given the fuel that the detours take. -/
theorem call_below (h : ρ.Fits a b) (hsettled : ρ.Settled b) (n : Nat) (name : String)
    (args : List Value) :
    (a.call n name args).Below (b.call (2 * n) name args) ∧
      (b.call n name args).Below (a.call n name args) := by
  cases hra : a.routine? name with
  | none =>
    simp only [Assembly.call, hra, h.routine?_none hra]
    exact ⟨.refl _, .refl _⟩
  | some ra =>
    obtain ⟨rb, hrb, -, hparams, -, -⟩ := h.routines hra
    rcases h.entries hra hrb with ⟨hxs, hys⟩ | ⟨x, _, y, _, hxs, hys, hentry⟩
    · simp only [Assembly.call, hra, hrb, hxs, hys]
      exact ⟨.refl _, .refl _⟩
    · have hframe := h.frame_mates hra hparams args
      rw [Assembly.call_eq_bind hra hxs, Assembly.call_eq_bind hrb hys,
        Assembly.call_eq_bind hrb hys]
      exact ⟨(h.run_below hsettled n [] hra hrb hentry hframe).bind fun _ => .refl _,
        (h.run_above hsettled n [] hra hrb hentry hframe).bind fun _ => .refl _⟩

theorem call_ends (h : ρ.Fits a b) (hsettled : ρ.Settled b) (name : String) (args : List Value)
    {o : Outcome (Value × List UInt8)} (ho : o ≠ .outOfFuel) :
    (∃ n, a.call n name args = o) ↔ ∃ n, b.call n name args = o := by
  constructor
  · rintro ⟨n, rfl⟩
    exact ⟨2 * n, (h.call_below hsettled n name args).1.eq ho⟩
  · rintro ⟨n, rfl⟩
    exact ⟨n, (h.call_below hsettled n name args).2.eq ho⟩

end Pairing.Fits

end LimeLang
