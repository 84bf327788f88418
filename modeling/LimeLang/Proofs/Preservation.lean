import LimeLang.Proofs.Simulation
import LimeLang.Proofs.StatementLowering

/-! Compiling keeps the meaning of programs on integers: their functions, called in the generated
assembly, give what the functions of the program give, and fail or go on forever when those do. -/

namespace LimeLang

open Code

variable {fs : Signatures} {name : String} {k : Nat} {xs ns : List String}

def Env.with : Env → List String → List String → Env
  | env, x :: xs, n :: ns => Env.with (Function.update env x (some n)) xs ns
  | env, _, _ => env

section Slots

variable {fs : Signatures} {env : Env} {p : Place} {s : Session}

theorem slots_gives {ps : List (String × Ty)} (hps : ∀ q ∈ ps, q.2 = .i32) (h : Writes fs env p s) :
    Gives (Gen.slots ps) s fun ptrs t => ∃ ns is, ptrs = ns.map slotOf ∧ ns.length = ps.length ∧
      Emitted p s is t ∧ (∀ n ∈ ns, ⟨n, .alloca .i32⟩ ∈ is) ∧
      Fits (fun name ty => (name, ty) ∈ ps) is ∧
      ∀ xs env, xs.length = ps.length → xs.Nodup → (∀ x ∈ xs, env x = none) →
        ParamCode xs (ps.map Prod.fst) env is (Env.with env xs ns) := by
  induction ps generalizing s with
  | nil =>
    refine .pure ⟨[], [], rfl, rfl, .refl h.sound, by simp, trivial, fun xs env hxs _ _ => ?_⟩
    rw [List.length_eq_zero_iff.mp hxs]
    exact .nil
  | cons q ps ih =>
    obtain ⟨name, ty⟩ := q
    obtain rfl : ty = .i32 := hps _ List.mem_cons_self
    refine slot_gives rfl h fun n m t ht => ?_
    refine .bind ((ih (fun r hr => hps r (List.mem_cons_of_mem _ hr)) (h.emitted ht)).mono ?_)
    rintro _ u ⟨ns, is, rfl, hlen, hu, halloca, hfits, hcode⟩
    refine .pure ⟨n :: ns, _, rfl, by simp [hlen], ht.trans hu, ?_, ?_, ?_⟩
    · intro k hk
      rcases List.mem_cons.mp hk with rfl | hk
      · simp
      · exact List.mem_append_right _ (halloca k hk)
    · have hslot : Fits (fun name' ty => (name', ty) ∈ (name, .i32) :: ps)
          ([] ++ [⟨n, .alloca .i32⟩, ⟨m, .store (.result name .i32) (slotOf n)⟩]) := by
        refine Fits.slot trivial rfl ?_
        rintro _ _ ⟨⟩
        exact .inl List.mem_cons_self
      exact hslot.append (hfits.mono fun _ _ hmem => .inl (List.mem_cons_of_mem _ hmem))
    · intro xs env hxs hnodup hfree
      cases xs with
      | nil => simp at hxs
      | cons x xs =>
        obtain ⟨hx, hnodup⟩ := List.nodup_cons.mp hnodup
        refine .cons (hfree x List.mem_cons_self)
          (hcode xs _ (by simpa using hxs) hnodup fun y hy => ?_)
        have hyx : y ≠ x := fun heq => hx (heq ▸ hy)
        rw [Function.update_of_ne hyx]
        exact hfree y (List.mem_cons_of_mem _ hy)

theorem Env.isSome_with (hlen : xs.length = ns.length) (env : Env) (y : String) :
    (Env.with env xs ns y).isSome = (xs.contains y || (env y).isSome) := by
  induction xs generalizing ns env with
  | nil => simp [Env.with]
  | cons x xs ih =>
    cases ns with
    | nil => simp at hlen
    | cons n ns =>
      rw [Env.with, ih (by simpa using hlen), List.contains_cons]
      by_cases hy : y = x
      · simp [hy]
      · have hyx : (y == x) = false := by simpa using hy
        rw [Function.update_of_ne hy, hyx, Bool.false_or]

theorem Env.with_eq_none (hlen : xs.length = ns.length) {y : String} (hy : y ∉ xs) :
    Env.with (fun _ => none) xs ns y = none := by
  have hh := Env.isSome_with hlen (fun _ => none) y
  simpa [hy] using hh

theorem Env.with_eq_some {env : Env} {y n : String} (hy : Env.with env xs ns y = some n) :
    env y = some n ∨ n ∈ ns := by
  induction xs generalizing ns env with
  | nil => exact .inl (by simpa [Env.with] using hy)
  | cons x xs ih =>
    cases ns with
    | nil => exact .inl hy
    | cons m ns =>
      rcases ih hy with hh | hh
      · by_cases hyx : y = x
        · subst hyx
          rw [Function.update_self] at hh
          exact .inr (Option.some.inj hh ▸ List.mem_cons_self)
        · rw [Function.update_of_ne hyx] at hh
          exact .inl hh
      · exact .inr (List.mem_cons_of_mem _ hh)

theorem defineParams_gives {outer : Chain Binding} (hxs : xs.length = k) (hns : ns.length = k)
    (hfree : ∀ x ∈ xs, isVariableName fs x = true) (hbound : Bound fs env s.scopes)
    (houter : ∃ table, s.scopes = table :: outer) :
    Gives (Gen.defineParams ((xs.map Literal.text).zip
      ((ns.map slotOf).zip (List.replicate k .i32)))) s
      fun _ t => ∃ c, t = { s with scopes := c } ∧ Bound fs (Env.with env xs ns) c ∧
        ∃ table, c = table :: outer := by
  induction xs generalizing ns k env s with
  | nil => exact .pure ⟨s.scopes, rfl, hbound, houter⟩
  | cons x xs ih =>
    subst hxs
    cases ns with
    | nil => simp at hns
    | cons n ns =>
      obtain ⟨table, htable⟩ := houter
      have hdefine := hbound.define (n := n) (hfree x List.mem_cons_self)
      have hshape : s.scopes.define (.text x) ⟨slotOf n, .i32⟩ =
          table.define (.text x) ⟨slotOf n, .i32⟩ :: outer := by
        rw [htable]
        rfl
      refine .bind_run rfl ((ih rfl (by simpa using hns)
        (fun y hy => hfree y (List.mem_cons_of_mem _ hy)) hdefine ⟨_, hshape⟩).mono ?_)
      rintro _ t ⟨c, rfl, hbound', houter'⟩
      exact ⟨c, rfl, hbound', houter'⟩

end Slots

theorem isVariableName_cons {name x : String} :
    isVariableName ((name, k) :: fs) x = true ↔ x ≠ name ∧ isVariableName fs x = true := by
  simp [isVariableName, and_assoc]

theorem Bound.declare {env : Env} {c : Chain Binding} (h : Bound fs env c)
    (hname : isVariableName fs name = true) (henv : env name = none) (k : Nat) :
    Bound ((name, k) :: fs) env (c.define (.text name) ⟨functionOperand name k, .i32⟩) := by
  obtain ⟨hnew, hbuiltin⟩ := isVariableName_iff.mp hname
  refine ⟨fun x n hx => ?_, fun f j hf => ?_, fun x hx hfree => ?_⟩
  · have hne : x ≠ name := by
      rintro rfl
      simp [henv] at hx
    rw [c.find?_define_text hne, h.vars x n hx]
  · rcases List.mem_cons.mp hf with heq | hf
    · obtain ⟨rfl, rfl⟩ := Prod.mk.inj heq
      refine ⟨?_, Chain.find?_define_same c (Literal.same_refl _) _⟩
      rintro rfl
      simp [builtinNames] at hbuiltin
    · have hne : f ≠ name := fun heq => hnew j (heq ▸ hf)
      rw [c.find?_define_text hne]
      exact h.functions f j hf
  · obtain ⟨hne, hfree⟩ := isVariableName_cons.mp hfree
    rw [c.find?_define_text hne, h.free x hx hfree]

def integerRoutine (name : String) (k : Nat) :
    Routine := .declare name .i32 (List.replicate k .i32) false

theorem integerRoutine_types (name : String) (k : Nat) :
    (integerRoutine name k).params.map Prod.snd = List.replicate k .i32 :=
    Routine.takeNames_types _ _

theorem integerRoutine_operand (name : String) (k : Nat) :
    (integerRoutine name k).operand = functionOperand name k := by
  rw [Routine.operand, Routine.ty, integerRoutine_types]
  rfl

theorem integerRoutine_params {q : String × Ty} (hq : q ∈ (integerRoutine name k).params) :
    q.2 = .i32 :=
  List.eq_of_mem_replicate (integerRoutine_types name k ▸ List.mem_map_of_mem hq)

theorem integerRoutine_used (name : String) (k : Nat) :
    (integerRoutine name k).params.map Prod.fst ⊆ (integerRoutine name k).names.used := by
  have hused : (integerRoutine name k).names.used =
      _ :: (Routine.takeNames .initial (List.replicate k .i32)).2.used := Names.register_used _ ""
  rw [hused, Routine.takeNames_used]
  intro n hn
  exact List.mem_cons_of_mem _ (List.mem_append_left _ (List.mem_reverse.mpr hn))

theorem labels_of_isInteger {params : List Param} (hparams : params.all Param.isInteger = true) :
    params.map Param.name = (params.map Param.label).map Literal.text := by
  rw [List.map_map]
  apply List.map_congr_left
  intro p hp
  have hh := List.all_eq_true.mp hparams p hp
  rw [Param.isInteger, Bool.and_eq_true] at hh
  exact of_decide_eq_true hh.1

theorem typeNamed_int (e : Edition) : Gen.typeNamed e (.text "int") = pure .i32 := rfl

theorem run_typesNamed {e : Edition} {params : List Param}
    (hparams : params.all Param.isInteger = true)
    (s : Session) : (Gen.typesNamed e (params.map Param.type)).run s =
      (.ok (List.replicate params.length .i32), s) := by
  induction params with
  | nil => rfl
  | cons p params ih =>
    rw [List.all_cons, Bool.and_eq_true] at hparams
    have htype : p.type = .text "int" := by
      have hh := hparams.1
      rw [Param.isInteger, Bool.and_eq_true] at hh
      exact of_decide_eq_true hh.2
    rw [List.map_cons, Gen.typesNamed, htype, typeNamed_int, pure_bind, Gen.run_bind, ih hparams.2]
    rfl

def entryOf (name : String) (k : Nat) : Place :=
  ⟨name, ((integerRoutine name k).addBlock (name ++ "_entry")).1⟩

def Session.entered (s : Session) (name : String) (k : Nat) : Session :=
  { s with
    assembly := (s.assembly.add (.routine (integerRoutine name k))).withBlock
      (integerRoutine name k) (name ++ "_entry")
    builder := s.builders
    builders := s.builders + 1
    place := some (entryOf name k) }

structure Entered (fs : Signatures) (name : String) (k : Nat) (s : Session) : Prop where
  ready : Ready fs (fun _ => none) [] (entryOf name k) (s.entered name k)
  empty : (s.entered name k).assembly.code? (entryOf name k) = some []
  interface : (s.entered name k).assembly.interface =
    s.assembly.interface ++ [(Item.routine (integerRoutine name k)).interface]
  grows : s.assembly.Grows (s.entered name k).assembly
  routine : (s.entered name k).assembly.routine? name =
    some ((integerRoutine name k).addBlock (name ++ "_entry")).2

theorem Session.entered_spec {s : Session} (hwf : WellFormed [] s.assembly)
    (haccepted : Accepted s.assembly) (hbound : Bound fs (fun _ => none) s.scopes)
    (hfree : s.assembly.item? name = none) : Entered fs name k s := by
  have hblocks : ∀ r, Item.routine (integerRoutine name k) = .routine r → r.blocks = [] := by
    rintro r ⟨⟩
    rfl
  have hwf₁ := hwf.add (i := .routine (integerRoutine name k)) hfree hblocks
  have hr := Assembly.routine?_add_self (r := integerRoutine name k) hfree
  have hwf₂ := hwf₁.withBlock (n := name ++ "_entry") hr
  have hgrows : s.assembly.Grows (s.entered name k).assembly :=
    (Assembly.Grows.add (i := .routine (integerRoutine name k)) hfree).trans
      (Assembly.Grows.setRoutine hr rfl (.addBlock _ _))
  have hcode : ∀ q, (s.entered name k).assembly.code? q =
      if q = entryOf name k then some [] else s.assembly.code? q := by
    intro q
    rw [← Assembly.code?_add (q := q) hfree hblocks]
    exact Assembly.code?_withBlock hwf₁.sound hr
  refine ⟨⟨rfl, hwf₂, ⟨hbound, by simp⟩, ?_, by simp⟩, ?_, ?_, hgrows, ?_⟩
  · refine haccepted.of_code hgrows hwf₂ fun q is hq => ?_
    rw [hcode] at hq
    split_ifs at hq
    · exact .inl (Option.some.inj hq).symm
    · exact .inr hq
  · rw [hcode, if_pos rfl]
  · rw [Session.entered, hwf₁.sound.interface_withBlock hr]
    simp [Assembly.interface, Assembly.add]
  · exact (Assembly.routine?_withBlock hr).trans (if_pos rfl)

theorem Entered.used {s : Session} (h : Entered fs name k s) :
    (integerRoutine name k).params.map Prod.fst ⊆ (s.entered name k).assembly.used name := by
  have hgrows := Routine.Grows.addBlock (integerRoutine name k) (name ++ "_entry")
  rw [Assembly.used, h.routine]
  exact List.Subset.trans (integerRoutine_used name k) hgrows.used

/-- Behind the slots of the parameters, in front of the body of a function. -/
structure Opened (fs : Signatures) (name : String) (params : List Param) (s : Session) (env : Env)
    (t : Session) : Prop where
  ready : Ready ((name, params.length) :: fs) env [] (entryOf name params.length) t
  vars : ∀ y, (params.map Param.label).contains y = (env y).isSome
  scopes : ∃ table, t.scopes = table :: s.scopes
  errors : t.errors = s.errors
  interface : t.assembly.interface =
    s.assembly.interface ++ [(Item.routine (integerRoutine name params.length)).interface]
  grows : s.assembly.Grows t.assembly
  code : ∀ (a : Assembly) (body : List Stmt), t.assembly.Grows a →
    body.getLast?.any Stmt.isReturn = true →
    BodyCode a name ((name, params.length) :: fs) env body (t.point (entryOf name params.length)) →
    ∃ r e bs is, FunctionCode a name ((name, params.length) :: fs) params body r e bs env is

section Opening

variable {e : Edition} {fs : Signatures} {s : Session} {name : String} {params : List Param}
  {k : Nat}

theorem slots_ready (h : Entered fs name k s) :
    Gives (Gen.slots (integerRoutine name k).params) (s.entered name k) fun ptrs t => ∃ ns is,
      ptrs = ns.map slotOf ∧ ns.length = k ∧ Emitted (entryOf name k) (s.entered name k) is t ∧
        WellFormed [entryOf name k] t.assembly ∧ Accepted t.assembly ∧
        (∀ n ∈ ns, ⟨n, .alloca .i32⟩ ∈ is) ∧
        ∀ xs, xs.length = k → xs.Nodup → ParamCode xs ((integerRoutine name k).params.map Prod.fst)
          (fun _ => none) is (Env.with (fun _ => none) xs ns) := by
  have hlen : (integerRoutine name k).params.length = k := by
    rw [← List.length_map (f := Prod.snd), integerRoutine_types, List.length_replicate]
  have hready := h.ready
  refine (hready.plain (plain.slots _)
    (slots_gives (fun _ => integerRoutine_params) hready.writes)).mono ?_
  rintro _ t ⟨⟨ns, is, rfl, hns, ht, halloca, hfits, hparams⟩, hwf⟩
  refine ⟨ns, is, rfl, hns.trans hlen, ht, hwf, ?_, halloca, fun xs hxs hnodup => ?_⟩
  · exact hready.accepts ht hwf hfits fun old n ty _ hmem => .inl ⟨_, h.routine, hmem⟩
  · exact hparams xs _ (hxs.trans hlen.symm) hnodup fun _ _ => rfl

theorem Entered.functionCode {fs' : Signatures} {is : List Instr} {env : Env} {t : Session}
    {a : Assembly} {body : List Stmt} (h : Entered fs name k s)
    (ht : Appended (entryOf name k) (s.entered name k).assembly is t.assembly)
    (hslots : ParamCode (params.map Param.label) ((integerRoutine name k).params.map Prod.fst)
      (fun _ => none) is env)
    (hlabels : (params.map Param.label).Nodup) (ha : t.assembly.Grows a)
    (hreturns : body.getLast?.any Stmt.isReturn = true)
    (hbody : BodyCode a name fs' env body (t.point (entryOf name k))) :
    ∃ r e bs, FunctionCode a name fs' params body r e bs env is := by
  obtain ⟨r, hr, hgrows⟩ := (ht.grows.trans ha) name _ h.routine
  obtain ⟨entry, bs, hblocks, hentry⟩ := hgrows.entry rfl
  have hparams : r.params = (integerRoutine name k).params := hgrows.params
  have hstart := Session.point_start h.empty
  have hpoint := h.ready.point_after ht
  have hsegment := (h.ready.straight ht).segment.grows ha
  rw [hstart] at hpoint hsegment
  have hnames := Routine.takeNames_nodup .initial (List.replicate k .i32)
  refine ⟨r, entry, bs, hr, hblocks, hparams ▸ hslots, ?_, hlabels, ?_, ?_, hreturns⟩
  · rw [hparams]
    refine List.nodup_append.mpr ⟨hnames.1, ht.taken.nodup, ?_⟩
    rintro n hn _ hm rfl
    exact ht.taken.fresh n hm (h.used hn)
  · rw [hentry]
    exact hsegment
  · rw [hentry]
    rw [hpoint] at hbody
    exact hbody

theorem openRoutine_enters {Q : Binding → Session →
    Prop} (hparams : params.all Param.isInteger = true) (hfree : s.assembly.item? name = none)
    (hrest : Gives (do
      let ptrs ← Gen.slots (integerRoutine name params.length).params
      Gen.enterScope
      Gen.defineParams ((params.map Param.name).zip (ptrs.zip (List.replicate params.length .i32)))
      let b : Binding := ⟨(integerRoutine name params.length).operand, .i32⟩
      Gen.define (.text name) b
      return b) (s.entered name params.length) Q) :
    Gives (Gen.openRoutine e name params (.text "int")) s Q := by
  refine .bind_run (run_typesNamed hparams s) (.bind_run rfl ?_)
  refine .bind_run (Gen.run_addItem (i := .routine (integerRoutine name params.length)) hfree) ?_
  have hr := Assembly.routine?_add_self (r := integerRoutine name params.length) hfree
  exact .bind_run (Gen.run_addBlockTo hr) (.bind_run rfl hrest)

theorem openRoutine_gives (hparams : params.all Param.isInteger = true)
    (hlabels : (params.map Param.label).Nodup)
    (hnames : ∀ x ∈ params.map Param.label, isVariableName ((name, params.length) :: fs) x = true)
    (hname : isVariableName fs name = true) (hbound : Bound fs (fun _ => none) s.scopes)
    (hfree : s.assembly.item? name = none) (h : Entered fs name params.length s) :
    Gives (Gen.openRoutine e name params (.text "int")) s fun b t =>
      b = ⟨functionOperand name params.length, .i32⟩ ∧ ∃ env, Opened fs name params s env t := by
  refine openRoutine_enters hparams hfree (.bind ((slots_ready h).mono ?_))
  rintro _ t ⟨ns, is, rfl, hns, ht, hwf, haccepted, halloca, hslots⟩
  have hlen : (params.map Param.label).length = params.length := List.length_map _
  have hscopes : t.scopes = s.scopes := ht.scopes
  have hbound₁ : Bound fs (fun _ => none) t.scopes.enter := by
    rw [hscopes]
    exact ⟨hbound.vars, hbound.functions, hbound.free⟩
  have henter : t.scopes.enter = [] :: s.scopes := by rw [hscopes]; rfl
  rw [labels_of_isInteger hparams]
  refine .bind_run rfl (.bind ((defineParams_gives (s := { t with scopes := t.scopes.enter }) hlen
    hns (fun x hx => (isVariableName_cons.mp (hnames x hx)).2) hbound₁ ⟨[], henter⟩).mono ?_))
  rintro _ _ ⟨c, rfl, hbound₂, table, rfl⟩
  have henv : ∀ y, (params.map Param.label).contains y =
      (Env.with (fun _ => none) (params.map Param.label) ns y).isSome := by
    intro y
    rw [Env.isSome_with (hlen.trans hns.symm), Option.isSome_none, Bool.or_false]
  have hnone : Env.with (fun _ => none) (params.map Param.label) ns name = none :=
    Env.with_eq_none (hlen.trans hns.symm) fun hmem => (isVariableName_cons.mp (hnames name hmem)).1
      rfl
  have hmem : ∀ y n, Env.with (fun _ => none) (params.map Param.label) ns y = some n →
      ⟨n, .alloca .i32⟩ ∈ is := fun y n hy =>
        halloca n ((Env.with_eq_some hy).resolve_left (by simp))
  have hcode := ht.appended.code
  rw [h.empty] at hcode
  have hdeclare := hbound₂.declare hname hnone params.length
  rw [← integerRoutine_operand] at hdeclare ⊢
  refine .bind_run rfl (.pure ⟨rfl, _, ⟨ht.place, hwf, ⟨hdeclare, ?_⟩, haccepted, ?_⟩, henv,
    ⟨_, rfl⟩, ?_, ?_, ?_, ?_⟩)
  · exact fun y n hy => ht.appended.taken.used (List.mem_map_of_mem (hmem y n hy))
  · exact fun y n hy => sees_of_alloca hwf hcode (hmem y n hy)
  · exact ht.advances.errors
  · exact ht.interface.trans h.interface
  · exact h.grows.trans ht.appended.grows
  · intro a body ha hreturns hbody
    obtain ⟨r, entry, bs, hfun⟩ := h.functionCode ht.appended (hslots _ hlen hlabels) hlabels ha
      hreturns hbody
    exact ⟨r, entry, bs, is, hfun⟩

end Opening

theorem isIntegerBody_returns {e : Edition} {vars : List String} {ss : List Stmt}
    (h : isIntegerBody e fs vars ss = true) : ss.getLast?.any Stmt.isReturn = true := by
  fun_induction isIntegerBody e fs vars ss with
  | case1 vars x v type ss ih =>
    rw [Bool.and_eq_true] at h
    cases ss with
    | nil => simp [isIntegerBody] at h
    | cons st ss =>
      rw [List.getLast?_cons_cons]
      exact ih h.2
  | case2 vars st _ =>
    rw [Bool.and_eq_true] at h
    exact h.1
  | case3 vars st ss _ hne ih =>
    rw [Bool.and_eq_true] at h
    cases ss with
    | nil => exact absurd rfl hne
    | cons st' ss =>
      rw [List.getLast?_cons_cons]
      exact ih h.2
  | case4 => simp at h

/-- The globals return integers or are constants, and no variable can have one of their names. -/
def Declares (fs : Signatures) (globals : List Item) : Prop :=
  ∀ i ∈ globals, isVariableName fs i.name = false ∧
    (∀ r, i = .routine r → r.result = .i32) ∧ ∀ c, i = .constant c → c.isAccepted = true

theorem Code.Item.interface_name (i : Item) : i.interface.name = i.name := by
  cases i with
  | constant c => rfl
  | routine r => rfl

theorem Declares.item?_eq_none {a : Assembly} (h : Declares fs a.interface)
    (hname : isVariableName fs name = true) : a.item? name = none := by
  rw [Assembly.item?, List.find?_eq_none]
  intro i hi heq
  have hh := (h i.interface (List.mem_map_of_mem hi)).1
  rw [i.interface_name, beq_iff_eq.mp heq, hname] at hh
  exact Bool.noConfusion hh

theorem Declares.snoc {globals : List Item} (h : Declares fs globals) :
    Declares ((name, k) :: fs) (globals ++ [(Item.routine (integerRoutine name k)).interface]) := by
  intro i hi
  rcases List.mem_append.mp hi with hi | hi
  · obtain ⟨hname, hkind⟩ := h i hi
    refine ⟨?_, hkind⟩
    rw [Bool.eq_false_iff] at hname ⊢
    exact fun hvar => hname (isVariableName_cons.mp hvar).2
  · rw [List.mem_singleton.mp hi]
    refine ⟨?_, ?_, ?_⟩
    · rw [Bool.eq_false_iff]
      exact fun hvar => (isVariableName_cons.mp hvar).1 rfl
    · rintro r ⟨⟩
      rfl
    · rintro c ⟨⟩

/-- The functions `fs` of the program `p` are compiled. -/
structure Built (p : Program) (fs : Signatures) (s : Session) : Prop where
  errors : s.errors = []
  bound : Bound fs (fun _ => none) s.scopes
  globals : Declares fs s.assembly.interface
  wellFormed : WellFormed [] s.assembly
  accepted : Accepted s.assembly
  functions : ∀ f k, (f, k) ∈ fs → ∃ params body r entry bs env is fs',
    function? p f = some (params, body) ∧ params.length = k ∧ fs' ⊆ fs ∧
      FunctionCode s.assembly f fs' params body r entry bs env is

theorem Built.isAccepted {p : Program} {s : Session} (h : Built p fs s) :
    s.assembly.isAccepted = true := by
  refine h.accepted.isAccepted h.wellFormed (fun r hr _ => ?_) fun c hc => ?_
  · have hh := (h.globals _ (List.mem_map_of_mem hr)).2.1 { r with blocks := [], names := .initial }
      rfl
    exact hh
  · exact (h.globals _ (List.mem_map_of_mem hc)).2.2 c rfl

section Programs

variable {e : Edition} {importer : String → Gen Unit} {fs : Signatures} {p : Program} {s : Session}

theorem Built.function (he : e.has .remainders = true) (hfun : e.has .functions = true)
    (h : Built p fs s) {params : List Param} {type : Literal} {body : List Stmt}
    (hst : (Stmt.fn name (some params) type body).isIntegerFunction e fs = true)
    (hp : function? p name = some (params, body)) :
    Gives (Gen.statement e importer (.fn name (some params) type body)) s fun _ t =>
      Built p ((name, params.length) :: fs) t := by
  simp only [Stmt.isIntegerFunction, Bool.and_eq_true, decide_eq_true_eq] at hst
  obtain ⟨⟨⟨⟨⟨hname, rfl⟩, hparams⟩, hlabels⟩, hnames⟩, hbody⟩ := hst
  have hfree := h.globals.item?_eq_none hname
  have hopen := openRoutine_gives (e := e) hparams hlabels (List.all_eq_true.mp hnames) hname
    h.bound hfree (Session.entered_spec h.wellFormed h.accepted h.bound hfree)
  rw [Gen.statement]
  refine .get (.get (.get (.bind (hopen.mono ?_))))
  rintro _ t ⟨rfl, env, ht⟩
  refine .bind ((body_lowers hfun hbody ⟨he, ht.vars⟩ ht.ready ht.scopes).mono ?_)
  rintro _ u ⟨hu, hcode⟩
  obtain ⟨r, entry, bs, is, hfunction⟩ :=
    ht.code u.assembly body hu.grows (isIntegerBody_returns hbody) hcode
  obtain ⟨table, htable⟩ := hu.scopes
  have hleave : u.scopes.leaveTo s.scopes.length = s.scopes := by simp [htable, Chain.leaveTo]
  have hbound : Bound ((name, params.length) :: fs) (fun _ => none)
      ((u.scopes.leaveTo s.scopes.length).define (.text name)
        ⟨functionOperand name params.length, .i32⟩) := by
    rw [hleave]
    exact h.bound.declare hname rfl params.length
  have hglobals : Declares ((name, params.length) :: fs) u.assembly.interface := by
    rw [hu.interface, ht.interface]
    exact h.globals.snoc
  refine .bind_run rfl (.bind_run rfl (.of_run rfl ⟨?_, hbound, hglobals, hu.wellFormed,
    hu.accepted, ?_⟩))
  · exact hu.errors.trans (ht.errors.trans h.errors)
  · intro f k hf
    rcases List.mem_cons.mp hf with heq | hf
    · obtain ⟨rfl, rfl⟩ := Prod.mk.inj heq
      exact ⟨params, body, r, entry, bs, env, is, _, hp, rfl, List.Subset.refl _, hfunction⟩
    · obtain ⟨params', body', r', entry', bs', env', is', fs', hp', hlen, hsub, hcode'⟩ :=
        h.functions f k hf
      obtain ⟨r'', entry'', bs'', hcode''⟩ := hcode'.grows (ht.grows.trans hu.grows)
      exact ⟨params', body', r'', entry'', bs'', env', is', fs', hp', hlen,
        List.Subset.trans hsub (List.subset_cons_self _ _), hcode''⟩

theorem Built.functions_lower (he : e.has .remainders = true) (hfun : e.has .functions = true)
    {q : Program} (hq : areIntegerFunctions e fs q = true) (h : Built p fs s)
    (hp : ∀ f, isVariableName fs f = true → function? p f = function? q f) :
    Gives (Gen.statements e importer q) s fun _ t => Built p ((signatures q).reverse ++ fs) t := by
  induction q generalizing fs s with
  | nil =>
    rw [Gen.statements]
    exact .pure h
  | cons st q ih =>
    rw [areIntegerFunctions, Bool.and_eq_true] at hq
    obtain ⟨hst, hq⟩ := hq
    rw [Stmt.isIntegerFunction.eq_def] at hst
    split at hst
    · rename_i name params type body
      have hst' : (Stmt.fn name (some params) type body).isIntegerFunction e fs = true := hst
      simp only [Bool.and_eq_true] at hst
      have hname := hst.1.1.1.1.1
      have hhere : function? p name = some (params, body) := by
        rw [hp name hname]
        simp [function?]
      rw [Gen.statements]
      refine .bind ((h.function he hfun hst' hhere).mono fun _ t ht => ?_)
      refine (ih hq ht fun f hf => ?_).mono fun _ u hu => ?_
      · obtain ⟨hne, hf⟩ := isVariableName_cons.mp hf
        rw [hp f hf]
        simp [function?, hne.symm]
      · simpa [signatures, Stmt.signature] using hu
    · simp at hst

theorem Session.built_start (e : Edition) (p : Program) : Built p [] (Session.start e) where
  errors := rfl
  bound := by
    refine ⟨by simp, by simp, fun x _ hx => ?_⟩
    have hbuiltin := (isVariableName_iff.mp hx).2
    simp only [builtinNames, List.mem_cons, List.not_mem_nil, or_false, not_or] at hbuiltin
    obtain ⟨hprintf, htrue, hfalse⟩ := hbuiltin
    simp only [Session.start, Session.builtins, Chain.find?, Option.or_none]
    split_ifs <;> simp [Table.find?, Literal.same_text, Session.printfRoutine, Session.booleanItem,
      Item.name, Routine.declare, Ne.symm hprintf, Ne.symm htrue, Ne.symm hfalse]
  globals := by
    intro i hi
    obtain ⟨j, hj, rfl⟩ := List.mem_map.mp hi
    cases j with
    | routine r =>
      rw [Session.routine_mem_start hj]
      refine ⟨by decide, ?_, by rintro c ⟨⟩⟩
      rintro r ⟨⟩
      rfl
    | constant c =>
      have hc : c = ⟨"true", false, .i1, .int 1⟩ ∨ c = ⟨"false", false, .i1, .int 0⟩ := by
        simp only [Session.start, Session.builtins, Session.booleanItem] at hj
        split_ifs at hj <;> simp at hj
        all_goals exact hj
      rcases hc with rfl | rfl
      · exact ⟨by decide, by rintro r ⟨⟩, by rintro c ⟨⟩; rfl⟩
      · exact ⟨by decide, by rintro r ⟨⟩, by rintro c ⟨⟩; rfl⟩
  wellFormed := Session.wellFormed_start e
  accepted := by
    intro q before i behind hq
    simp [Session.code?_start] at hq
  functions := by simp

end Programs

/-- Two ways to run come to the same end, whatever fuel each of them needs for it. -/
structure SameEnds {α β : Type} (source : Nat → Outcome α) (target : Nat → Outcome β) (f : α → β) :
    Prop where
  done : ∀ y, (∃ n, target n = .done y) ↔ ∃ n x, source n = .done x ∧ f x = y
  stuck : (∃ n, target n = .stuck) ↔ ∃ n, source n = .stuck
  forever : (∀ n, target n = .outOfFuel) ↔ ∀ n, source n = .outOfFuel

theorem SameEnds.of_bounded {α β : Type} {source : Nat → Outcome α} {target : Nat →
    Outcome β} {f : α → β}
    (hunique : ∀ m n, target m ≠ .outOfFuel → target n ≠ .outOfFuel → target m = target n)
    (hdone : ∀ n x, source n = .done x → ∃ m, target m = .done (f x))
    (hstuck : ∀ n, source n = .stuck → ∃ m, target m = .stuck)
    (hfuel : ∀ n, source n = .outOfFuel → ∀ m < n, target m = .outOfFuel) :
      SameEnds source target f := by
  have hback : ∀ m, target m ≠ .outOfFuel →
      (∃ x, source (m + 1) = .done x ∧ target m = .done (f x)) ∨
      (source (m + 1) = .stuck ∧ target m = .stuck) := by
    intro m hm
    cases hs : source (m + 1) with
    | done x =>
      obtain ⟨n, hn⟩ := hdone _ x hs
      exact .inl ⟨x, rfl, (hunique m n hm (by simp [hn])).trans hn⟩
    | stuck =>
      obtain ⟨n, hn⟩ := hstuck _ hs
      exact .inr ⟨rfl, (hunique m n hm (by simp [hn])).trans hn⟩
    | outOfFuel => exact absurd (hfuel _ hs m (Nat.lt_succ_self m)) hm
  refine ⟨fun y => ⟨?_, ?_⟩, ⟨?_, ?_⟩, ⟨?_, ?_⟩⟩
  · rintro ⟨m, hm⟩
    rcases hback m (by simp [hm]) with ⟨x, hx, hxm⟩ | ⟨-, hm'⟩
    · exact ⟨m + 1, x, hx, Outcome.done.inj (hxm.symm.trans hm)⟩
    · simp [hm] at hm'
  · rintro ⟨n, x, hx, rfl⟩
    exact hdone n x hx
  · rintro ⟨m, hm⟩
    rcases hback m (by simp [hm]) with ⟨x, -, hxm⟩ | ⟨hs, -⟩
    · simp [hm] at hxm
    · exact ⟨m + 1, hs⟩
  · rintro ⟨n, hn⟩
    exact hstuck n hn
  · intro hforever n
    cases hs : source n with
    | done x =>
      obtain ⟨m, hm⟩ := hdone n x hs
      simp [hforever m] at hm
    | stuck =>
      obtain ⟨m, hm⟩ := hstuck n hs
      simp [hforever m] at hm
    | outOfFuel => rfl
  · exact fun hforever m => hfuel (m + 1) (hforever _) m (Nat.lt_succ_self m)

theorem Implements.sameEnds {a : Assembly} {p : Program}
    (h : ∀ n, Implements a [] fs n (callIn p n)) {f : String} {ws : List Word}
    (hf : (f, ws.length) ∈ fs) :
    SameEnds (callIn p · f ws) (a.call · f (ws.map (.int 32))) fun w => (.int 32 w, []) := by
  obtain ⟨r, entry, bs, hr, hblocks, -⟩ := h 0 f ws hf
  let c : Config := ⟨r, entry.instrs, r.frame (ws.map (.int 32))⟩
  have hcall : ∀ n, a.call n f (ws.map (.int 32)) = c.run a [] n >>= fun y =>
      pure (y.1, y.2.reverse) := by
    intro n
    simp only [Assembly.call, hr, hblocks, Config.run, c]
    cases a.run r n entry.instrs (r.frame (ws.map (.int 32))) [] <;> rfl
  have hend : ∀ n, (∀ w, callIn p n f ws = .done w → c.Ends a [] (.done (.int 32 w, []))) ∧
      (callIn p n f ws = .stuck → c.Ends a [] .stuck) ∧
      (callIn p n f ws = .outOfFuel → ∀ k < n, c.run a [] k = .outOfFuel) := by
    intro n
    obtain ⟨r', entry', bs', hr', hblocks', hn⟩ := h n f ws hf
    obtain rfl : r = r' := Option.some.inj (hr.symm.trans hr')
    obtain ⟨rfl, -⟩ := List.cons.inj (hblocks.symm.trans hblocks')
    exact hn
  refine .of_bounded ?_ ?_ ?_ ?_
  · intro m n hm hn
    rw [hcall] at hm hn ⊢
    rw [hcall]
    have hruns : c.run a [] m = c.run a [] n := by
      refine Config.Ends.unique ⟨m, rfl⟩ ⟨n, rfl⟩ (fun hfuel => hm ?_) fun hfuel => hn ?_
      · exact congrArg (· >>= _) hfuel
      · exact congrArg (· >>= _) hfuel
    rw [hruns]
  · intro n w hw
    obtain ⟨m, hm⟩ := (hend n).1 w hw
    exact ⟨m, (hcall m).trans (congrArg (· >>= _) hm)⟩
  · intro n hn
    obtain ⟨m, hm⟩ := (hend n).2.1 hn
    exact ⟨m, (hcall m).trans (congrArg (· >>= _) hm)⟩
  · intro n hn m hm
    exact (hcall m).trans (congrArg (· >>= _) ((hend n).2.2 hn m hm))

/-- Compiling a program of functions on integers succeeds. The assembly is fit to run, and a call of
a function in it comes to the same end as in the program. -/
theorem compile_preserves_meaning (e : Edition) (files : Files) (p : Program)
    (he : e.has .whileLoops = true) (hp : areIntegerFunctions e [] p = true) :
    ∃ t, (Session.start e).compile e files p = (.ok (), t) ∧ t.errors = [] ∧
      t.assembly.isAccepted = true ∧ ∀ f ws, (f, ws.length) ∈ signatures p →
        SameEnds (callIn p · f ws) (t.assembly.call · f (ws.map (.int 32))) fun w =>
          (.int 32 w, []) := by
  have hrem : e.has .remainders = true := Edition.has_of_since_le (by decide) he
  have hfun : e.has .functions = true := Edition.has_of_since_le (by decide) he
  have hgives : Gives (Gen.statements e (Gen.importer e files Gen.maxImportDepth) p)
      (Session.start e) fun _ t => Built p ((signatures p).reverse ++ []) t :=
    (Session.built_start e p).functions_lower hrem hfun hp fun _ _ => rfl
  obtain ⟨⟨⟩, t, hrun, ht⟩ := hgives
  have hcompile : (Session.start e).compile e files p = (.ok (), t) := by
    rw [Session.compile, Gen.program, if_pos hfun]
    exact hrun
  refine ⟨t, hcompile, ht.errors, ht.isAccepted, fun f ws hf => ?_⟩
  refine Implements.sameEnds (fun n => implements_callIn ht.functions n) ?_
  simpa using hf

theorem compile_preserves_meaning_factorials : let p : Program :=
      [.fn "fact" (some [⟨.text "n", .text "int"⟩]) (.text "int")
        [.expr (.ifThen (.infixed (.ident "n") .lt (.int 2)) [.ret (.int 1)]),
         .ret (.infixed (.ident "n") .mul
           (.call (.ident "fact") [.infixed (.ident "n") .sub (.int 1)]))],
       .fn "main" (some []) (.text "int")
        [.letVar "s" (.int 0) "int", .letVar "i" (.int 0) "int",
         .whileLoop (.infixed (.ident "i") .lt (.int 5))
           [.assign (.text "s") (.text "+=") (.call (.ident "fact") [.ident "i"]),
            .expr (.stepped (.ident "i") .increment)],
         .ret (.prefixed .neg (.ident "s"))]]
    areIntegerFunctions .latest [] p = true ∧ callIn p 7 "main" [] = .done (-34) ∧
      ∃ t, (Session.start .latest).compile .latest ⟨[], []⟩ p = (.ok (), t) ∧
        t.assembly.isAccepted = true ∧
        ∃ n, t.assembly.call n "main" [] = .done (.int 32 (-34), []) := by
  intro p
  have hp : areIntegerFunctions .latest [] p = true := by decide +kernel
  have hmain : callIn p 7 "main" [] = .done (-34) := by decide +kernel
  obtain ⟨t, hcompile, -, haccepted, hcalls⟩ :=
    compile_preserves_meaning .latest ⟨[], []⟩ p (by decide) hp
  have hends := (hcalls "main" [] (by decide)).done (.int 32 (-34), [])
  exact ⟨hp, hmain, t, hcompile, haccepted, hends.mpr ⟨7, -34, hmain, rfl⟩⟩

end LimeLang
