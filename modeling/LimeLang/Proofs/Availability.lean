import LimeLang.Proofs.ReachableSessions

/-! Values that are computed on every way to their use. A flow says of each block which instructions
have been executed whenever control enters it; a flow that fits all jumps certifies that definitions
come before uses. -/

namespace LimeLang

open Code

namespace Code

/-- Control can get to the start of a block without having executed instruction `i` of block `A`. -/
inductive Routine.Misses (r : Routine) (A : String) (i : Instr) : String → Prop
  | entry {e : Block} {bs : List Block} (h : r.blocks = e :: bs) : Misses r A i e.name
  | jump {b : Block} {before behind : List Instr} {j : Instr} {t : String} (hb : b ∈ r.blocks)
      (h : Misses r A i b.name) (hj : b.instrs = before ++ j :: behind) (ht : t ∈ j.op.targets)
      (hi : b.name = A → i ∉ before) : Misses r A i t

/-- Instruction `i` of block `A` has been executed whenever control is in block `b` behind the
instructions `before`. -/
def Routine.Precedes (r : Routine) (A : String) (i : Instr) (b : String) (before : List Instr) :
    Prop :=
  (b = A ∧ i ∈ before) ∨ ¬ r.Misses A i b

/-- What an instruction of block `b` may use behind the instructions `before`: constants, globals,
parameters of the routine, and results of instructions that have been executed by then. -/
inductive Assembly.Provides (a : Assembly) (r : Routine) (b : String) (before : List Instr) :
    Operand → Prop
  | int (t : Ty) (n : Int) : Provides a r b before (.int t n)
  | float (x : Number.Double) : Provides a r b before (.float x)
  | item {i : Item} (h : a.item? i.name = some i) : Provides a r b before i.operand
  | param {n : String} {t : Ty} (h : (n, t) ∈ r.params) : Provides a r b before (.result n t)
  | result {A : Block} {i : Instr} (hA : A ∈ r.blocks) (hi : i ∈ A.instrs)
      (h : r.Precedes A.name i b before) : Provides a r b before (.result i.name i.op.ty)

end Code

/-- The instructions, with their blocks, that have been executed whenever control enters a block. -/
abbrev Dataflow := Place → String → Instr → Prop

namespace Dataflow

/-- An instruction has been executed whenever control is at `q` behind the instructions `before`. -/
def Done (f : Dataflow) (q : Place) (before : List Instr) (A : String) (i : Instr) : Prop :=
  (q.block = A ∧ i ∈ before) ∨ f q A i

def Usable (f : Dataflow) (a : Assembly) (q : Place) (before : List Instr) : Operand → Prop
  | .int .. | .float _ => True
  | .global n t => ∃ i, a.item? n = some i ∧ i.operand = .global n t
  | .result n t => (∃ r, a.routine? q.routine = some r ∧ (n, t) ∈ r.params) ∨
    ∃ A i, f.Done q before A i ∧ i.name = n ∧ i.op.ty = t

structure Certifies (f : Dataflow) (a : Assembly) : Prop where
  blocks : ∀ q A i, f q A i → (a.code? q).isSome = true ∧
    ∃ is, a.code? ⟨q.routine, A⟩ = some is ∧ i ∈ is
  entry : ∀ r e bs, a.routine? r.name = some r → r.blocks = e :: bs →
    ∀ A i, ¬ f ⟨r.name, e.name⟩ A i
  inside : ∀ q is, a.code? q = some is →
    ∀ j ∈ is, ∀ t ∈ j.op.targets, (a.code? ⟨q.routine, t⟩).isSome = true
  edge : ∀ q before j behind, a.code? q = some (before ++ j :: behind) → ∀ t ∈ j.op.targets,
    ∀ A i, f ⟨q.routine, t⟩ A i → f.Done q before A i
  use : ∀ q before j behind, a.code? q = some (before ++ j :: behind) →
    ∀ x ∈ j.op.operands, f.Usable a q before x

section Certificates

variable {f : Dataflow} {a b : Assembly} {q : Place} {before : List Instr} {A : String} {i : Instr}
  {x : Operand}
  {r : Routine}

theorem Certifies.not_misses (h : f.Certifies a) (ha : a.Sound) (hr : .routine r ∈ a.items)
    {b : String} (hm : r.Misses A i b) : ¬ f ⟨r.name, b⟩ A i := by
  induction hm with
  | entry hblocks => exact h.entry r _ _ (ha.routine?_of_mem hr) hblocks A i
  | jump hb _ hj ht hi ih =>
    intro hf
    have hcode := ha.code?_of_mem hr hb
    rw [hj] at hcode
    rcases h.edge _ _ _ _ hcode _ ht A i hf with ⟨hA, hmem⟩ | hf
    · exact hi hA hmem
    · exact ih hf

theorem Certifies.provides (h : f.Certifies a) (ha : a.Sound) (hr : .routine r ∈ a.items)
    {c : Block}
    (hc : c ∈ r.blocks) {behind : List Instr} (hsplit : c.instrs = before ++ i :: behind)
    (hx : x ∈ i.op.operands) : a.Provides r c.name before x := by
  have hcode := ha.code?_of_mem hr hc
  have hroutine := ha.routine?_of_mem hr
  have hmem : ∀ A is, a.code? ⟨r.name, A⟩ = some is → ∃ d ∈ r.blocks, d.name = A ∧
      d.instrs = is := by
    intro A is hA
    rw [Assembly.code?, hroutine, Option.bind_some] at hA
    obtain ⟨d, hd, his⟩ := Option.map_eq_some_iff.mp hA
    exact ⟨d, List.mem_of_find?_eq_some hd, Routine.block?_name hd, his⟩
  have huse := h.use _ _ _ _ (hsplit ▸ hcode) x hx
  cases x with
  | int t n => exact .int t n
  | float d => exact .float d
  | global n t =>
    obtain ⟨item, hitem, hop⟩ := huse
    rw [← hop]
    exact .item (Assembly.item?_name hitem ▸ hitem)
  | result n t =>
    rcases huse with ⟨r', hr', hparam⟩ | ⟨A, j, (⟨hA, hj⟩ | hf), rfl, rfl⟩
    · obtain rfl := Option.some.inj (hroutine.symm.trans hr')
      exact .param hparam
    · refine .result hc ?_ (.inl ⟨rfl, hj⟩)
      rw [hsplit]
      exact List.mem_append_left _ hj
    · obtain ⟨-, is, his, hj⟩ := h.blocks _ _ _ hf
      obtain ⟨d, hd, rfl, rfl⟩ := hmem A is his
      exact .result hd hj (.inr fun hm => h.not_misses ha hr hm hf)

theorem Done.mono {before' : List Instr} (h : f.Done q before A i) (hb : before ⊆ before') :
    f.Done q before' A i := h.imp (fun h => ⟨h.1, hb h.2⟩) id

theorem operand_kept (hg : a.Grows b) (hc : a.KeepsConstants b) {n : String} {item : Item}
    (h : a.item? n = some item) : ∃ item', b.item? n = some item' ∧
      item'.operand = item.operand := by
  cases item with
  | constant c => exact ⟨_, hc n c h, rfl⟩
  | routine r =>
    obtain ⟨r', hr', hgrow⟩ := hg n r (Assembly.routine?_eq_some.mpr h)
    have hname : r'.name = r.name := (Assembly.routine?_name hr').trans (Assembly.item?_name h).symm
    refine ⟨_, Assembly.routine?_eq_some.mp hr', ?_⟩
    rw [Item.operand, Item.operand, Routine.operand, Routine.operand, Routine.ty, Routine.ty, hname,
      hgrow.result, hgrow.params, hgrow.variadic]

theorem Usable.mono {f' : Dataflow} {q' : Place} {before' : List Instr} (h : f.Usable a q before x)
    (hg : a.Grows b) (hc : a.KeepsConstants b) (hq : q'.routine = q.routine)
    (hdone : ∀ A i, f.Done q before A i → f'.Done q' before' A i) : f'.Usable b q' before' x := by
  cases x with
  | int t n => trivial
  | float d => trivial
  | global n t =>
    obtain ⟨item, hitem, hop⟩ := h
    obtain ⟨item', hitem', hop'⟩ := operand_kept hg hc hitem
    exact ⟨item', hitem', hop'.trans hop⟩
  | result n t =>
    rcases h with ⟨r, hr, hparam⟩ | ⟨A, i, hi, hname⟩
    · obtain ⟨r', hr', hgrow⟩ := hg _ r hr
      exact .inl ⟨r', hq ▸ hr', hgrow.params ▸ hparam⟩
    · exact .inr ⟨A, i, hdone A i hi, hname⟩

/-- The next instruction uses what is at hand, and leads to blocks that ask for nothing more. -/
theorem Certifies.withInstr {p : Place} {is : List Instr} {op : Op} (h : f.Certifies a)
    (hr : a.routine? p.routine = some r) (hp : a.code? p = some is)
    (htargets : ∀ t ∈ op.targets, (a.code? ⟨p.routine, t⟩).isSome = true ∧
      ∀ A i, f ⟨p.routine, t⟩ A i → f.Done p is A i)
    (huse : ∀ x ∈ op.operands, f.Usable a p is x) : f.Certifies (a.withInstr p r op) := by
  have hg : a.Grows (a.withInstr p r op) := Assembly.Grows.steps.withInstr hr
  have hc : a.KeepsConstants (a.withInstr p r op) := Assembly.KeepsConstants.steps.withInstr hr
  have hcode : ∀ q js, (a.withInstr p r op).code? q = some js →
      a.code? q = some js ∨ q = p ∧ js = is ++ [⟨r.takeName.1, op⟩] := by
    intro q js hq
    rw [Assembly.code?_withInstr hr] at hq
    split_ifs at hq with heq
    · rw [hp] at hq
      exact .inr ⟨heq, (Option.some.inj hq).symm⟩
    · exact .inl hq
  -- an instruction is an old one or the new one, which stands behind all others
  have hsplit : ∀ q before j behind, (a.withInstr p r op).code? q = some (before ++ j :: behind) →
      (∃ behind', a.code? q = some (before ++ j :: behind')) ∨ q = p ∧ before = is ∧ j.op = op := by
    intro q before j behind hq
    rcases hcode q _ hq with hq | ⟨rfl, hlist⟩
    · exact .inl ⟨behind, hq⟩
    · rcases List.eq_nil_or_concat behind with rfl | ⟨init, last, rfl⟩
      · obtain ⟨rfl, hj⟩ := List.append_inj' hlist rfl
        rw [(List.cons.inj hj).1]
        exact .inr ⟨rfl, rfl, rfl⟩
      · have hinit : before ++ j :: init = is := by
          rw [List.concat_eq_append, ← List.cons_append, ← List.append_assoc] at hlist
          exact List.append_inj_left' hlist rfl
        exact .inl ⟨init, hinit ▸ hp⟩
  refine ⟨?_, ?_, ?_, ?_, ?_⟩
  · intro q A i hi
    obtain ⟨hq, js, hjs, hmem⟩ := h.blocks q A i hi
    obtain ⟨ks, hks⟩ := hg.code hjs
    exact ⟨hg.code_isSome hq, js ++ ks, hks, List.mem_append_left _ hmem⟩
  · intro r' e bs hr' hblocks A i
    rw [Assembly.routine?_withInstr hr] at hr'
    split_ifs at hr' with hn
    · obtain rfl := Option.some.inj hr'
      have hnames := congrArg (List.map Block.name) hblocks
      rw [Routine.blocks_addInstr_names] at hnames
      obtain ⟨e', bs', hblocks', he', -⟩ := List.map_eq_cons_iff.mp hnames
      rw [← he']
      have hname : r.name = p.routine := Assembly.routine?_name hr
      exact h.entry r e' bs' (hname ▸ hr) hblocks' A i
    · exact h.entry r' e bs hr' hblocks A i
  · intro q js hq j hj t ht
    obtain ⟨before, behind, rfl⟩ := List.append_of_mem hj
    rcases hsplit q _ _ _ hq with ⟨behind', hq'⟩ | ⟨rfl, -, rfl⟩
    · exact hg.code_isSome (h.inside q _ hq' j (by simp) t ht)
    · exact hg.code_isSome (htargets t ht).1
  · intro q before j behind hq t ht A i hi
    rcases hsplit q _ _ _ hq with ⟨behind', hq'⟩ | ⟨rfl, rfl, rfl⟩
    · exact h.edge q before j behind' hq' t ht A i hi
    · exact (htargets t ht).2 A i hi
  · intro q before j behind hq x hx
    rcases hsplit q _ _ _ hq with ⟨behind', hq'⟩ | ⟨rfl, rfl, rfl⟩
    · exact (h.use q before j behind' hq' x hx).mono hg hc rfl fun _ _ h => h
    · exact (huse x hx).mono hg hc rfl fun _ _ h => h

/-- A flow that also says what has been executed on entry to a new block. -/
def extend (f : Dataflow) (q : Place) (S : String → Instr → Prop) : Dataflow :=
  fun q' A i => f q' A i ∨ q' = q ∧ S A i

theorem Certifies.withBlock {name : String} (h : f.Certifies a) (ha : a.Sound)
    (hr : a.routine? r.name = some r) {S : String → Instr → Prop}
    (hS : ∀ A i, S A i → ∃ is, a.code? ⟨r.name, A⟩ = some is ∧ i ∈ is)
    (hentry : r.blocks = [] → ∀ A i, ¬ S A i) :
    (f.extend ⟨r.name, (r.addBlock name).1⟩ S).Certifies (a.withBlock r name) := by
  have hg : a.Grows (a.withBlock r name) := Assembly.Grows.steps.withBlock hr
  have hc : a.KeepsConstants (a.withBlock r name) := Assembly.KeepsConstants.steps.withBlock hr
  have hnew := Assembly.code?_new (n := name) ha hr
  have hcode : ∀ q before j behind, (a.withBlock r name).code? q = some (before ++ j :: behind) →
      a.code? q = some (before ++ j :: behind) := by
    intro q before j behind hq
    rw [Assembly.code?_withBlock ha hr] at hq
    split_ifs at hq
    · simp at hq
    · exact hq
  have hkeep : ∀ q before A i, f.Done q before A i →
      (f.extend ⟨r.name, (r.addBlock name).1⟩ S).Done q before A i := by
    intro q before A i hi
    exact hi.imp id .inl
  refine ⟨?_, ?_, ?_, ?_, ?_⟩
  · rintro q A i (hi | ⟨rfl, hi⟩)
    · obtain ⟨hq, js, hjs, hmem⟩ := h.blocks q A i hi
      obtain ⟨ks, hks⟩ := hg.code hjs
      exact ⟨hg.code_isSome hq, js ++ ks, hks, List.mem_append_left _ hmem⟩
    · obtain ⟨js, hjs, hmem⟩ := hS A i hi
      obtain ⟨ks, hks⟩ := hg.code hjs
      refine ⟨?_, js ++ ks, hks, List.mem_append_left _ hmem⟩
      rw [Assembly.code?_withBlock ha hr, if_pos rfl]
      rfl
  · intro r' e bs hr' hblocks A i
    rw [Assembly.routine?_withBlock hr] at hr'
    split_ifs at hr' with hn
    · obtain rfl := Option.some.inj hr'
      change r.blocks ++ [⟨(r.addBlock name).1, []⟩] = e :: bs at hblocks
      cases hb : r.blocks with
      | nil =>
        rw [hb, List.nil_append] at hblocks
        rw [← (List.cons.inj hblocks).1]
        rintro (hf | ⟨-, hi⟩)
        · have hsome : (a.code? ⟨r.name, (r.addBlock name).1⟩).isSome = true :=
            (h.blocks _ _ _ hf).1
          simp [hnew] at hsome
        · exact hentry hb A i hi
      | cons e' bs' =>
        rw [hb, List.cons_append] at hblocks
        rw [← (List.cons.inj hblocks).1]
        rintro (hf | ⟨heq, -⟩)
        · exact h.entry r e' bs' hr hb A i hf
        · have hsome := ha.code?_of_mem (Assembly.mem_of_routine? hr)
            (hb ▸ List.mem_cons_self : e' ∈ r.blocks)
          rw [show (⟨r.name, e'.name⟩ : Place) = ⟨r.name, (r.addBlock name).1⟩ from heq,
            hnew] at hsome
          simp at hsome
    · rintro (hf | ⟨heq, -⟩)
      · exact h.entry r' e bs hr' hblocks A i hf
      · exact hn (Place.mk.inj heq).1
  · intro q js hq j hj t ht
    obtain ⟨before, behind, rfl⟩ := List.append_of_mem hj
    exact hg.code_isSome (h.inside q _ (hcode q _ _ _ hq) j (by simp) t ht)
  · rintro q before j behind hq t ht A i (hi | ⟨heq, -⟩)
    · exact hkeep _ _ _ _ (h.edge q before j behind (hcode q _ _ _ hq) t ht A i hi)
    · have hsome := h.inside q _ (hcode q _ _ _ hq) j (by simp) t ht
      rw [heq, hnew] at hsome
      simp at hsome
  · intro q before j behind hq x hx
    exact (h.use q before j behind (hcode q _ _ _ hq) x hx).mono hg hc rfl (hkeep q before)

theorem Certifies.add {item : Item} (h : f.Certifies a) (hi : a.item? item.name = none)
    (hblocks : ∀ r, item = .routine r → r.blocks = []) : f.Certifies (a.add item) := by
  have hg : a.Grows (a.add item) := Assembly.Grows.steps.add hi hblocks
  have hc : a.KeepsConstants (a.add item) := Assembly.KeepsConstants.steps.add hi hblocks
  have hcode : ∀ q, (a.add item).code? q = a.code? q := fun q => Assembly.code?_add hi hblocks
  refine ⟨?_, ?_, ?_, ?_, ?_⟩
  · simpa only [hcode] using h.blocks
  · intro r e bs hr hbs A i
    cases item with
    | constant c =>
      rw [Assembly.routine?_add_constant hi] at hr
      exact h.entry r e bs hr hbs A i
    | routine r' =>
      rw [Assembly.routine?_add_routine hi] at hr
      split_ifs at hr
      · obtain rfl := Option.some.inj hr
        rw [hblocks r' rfl] at hbs
        simp at hbs
      · exact h.entry r e bs hr hbs A i
  · simpa only [hcode] using h.inside
  · simpa only [hcode] using h.edge
  · intro q before j behind hq x hx
    rw [hcode] at hq
    exact (h.use q before j behind hq x hx).mono hg hc rfl fun _ _ h => h

end Certificates

end Dataflow

end LimeLang
