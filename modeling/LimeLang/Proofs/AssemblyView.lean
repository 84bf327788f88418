import LimeLang.Compile.Session
import LimeLang.Proofs.FreshNames

/-! An assembly seen through its lookups: what each update of it does to the routine of a name
and to the instructions at a place. -/

namespace LimeLang

open Code

variable {r : Routine} {i : Item}

namespace Code

section Lookup

variable {a : Assembly} {n m : String} {f : Routine → Routine}

theorem Assembly.item?_modifyRoutine (hf : ∀ r, r.name = n → (f r).name = n) :
    (a.modifyRoutine n f).item? m = (a.item? m).map fun
      | .routine r => if r.name = n then .routine (f r) else .routine r
      | i => i := by
  rw [modifyRoutine, item?, item?, List.find?_map]
  congr 1
  congr 1
  funext i
  cases i with
  | constant c => rfl
  | routine r =>
    by_cases h : r.name = n
    · simp [h, Item.name, hf r h]
    · simp [h]

theorem Assembly.item?_name (h : a.item? m = some i) : i.name = m := by
  simpa using List.find?_some h

theorem Assembly.routine?_eq_some : a.routine? m = some r ↔ a.item? m = some (.routine r) := by
  rw [routine?]
  split
  · rename_i h
    simp [h]
  · rename_i h
    simp only [reduceCtorEq, false_iff]
    exact h r

theorem Assembly.routine?_name (h : a.routine? m = some r) : r.name = m :=
  item?_name (routine?_eq_some.mp h)

theorem Assembly.routine?_modifyRoutine (hf : ∀ r, r.name = n → (f r).name = n) :
    (a.modifyRoutine n f).routine? m = if m = n then (a.routine? n).map f else a.routine? m := by
  rw [routine?, item?_modifyRoutine hf]
  cases h : a.item? m with
  | none =>
    have hn : a.routine? m = none := by simp [routine?, h]
    split_ifs with hm
    · simp [← hm, hn]
    · simp [hn]
  | some i =>
    cases i with
    | constant c =>
      have hn : a.routine? m = none := by simp [routine?, h]
      split_ifs with hm
      · simp [← hm, hn]
      · simp [hn]
    | routine r =>
      have hr : a.routine? m = some r := routine?_eq_some.mpr h
      have hname : r.name = m := routine?_name hr
      split_ifs with hm
      · subst hm
        simp [hname, hr]
      · have hne : r.name ≠ n := hname ▸ hm
        simp [hne, hr]

theorem Assembly.item?_add (hi : a.item? i.name = none) :
    (a.add i).item? m = if m = i.name then some i else a.item? m := by
  rw [add, item?, List.find?_append]
  split_ifs with hm
  · subst hm
    rw [show a.items.find? (·.name == i.name) = none from hi]
    simp
  · cases h : a.items.find? (·.name == m) with
    | none => simp [item?, h, Ne.symm hm]
    | some j => simp [item?, h]

theorem Assembly.routine?_add_routine (hr : a.item? r.name = none) :
    (a.add (.routine r)).routine? m = if m = r.name then some r else a.routine? m := by
  rw [routine?, item?_add (i := .routine r) hr, Item.name]
  by_cases hm : m = r.name
  · rw [if_pos hm, if_pos hm]
  · rw [if_neg hm, if_neg hm, routine?]

theorem Assembly.routine?_add_self (hr : a.item? r.name = none) :
    (a.add (.routine r)).routine? r.name = some r := by
  rw [routine?_add_routine hr, if_pos rfl]

theorem Assembly.routine?_add_constant {c : Constant} (hc : a.item? c.name = none) :
    (a.add (.constant c)).routine? m = a.routine? m := by
  rw [routine?, item?_add (i := .constant c) hc, Item.name]
  by_cases hm : m = c.name
  · rw [if_pos hm, hm, routine?, hc]
  · rw [if_neg hm, routine?]

end Lookup

section Blocks

variable {r : Routine} {β γ : String} {i : Instr}

theorem Routine.block?_name {b : Block} (h : r.block? β = some b) : b.name = β := by
  simpa using List.find?_some h

theorem Routine.block?_addInstr :
    (r.addInstr β i).block? γ = (r.block? γ).map fun b =>
      if b.name = β then { b with instrs := b.instrs ++ [i] } else b := by
  rw [addInstr, block?, block?, List.find?_map]
  congr 1
  congr 1
  funext b
  by_cases h : b.name = β
  · simp [h]
  · simp [h]

theorem Routine.block?_addBlock (hb : ∀ b ∈ r.blocks, b.name ∈ r.names.used) :
    (r.addBlock β).2.block? γ =
      if γ = (r.addBlock β).1 then some ⟨γ, []⟩ else r.block? γ := by
  have hfresh := r.names.register_fresh β
  rw [addBlock, block?, List.find?_append]
  split_ifs with hm
  · subst hm
    have hnone : r.blocks.find? (·.name == (r.names.register β).1) = none := by
      rw [List.find?_eq_none]
      intro b hmem hname
      exact hfresh (beq_iff_eq.mp hname ▸ hb b hmem)
    simp [hnone]
  · cases h : r.blocks.find? (·.name == γ) with
    | none => simp [block?, h, Ne.symm hm]
    | some b => simp [block?, h]

end Blocks

def Assembly.code? (a : Assembly) (p : Place) : Option (List Instr) :=
  (a.routine? p.routine).bind fun r => (r.block? p.block).map Block.instrs

/-- Names are used once: globals have names of their own, and the blocks of a routine have names
of their own that the routine knows as taken. -/
structure Assembly.Sound (a : Assembly) : Prop where
  items : (a.items.map Item.name).Nodup
  blocks : ∀ r, .routine r ∈ a.items →
    (r.blocks.map Block.name).Nodup ∧ ∀ b ∈ r.blocks, b.name ∈ r.names.used

def Assembly.withInstr (a : Assembly) (p : Place) (r : Routine) (op : Op) : Assembly :=
  (a.modifyRoutine p.routine fun _ => r.takeName.2).modifyRoutine p.routine
    (·.addInstr p.block ⟨r.takeName.1, op⟩)

def Assembly.withBlock (a : Assembly) (r : Routine) (name : String) : Assembly :=
  a.modifyRoutine r.name fun _ => (r.addBlock name).2

section Updates

variable {a : Assembly} {p q : Place} {r : Routine} {op : Op} {n m : String}

theorem Assembly.mem_of_routine? (h : a.routine? n = some r) : .routine r ∈ a.items :=
  List.mem_of_find?_eq_some (routine?_eq_some.mp h)

theorem Assembly.Sound.routine?_of_mem (ha : a.Sound) (h : .routine r ∈ a.items) :
    a.routine? r.name = some r := by
  rw [Assembly.routine?_eq_some, Assembly.item?]
  cases hf : a.items.find? (·.name == r.name) with
  | none => exact absurd (List.find?_eq_none.mp hf _ h) (by simp [Item.name])
  | some i =>
    have hi : i.name = r.name := by simpa using List.find?_some hf
    rw [List.inj_on_of_nodup_map ha.items (List.mem_of_find?_eq_some hf) h hi]

theorem Assembly.Sound.code?_of_mem (ha : a.Sound) (hr : .routine r ∈ a.items) {b : Block}
    (hb : b ∈ r.blocks) : a.code? ⟨r.name, b.name⟩ = some b.instrs := by
  have hfind : r.block? b.name = some b := by
    rw [Routine.block?]
    cases hf : r.blocks.find? (·.name == b.name) with
    | none => exact absurd (List.find?_eq_none.mp hf _ hb) (by simp)
    | some b' =>
      have hname : b'.name = b.name := by simpa using List.find?_some hf
      exact congrArg some
        (List.inj_on_of_nodup_map (ha.blocks r hr).1 (List.mem_of_find?_eq_some hf) hb hname)
  rw [Assembly.code?, ha.routine?_of_mem hr, Option.bind_some, hfind, Option.map_some]

theorem Assembly.routine?_withInstr (hr : a.routine? p.routine = some r) :
    (a.withInstr p r op).routine? m =
      if m = p.routine then some (r.takeName.2.addInstr p.block ⟨r.takeName.1, op⟩)
      else a.routine? m := by
  have hname : r.takeName.2.name = p.routine := show r.name = p.routine from routine?_name hr
  have hadd : ∀ r' : Routine, r'.name = p.routine →
    (r'.addInstr p.block ⟨r.takeName.1, op⟩).name = p.routine := fun _ h => h
  have hfirst : ∀ k, (a.modifyRoutine p.routine fun _ => r.takeName.2).routine? k =
      if k = p.routine then some r.takeName.2 else a.routine? k := by
    intro k
    rw [routine?_modifyRoutine fun _ _ => hname, hr]
    rfl
  rw [withInstr, routine?_modifyRoutine hadd, hfirst, hfirst, if_pos rfl]
  by_cases hm : m = p.routine
  · rw [if_pos hm, if_pos hm]
    rfl
  · rw [if_neg hm, if_neg hm, if_neg hm]

theorem Assembly.code?_withInstr (hr : a.routine? p.routine = some r) :
    (a.withInstr p r op).code? q =
      if q = p then (a.code? p).map (· ++ [⟨r.takeName.1, op⟩]) else a.code? q := by
  rw [code?, routine?_withInstr hr]
  by_cases hm : q.routine = p.routine
  · rw [if_pos hm, Option.bind_some, Routine.block?_addInstr]
    have hb : r.takeName.2.block? q.block = r.block? q.block := rfl
    by_cases hq : q.block = p.block
    · have hqp : q = p := by
        cases q
        cases p
        simp_all
      subst hqp
      rw [hb, if_pos rfl, code?, hr, Option.bind_some]
      cases h : r.block? q.block with
      | none => rfl
      | some b => simp [Routine.block?_name h]
    · have hqp : q ≠ p := fun h => hq (h ▸ rfl)
      rw [hb, if_neg hqp, code?, hm, hr, Option.bind_some]
      cases h : r.block? q.block with
      | none => rfl
      | some b =>
        have hne : b.name ≠ p.block := Routine.block?_name h ▸ hq
        simp [hne]
  · have hqp : q ≠ p := fun h => hm (h ▸ rfl)
    rw [if_neg hm, if_neg hqp, code?]

theorem Assembly.routine?_withBlock (hr : a.routine? r.name = some r) :
    (a.withBlock r n).routine? m = if m = r.name then some (r.addBlock n).2 else a.routine? m := by
  have hname : (r.addBlock n).2.name = r.name := rfl
  rw [withBlock, routine?_modifyRoutine fun _ _ => hname, hr]
  rfl

theorem Assembly.code?_withBlock (ha : a.Sound) (hr : a.routine? r.name = some r) :
    (a.withBlock r n).code? q =
      if q = ⟨r.name, (r.addBlock n).1⟩ then some [] else a.code? q := by
  have hused := (ha.blocks r (mem_of_routine? hr)).2
  rw [code?, routine?_withBlock hr]
  by_cases hm : q.routine = r.name
  · rw [if_pos hm, Option.bind_some, Routine.block?_addBlock hused]
    by_cases hq : q.block = (r.addBlock n).1
    · have hqp : q = ⟨r.name, (r.addBlock n).1⟩ := by
        cases q
        simp_all
      rw [if_pos hq, if_pos hqp]
      rfl
    · have hqp : q ≠ ⟨r.name, (r.addBlock n).1⟩ := fun h => hq (h ▸ rfl)
      rw [if_neg hq, if_neg hqp, code?, hm, hr]
      rfl
  · have hqp : q ≠ ⟨r.name, (r.addBlock n).1⟩ := fun h => hm (h ▸ rfl)
    rw [if_neg hm, if_neg hqp, code?]

theorem Assembly.code?_new (ha : a.Sound) (hr : a.routine? r.name = some r) :
    a.code? ⟨r.name, (r.addBlock n).1⟩ = none := by
  have hused := (ha.blocks r (mem_of_routine? hr)).2
  rw [code?, hr, Option.bind_some, Option.map_eq_none_iff, Routine.block?, List.find?_eq_none]
  intro b hb hname
  have hn : b.name = (r.names.register n).1 := beq_iff_eq.mp hname
  exact r.names.register_fresh n (hn ▸ hused b hb)

theorem Assembly.code?_add (hi : a.item? i.name = none)
    (hblocks : ∀ r, i = .routine r → r.blocks = []) : (a.add i).code? q = a.code? q := by
  cases i with
  | constant c => rw [code?, routine?_add_constant hi, code?]
  | routine r =>
    rw [code?, routine?_add_routine hi, code?]
    by_cases hm : q.routine = r.name
    · have hnone : a.routine? q.routine = none := by
        rw [hm, routine?, show a.item? r.name = none from hi]
      rw [if_pos hm, hnone, Option.bind_some, Routine.block?, hblocks r rfl]
      rfl
    · rw [if_neg hm]

theorem Assembly.Sound.modifyRoutine (ha : a.Sound) {f : Routine → Routine}
    (hf : ∀ r, .routine r ∈ a.items → r.name = n → (f r).name = n ∧
      ((f r).blocks.map Block.name).Nodup ∧ ∀ b ∈ (f r).blocks, b.name ∈ (f r).names.used) :
    (a.modifyRoutine n f).Sound := by
  refine ⟨?_, ?_⟩
  · rw [Assembly.modifyRoutine, List.map_map]
    have hnames : a.items.map (Item.name ∘ fun
        | .routine r => if r.name = n then .routine (f r) else .routine r
        | i => i) = a.items.map Item.name := by
      apply List.map_congr_left
      intro i hi
      cases i with
      | constant c => rfl
      | routine r =>
        by_cases h : r.name = n
        · simp [h, Item.name, (hf r hi h).1]
        · simp [h]
    exact hnames ▸ ha.items
  · intro r hr
    obtain ⟨i, hi, heq⟩ := List.mem_map.mp hr
    cases i with
    | constant c => simp at heq
    | routine r' =>
      by_cases h : r'.name = n
      · simp only [h, if_true, Item.routine.injEq] at heq
        exact heq ▸ (hf r' hi h).2
      · simp only [h, if_false, Item.routine.injEq] at heq
        exact heq ▸ ha.blocks r' hi

theorem Routine.blocks_addInstr_names (i : Instr) :
    (r.addInstr n i).blocks.map Block.name = r.blocks.map Block.name := by
  rw [addInstr, List.map_map]
  apply List.map_congr_left
  intro b _
  by_cases h : b.name = n
  · simp [h]
  · simp [h]

theorem Assembly.Sound.takeName (ha : a.Sound) (hr : a.routine? n = some r) :
    (a.modifyRoutine n fun _ => r.takeName.2).Sound := by
  have hname : r.name = n := Assembly.routine?_name hr
  obtain ⟨hnodup, hused⟩ := ha.blocks r (Assembly.mem_of_routine? hr)
  refine ha.modifyRoutine fun _ _ _ => ⟨hname, hnodup, fun b hb => ?_⟩
  rw [Routine.takeName, r.names.register_used ""]
  exact List.mem_cons_of_mem _ (hused b hb)

theorem Assembly.Sound.withInstr (ha : a.Sound) (hr : a.routine? p.routine = some r) :
    (a.withInstr p r op).Sound := by
  have hfirst := ha.takeName hr
  refine hfirst.modifyRoutine fun r' hr' hn => ⟨hn, ?_, ?_⟩
  · rw [Routine.blocks_addInstr_names]
    exact (hfirst.blocks r' hr').1
  · intro b hb
    have hmem : b.name ∈ r'.blocks.map Block.name := by
      rw [← Routine.blocks_addInstr_names (r := r') ⟨r.takeName.1, op⟩]
      exact List.mem_map_of_mem hb
    obtain ⟨c, hc, hcb⟩ := List.mem_map.mp hmem
    exact hcb ▸ (hfirst.blocks r' hr').2 c hc

theorem Assembly.Sound.withBlock (ha : a.Sound) (hr : a.routine? r.name = some r) :
    (a.withBlock r n).Sound := by
  obtain ⟨hnodup, hused⟩ := ha.blocks r (Assembly.mem_of_routine? hr)
  refine ha.modifyRoutine fun _ _ _ => ⟨rfl, ?_, ?_⟩
  · rw [Routine.addBlock, List.map_append, List.map_singleton]
    refine List.nodup_append.mpr ⟨hnodup, List.nodup_singleton _, ?_⟩
    intro c hc d hd hcd
    obtain ⟨b, hb, rfl⟩ := List.mem_map.mp hc
    have hn : b.name = (r.names.register n).1 := hcd.trans (List.mem_singleton.mp hd)
    exact r.names.register_fresh n (hn ▸ hused b hb)
  · intro b hb
    rw [Routine.addBlock] at hb ⊢
    rw [r.names.register_used n]
    rcases List.mem_append.mp hb with hb | hb
    · exact List.mem_cons_of_mem _ (hused b hb)
    · rw [List.mem_singleton.mp hb]
      exact List.mem_cons_self

theorem Assembly.Sound.add (ha : a.Sound) (hi : a.item? i.name = none)
    (hblocks : ∀ r, i = .routine r → r.blocks = []) : (a.add i).Sound := by
  refine ⟨?_, ?_⟩
  · rw [Assembly.add, List.map_append, List.map_singleton]
    refine List.nodup_append.mpr ⟨ha.items, List.nodup_singleton _, ?_⟩
    intro c hc d hd hcd
    obtain ⟨j, hj, rfl⟩ := List.mem_map.mp hc
    rw [List.mem_singleton.mp hd] at hcd
    exact List.find?_eq_none.mp hi j hj (beq_iff_eq.mpr hcd)
  · intro r hr
    rcases List.mem_append.mp hr with hr | hr
    · exact ha.blocks r hr
    · rw [hblocks r (List.mem_singleton.mp hr).symm]
      simp

/-- The routines in order, each with the number of its blocks. -/
def Assembly.shape (a : Assembly) : List (String × Nat) :=
  a.items.filterMap fun
    | .routine r => some (r.name, r.blocks.length)
    | .constant _ => none

def grown (n : String) (k : Nat) (shape : List (String × Nat)) : List (String × Nat) :=
  shape.map fun entry => if entry.1 = n then (entry.1, entry.2 + k) else entry

theorem Assembly.shape_modifyRoutine {k : Nat} {f : Routine → Routine}
    (hf : ∀ r, .routine r ∈ a.items → r.name = n →
      (f r).name = n ∧ (f r).blocks.length = r.blocks.length + k) :
    (a.modifyRoutine n f).shape = grown n k a.shape := by
  rw [shape, Assembly.modifyRoutine, grown, shape, List.filterMap_map, List.map_filterMap]
  apply List.filterMap_congr
  intro i hi
  cases i with
  | constant c => rfl
  | routine r =>
    by_cases h : r.name = n
    · obtain ⟨hname, hlen⟩ := hf r hi h
      simp [h, hname, hlen]
    · simp [h]

theorem grown_zero (n : String) (shape : List (String × Nat)) : grown n 0 shape = shape := by
  simp [grown]

theorem Assembly.Sound.eq_of_mem (ha : a.Sound) (hr : a.routine? n = some r) {r' : Routine}
    (hr' : .routine r' ∈ a.items) (hn : r'.name = n) : r' = r := by
  have h := ha.routine?_of_mem hr'
  rw [hn, hr] at h
  exact (Option.some.inj h).symm

theorem Assembly.Sound.shape_withInstr (ha : a.Sound) (hr : a.routine? p.routine = some r) :
    (a.withInstr p r op).shape = a.shape := by
  have hname : r.name = p.routine := Assembly.routine?_name hr
  rw [Assembly.withInstr, Assembly.shape_modifyRoutine (k := 0), grown_zero,
    Assembly.shape_modifyRoutine (k := 0), grown_zero]
  · intro r' hr' hn
    rw [ha.eq_of_mem hr hr' hn]
    exact ⟨hname, rfl⟩
  · intro r' _ hn
    exact ⟨hn, by simp [Routine.addInstr]⟩

theorem Assembly.Sound.shape_withBlock (ha : a.Sound) (hr : a.routine? r.name = some r) :
    (a.withBlock r n).shape = grown r.name 1 a.shape := by
  rw [Assembly.withBlock, Assembly.shape_modifyRoutine]
  intro r' hr' hn
  rw [ha.eq_of_mem hr hr' hn]
  exact ⟨rfl, by simp [Routine.addBlock]⟩

theorem Assembly.shape_add_routine :
    (a.add (.routine r)).shape = a.shape ++ [(r.name, r.blocks.length)] := by
  simp [Assembly.shape, Assembly.add]

theorem Assembly.shape_add_constant {c : Constant} : (a.add (.constant c)).shape = a.shape := by
  simp [Assembly.shape, Assembly.add]

end Updates

end Code

end LimeLang
