import LimeLang.Proofs.Steps

/-! Code generation only appends: whatever it does and however it ends, the code of a block stays
where it is, and blocks and names are added behind those that are there. -/

namespace LimeLang

open Code

namespace Code

/-- The same routine with more names, blocks and instructions. -/
structure Routine.Grows (r r' : Routine) : Prop where
  result : r'.result = r.result
  params : r'.params = r.params
  variadic : r'.variadic = r.variadic
  used : r.names.used ⊆ r'.names.used
  blocks : r.blocks.map Block.name <+: r'.blocks.map Block.name
  code : ∀ β is, (r.block? β).map Block.instrs = some is →
    ∃ js, (r'.block? β).map Block.instrs = some (is ++ js)

namespace Routine.Grows

variable {r r' r'' : Routine}

theorem refl (r : Routine) : r.Grows r :=
  ⟨rfl, rfl, rfl, fun _ h => h, List.prefix_rfl, fun _ is h =>
    ⟨[], by rw [List.append_nil]; exact h⟩⟩

theorem trans (h : r.Grows r') (h' : r'.Grows r'') : r.Grows r'' where
  result := h'.result.trans h.result
  params := h'.params.trans h.params
  variadic := h'.variadic.trans h.variadic
  used := List.Subset.trans h.used h'.used
  blocks := h.blocks.trans h'.blocks
  code := by
    intro β is his
    obtain ⟨js, hjs⟩ := h.code β is his
    obtain ⟨ks, hks⟩ := h'.code β _ hjs
    exact ⟨js ++ ks, by rw [hks, List.append_assoc]⟩

theorem entry (h : r.Grows r') {e : Block} {bs : List Block} (hb : r.blocks = e :: bs) :
    ∃ e' bs', r'.blocks = e' :: bs' ∧ e'.name = e.name := by
  have hnames := h.blocks
  rw [hb, List.map_cons] at hnames
  obtain ⟨names, hnames⟩ := hnames
  obtain ⟨e', bs', hb', he', -⟩ := List.map_eq_cons_iff.mp hnames.symm
  exact ⟨e', bs', hb', he'⟩

theorem takeName (r : Routine) : r.Grows r.takeName.2 where
  result := rfl
  params := rfl
  variadic := rfl
  used := by
    rw [Routine.takeName, r.names.register_used]
    exact List.subset_cons_self _ _
  blocks := List.prefix_rfl
  code := (refl r).code

theorem addBlock (r : Routine) (name : String) : r.Grows (r.addBlock name).2 where
  result := rfl
  params := rfl
  variadic := rfl
  used := by
    rw [Routine.addBlock, r.names.register_used]
    exact List.subset_cons_self _ _
  blocks := by
    rw [Routine.addBlock, List.map_append]
    exact List.prefix_append _ _
  code := by
    intro β is his
    obtain ⟨b, hb, rfl⟩ := Option.map_eq_some_iff.mp his
    have hfind : (r.addBlock name).2.block? β = some b := by
      rw [Routine.addBlock, Routine.block?, List.find?_append, show r.blocks.find? _ = some b
        from hb]
      rfl
    exact ⟨[], by rw [hfind, List.append_nil]; rfl⟩

theorem addInstr (r : Routine) (β : String) (i : Instr) : r.Grows (r.addInstr β i) where
  result := rfl
  params := rfl
  variadic := rfl
  used := fun _ h => h
  blocks := ⟨[], by rw [List.append_nil, Routine.blocks_addInstr_names]⟩
  code := by
    intro γ is his
    obtain ⟨b, hb, rfl⟩ := Option.map_eq_some_iff.mp his
    rw [Routine.block?_addInstr, hb]
    by_cases h : b.name = β
    · exact ⟨[i], by simp [h]⟩
    · exact ⟨[], by simp [h]⟩

end Routine.Grows

/-- Every routine is still there and has only grown. -/
def Assembly.Grows (a b : Assembly) : Prop :=
  ∀ n r, a.routine? n = some r → ∃ r', b.routine? n = some r' ∧ r.Grows r'

namespace Assembly.Grows

variable {a b c : Assembly} {n : String} {r r' : Routine}

theorem refl (a : Assembly) : a.Grows a := fun _ r h => ⟨r, h, .refl r⟩

theorem trans (h : a.Grows b) (h' : b.Grows c) : a.Grows c := by
  intro n r hr
  obtain ⟨r', hr', hg⟩ := h n r hr
  obtain ⟨r'', hr'', hg'⟩ := h' n r' hr'
  exact ⟨r'', hr'', hg.trans hg'⟩

theorem modifyRoutine {f : Routine → Routine} (hf : ∀ r, r.name = n → (f r).name = n)
    (hg : ∀ r, a.routine? n = some r → r.Grows (f r)) : a.Grows (a.modifyRoutine n f) := by
  intro m r hr
  rw [Assembly.routine?_modifyRoutine hf]
  by_cases hm : m = n
  · subst hm
    exact ⟨f r, by rw [if_pos rfl, hr]; rfl, hg r hr⟩
  · exact ⟨r, by rw [if_neg hm]; exact hr, .refl r⟩

theorem setRoutine (hr : a.routine? n = some r) (hn : r'.name = n) (hg : r.Grows r') :
    a.Grows (a.modifyRoutine n fun _ => r') := by
  refine modifyRoutine (fun _ _ => hn) fun s hs => ?_
  rw [hr] at hs
  exact Option.some.inj hs ▸ hg

theorem withInstr {p : Place} {op : Op} (hr : a.routine? p.routine = some r) :
    a.Grows (a.withInstr p r op) := by
  have hn : r.takeName.2.name = p.routine := show r.name = p.routine from Assembly.routine?_name hr
  refine (setRoutine hr hn (.takeName r)).trans (modifyRoutine ?_ fun s _ => .addInstr s _ _)
  exact fun _ h => h

theorem add {i : Item} (hi : a.item? i.name = none) : a.Grows (a.add i) := by
  intro m r hr
  have hm : m ≠ i.name := by
    intro h
    rw [h, Assembly.routine?, hi] at hr
    simp at hr
  refine ⟨r, ?_, .refl r⟩
  rw [Assembly.routine?_eq_some, Assembly.item?_add hi, if_neg hm]
  exact Assembly.routine?_eq_some.mp hr

theorem code {q : Place} {is : List Instr} (h : a.Grows b) (hq : a.code? q = some is) :
    ∃ js, b.code? q = some (is ++ js) := by
  obtain ⟨r, hr, hcode⟩ := Option.bind_eq_some_iff.mp hq
  obtain ⟨r', hr', hg⟩ := h _ r hr
  obtain ⟨js, hjs⟩ := hg.code _ is hcode
  exact ⟨js, by rw [Assembly.code?, hr', Option.bind_some, hjs]⟩

end Assembly.Grows

end Code

theorem Code.Assembly.Grows.steps : AssemblySteps Assembly.Grows where
  refl := .refl
  trans := .trans
  takeName {_ n r} hr := .setRoutine hr (show r.name = n from Assembly.routine?_name hr)
    (.takeName r)
  withInstr := .withInstr
  withBlock {_ r name} hr := .setRoutine hr rfl (.addBlock r name)
  add hi _ := .add hi

/-- A computation that only appends, even where it fails. -/
def Appends {α : Type} (g : Gen α) : Prop :=
  ∀ s : Session, s.assembly.Grows (g.run s).2.assembly

theorem appends : ClosedImports Appends := Assembly.Grows.steps.closed

end LimeLang
