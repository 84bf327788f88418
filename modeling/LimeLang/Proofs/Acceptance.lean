import LimeLang.Proofs.ControlFlow

/-! Values that are computed before they are used. A slot is made while all other blocks are closed,
so control gets to later blocks only through the block of the slot. -/

namespace LimeLang

open Code

namespace Code.Routine

variable {r : Routine} {A b : String} {S : List String}

/-- When control stops at `A`, it does not leave a set of blocks that only `A` leads out of. -/
theorem explore_subset (h : ∀ B ∈ S, B ≠ A → r.targetsOf B ⊆ A :: S) {fuel : Nat}
    {pending seen : List String} (hA : A ∈ seen) (hp : pending ⊆ A :: S) (hs : seen ⊆ A :: S) :
    r.explore fuel pending seen ⊆ A :: S := by
  induction fuel generalizing pending seen with
  | zero => exact hs
  | succ fuel ih =>
    cases pending with
    | nil => exact hs
    | cons c pending =>
      obtain ⟨hc, hp⟩ := List.cons_subset.mp hp
      rw [explore]
      split
      · exact ih hA hp hs
      · rename_i hseen
        have hne : c ≠ A := fun heq => hseen (by simpa [heq] using hA)
        have hcS : c ∈ S := (List.mem_cons.mp hc).resolve_left hne
        exact ih (List.mem_cons_of_mem _ hA) (List.append_subset.mpr ⟨h c hcS hne, hp⟩)
          (List.cons_subset.mpr ⟨hc, hs⟩)

theorem dominates_of_closed {entry : Block} {bs : List Block} (hblocks : r.blocks = entry :: bs)
    (hentry : entry.name ∈ A :: S) (h : ∀ B ∈ S, B ≠ A → r.targetsOf B ⊆ A :: S) (hb : b ∉ A :: S) :
    r.dominates A b = true := by
  have hsub : r.explore (2 + (r.blocks.flatMap Block.targets).length) [entry.name] [A] ⊆ A :: S :=
    explore_subset h (List.mem_singleton_self A) (by simpa using hentry) (by simp)
  have hreached : b ∉ r.reached [A] := by
    rw [reached, hblocks]
    rw [hblocks] at hsub
    exact fun hmem => hb (hsub hmem)
  simp [dominates, hreached]

end Code.Routine

/-- Only block `A` leads out of the blocks `S`, and control starts in one of them. -/
structure Barrier (a : Assembly) (ρ A : String) (S : List String) : Prop where
  entry : ∃ r entry bs, a.routine? ρ = some r ∧ r.blocks = entry :: bs ∧ entry.name ∈ A :: S
  block : (a.code? ⟨ρ, A⟩).isSome = true
  closed : ∀ B ∈ S, B ≠ A → ∃ is, a.code? ⟨ρ, B⟩ = some is ∧ endsOnce is = true ∧
    ∀ i ∈ is, i.op.targets ⊆ A :: S

def ComputedIn (a : Assembly) (ρ A name : String) (t : Ty) : Prop :=
  ∃ is, a.code? ⟨ρ, A⟩ = some is ∧ ∃ i ∈ is, i.defines name t = true

/-- A value is at hand behind the instructions `before` of a block. -/
def AtHand (a : Assembly) (q : Place) (before : List Instr) (name : String) (t : Ty) : Prop :=
  (∃ r, a.routine? q.routine = some r ∧ (name, t) ∈ r.params) ∨
    (∃ i ∈ before, i.defines name t = true) ∨
      ∃ A S, Barrier a q.routine A S ∧ ComputedIn a q.routine A name t ∧ q.block ∉ A :: S

/-- All instructions are typed, in routines that give integers, and use what is at hand. -/
def Accepted (a : Assembly) : Prop :=
  ∀ q before i behind, a.code? q = some (before ++ i :: behind) →
    i.op.isTyped .i32 = true ∧ ∀ name t, .result name t ∈ i.op.operands → AtHand a q before name t

def Sees (a : Assembly) (q : Place) (name : String) : Prop :=
  ∃ A S, Barrier a q.routine A S ∧ ComputedIn a q.routine A name (.pointer .i32) ∧
    (q.block = A ∨ q.block ∉ A :: S)

section Growing

variable {a b : Assembly} {opens : List Place} {ρ A name : String} {S : List String} {q : Place}
  {t : Ty}

theorem WellFormed.code_closed (hb : WellFormed opens b) {is js : List Instr}
    (hq : b.code? q = some (is ++ js)) (his : endsOnce is = true) : js = [] := by
  by_contra hjs
  obtain ⟨i, hi, hend⟩ := List.any_eq_true.mp (endsOnce_any his)
  have hmem : i ∈ (is ++ js).dropLast := by
    rw [List.dropLast_append_of_ne_nil hjs]
    exact List.mem_append_left _ hi
  simp [hb.not_behind hq i hmem] at hend

theorem Barrier.grows (h : Barrier a ρ A S) (hg : a.Grows b) (hb : WellFormed opens b) :
    Barrier b ρ A S where
  entry := by
    obtain ⟨r, entry, bs, hr, hblocks, hentry⟩ := h.entry
    obtain ⟨r', hr', hgrow⟩ := hg ρ r hr
    obtain ⟨entry', bs', hblocks', hname⟩ := hgrow.entry hblocks
    exact ⟨r', entry', bs', hr', hblocks', hname ▸ hentry⟩
  block := by
    obtain ⟨is, his⟩ := Option.isSome_iff_exists.mp h.block
    obtain ⟨js, hjs⟩ := hg.code his
    simp [hjs]
  closed := by
    intro B hB hne
    obtain ⟨is, his, hends, htargets⟩ := h.closed B hB hne
    obtain ⟨js, hjs⟩ := hg.code his
    obtain rfl := hb.code_closed hjs hends
    exact ⟨is, by rwa [List.append_nil] at hjs, hends, htargets⟩

theorem ComputedIn.grows (h : ComputedIn a ρ A name t) (hg : a.Grows b) :
    ComputedIn b ρ A name t := by
  obtain ⟨is, his, i, hi, hdef⟩ := h
  obtain ⟨js, hjs⟩ := hg.code his
  exact ⟨is ++ js, hjs, i, List.mem_append_left _ hi, hdef⟩

theorem Sees.grows (h : Sees a q name) (hg : a.Grows b) (hb : WellFormed opens b) :
    Sees b q name := by
  obtain ⟨A, S, hbarrier, hcomputed, hq⟩ := h
  exact ⟨A, S, hbarrier.grows hg hb, hcomputed.grows hg, hq⟩

theorem Barrier.mem_code (h : Barrier a ρ A S) {B : String} (hB : B ∈ A :: S) :
    (a.code? ⟨ρ, B⟩).isSome = true := by
  by_cases hBA : B = A
  · exact hBA ▸ h.block
  · obtain ⟨is, his, -⟩ := h.closed B ((List.mem_cons.mp hB).resolve_left hBA) hBA
    simp [his]

theorem Sees.new {p : Place} (h : Sees a p name) (hp : q.routine = p.routine)
    (hq : a.code? q = none) : Sees a q name := by
  obtain ⟨A, S, hbarrier, hcomputed, -⟩ := h
  rw [← hp] at hbarrier hcomputed
  refine ⟨A, S, hbarrier, hcomputed, .inr fun hmem => ?_⟩
  have hsome := hbarrier.mem_code hmem
  simp [hq] at hsome

theorem AtHand.grows {before : List Instr} (h : AtHand a q before name t) (hg : a.Grows b)
    (hb : WellFormed opens b) : AtHand b q before name t := by
  rcases h with ⟨r, hr, hmem⟩ | h | ⟨A, S, hbarrier, hcomputed, hq⟩
  · obtain ⟨r', hr', hgrow⟩ := hg _ r hr
    exact .inl ⟨r', hr', by rwa [hgrow.params]⟩
  · exact .inr (.inl h)
  · exact .inr (.inr ⟨A, S, hbarrier.grows hg hb, hcomputed.grows hg, hq⟩)

theorem Sees.atHand {before : List Instr} (h : Sees a q name) (hq : a.code? q = some before) :
    AtHand a q before name (.pointer .i32) := by
  obtain ⟨A, S, hbarrier, hcomputed, hA | hA⟩ := h
  · obtain ⟨is, his, hi⟩ := hcomputed
    rw [← hA, hq] at his
    exact .inr (.inl (Option.some.inj his ▸ hi))
  · exact .inr (.inr ⟨A, S, hbarrier, hcomputed, hA⟩)

end Growing

/-- Instructions that are typed and use what is known before them or computed among them. -/
def Fits (known : String → Ty → Prop) : List Instr → Prop
  | [] => True
  | i :: is => i.op.isTyped .i32 = true ∧
    (∀ name t, .result name t ∈ i.op.operands → known name t) ∧
    Fits (fun name t => known name t ∨ i.defines name t = true) is

def KnownAfter (known : String → Ty → Prop) (is : List Instr) (name : String) (t : Ty) : Prop :=
  known name t ∨ ∃ i ∈ is, i.defines name t = true

section Fitting

variable {known known' : String → Ty → Prop} {is js : List Instr}

theorem Fits.mono (h : Fits known is) (hk : ∀ name t, known name t → known' name t) :
    Fits known' is := by
  induction is generalizing known known' with
  | nil => trivial
  | cons i is ih =>
    obtain ⟨hty, hops, hrest⟩ := h
    exact ⟨hty, fun name t hmem => hk _ _ (hops name t hmem),
      ih hrest fun name t hkn => hkn.imp (hk name t) id⟩

theorem Fits.append (h : Fits known is) (h' : Fits (KnownAfter known is) js) :
    Fits known (is ++ js) := by
  induction is generalizing known with
  | nil => exact h'.mono fun name t hkn => hkn.resolve_right (by simp)
  | cons i is ih =>
    obtain ⟨hty, hops, hrest⟩ := h
    refine ⟨hty, hops, ih hrest (h'.mono ?_)⟩
    rintro name t (hkn | ⟨j, hj, hdef⟩)
    · exact .inl (.inl hkn)
    · rcases List.mem_cons.mp hj with rfl | hj
      · exact .inl (.inr hdef)
      · exact .inr ⟨j, hj, hdef⟩

theorem Fits.split (h : Fits known is) {before behind : List Instr} {i : Instr}
    (his : is = before ++ i :: behind) : i.op.isTyped .i32 = true ∧
      ∀ name t, .result name t ∈ i.op.operands → KnownAfter known before name t := by
  induction before generalizing known is with
  | nil =>
    subst his
    exact ⟨h.1, fun name t hmem => .inl (h.2.1 name t hmem)⟩
  | cons j before ih =>
    subst his
    obtain ⟨-, -, hrest⟩ := h
    obtain ⟨hty, hops⟩ := ih hrest rfl
    refine ⟨hty, fun name t hmem => ?_⟩
    rcases hops name t hmem with (hkn | hdef) | ⟨k, hk, hdef⟩
    · exact .inl hkn
    · exact .inr ⟨j, List.mem_cons_self, hdef⟩
    · exact .inr ⟨k, List.mem_cons_of_mem _ hk, hdef⟩

end Fitting

section Accepting

variable {a b : Assembly} {opens : List Place} {p : Place}

theorem AtHand.behind {q : Place} {before more : List Instr} {name : String} {t : Ty}
    (h : KnownAfter (AtHand a q before) more name t) : AtHand a q (before ++ more) name t := by
  rcases h with (h | ⟨i, hi, hdef⟩ | h) | ⟨i, hi, hdef⟩
  · exact .inl h
  · exact .inr (.inl ⟨i, List.mem_append_left _ hi, hdef⟩)
  · exact .inr (.inr h)
  · exact .inr (.inl ⟨i, List.mem_append_right _ hi, hdef⟩)

theorem Accepted.append {is old : List Instr} (ha : Accepted a) (hg : a.Grows b)
    (hb : WellFormed opens b) (hp : a.code? p = some old)
    (hcode : ∀ q, b.code? q = if q = p then some (old ++ is) else a.code? q)
    (hfits : Fits (AtHand b p old) is) : Accepted b := by
  intro q before i behind hq
  rw [hcode] at hq
  split_ifs at hq with heq
  · subst heq
    have hlist := Option.some.inj hq
    rcases List.append_eq_append_iff.mp hlist with ⟨c, hc, hc'⟩ | ⟨c, hc, hc'⟩
    · obtain ⟨hty, hops⟩ := hfits.split hc'
      exact ⟨hty, fun name t hmem => hc ▸ .behind (hops name t hmem)⟩
    · cases c with
      | nil =>
        have hsplit : is = [] ++ i :: behind := hc'.symm
        obtain ⟨hty, hops⟩ := hfits.split hsplit
        rw [List.append_nil] at hc
        refine ⟨hty, fun name t hmem => ?_⟩
        have hh := AtHand.behind (hops name t hmem)
        rwa [List.append_nil, hc] at hh
      | cons j c =>
        obtain ⟨rfl, -⟩ := List.cons.inj hc'
        obtain ⟨hty, hops⟩ := ha q before i c (by rw [hp, hc])
        exact ⟨hty, fun name t hmem => (hops name t hmem).grows hg hb⟩
  · obtain ⟨hty, hops⟩ := ha q before i behind hq
    exact ⟨hty, fun name t hmem => (hops name t hmem).grows hg hb⟩

theorem Accepted.of_code (ha : Accepted a) (hg : a.Grows b) (hb : WellFormed opens b)
    (hcode : ∀ q is, b.code? q = some is → is = [] ∨ a.code? q = some is) : Accepted b := by
  intro q before i behind hq
  rcases hcode q _ hq with h | h
  · simp at h
  · obtain ⟨hty, hops⟩ := ha q before i behind h
    exact ⟨hty, fun name t hmem => (hops name t hmem).grows hg hb⟩

theorem sees_of_alloca {name : String} {is : List Instr} (hwf : WellFormed [p] a)
    (hcode : a.code? p = some is) (hmem : ⟨name, .alloca .i32⟩ ∈ is) : Sees a p name := by
  have hblock := hcode
  obtain ⟨r, hr, hc⟩ := Option.bind_eq_some_iff.mp hblock
  obtain ⟨c, hc, rfl⟩ := Option.map_eq_some_iff.mp hc
  have hname : r.name = p.routine := Assembly.routine?_name hr
  have hitem := Assembly.mem_of_routine? hr
  refine ⟨p.block, r.blocks.map Block.name, ⟨?_, by simp [hcode], ?_⟩,
    ⟨c.instrs, hcode, _, hmem, by simp [Instr.defines, Op.ty]⟩, .inl rfl⟩
  · cases hb : r.blocks with
    | nil => simp [Routine.block?, hb] at hc
    | cons entry bs => exact ⟨r, entry, bs, hr, hb, by simp⟩
  · intro B hB hne
    obtain ⟨d, hd, rfl⟩ := List.mem_map.mp hB
    have hd' : a.code? ⟨p.routine, d.name⟩ = some d.instrs :=
      hname ▸ hwf.sound.code?_of_mem hitem hd
    have hnot : (⟨p.routine, d.name⟩ : Place) ∉ [p] := by
      rw [List.mem_singleton]
      exact fun heq => hne (heq ▸ rfl)
    refine ⟨d.instrs, hd', hwf.closed _ _ hd' hnot, fun i hi t ht => ?_⟩
    have hsome := hwf.targets _ _ hd' i hi t ht
    rw [Assembly.code?, hr, Option.bind_some, Option.isSome_map] at hsome
    obtain ⟨e, he⟩ := Option.isSome_iff_exists.mp hsome
    have ht' : e.name = t := Routine.block?_name he
    exact List.mem_cons_of_mem _ (List.mem_map.mpr ⟨e, List.mem_of_find?_eq_some he, ht'⟩)

end Accepting

section Checking

variable {a : Assembly} {r : Routine}

theorem checkInstrs_of_split {b : String} {before is : List Instr}
    (h : ∀ pre i post, is = pre ++ i :: post → i.op.isTyped r.result = true ∧
      (∀ x ∈ i.op.operands, r.isUsable b (pre.reverse ++ before) x = true) ∧
      ∀ t ∈ i.op.targets, (r.block? t).isSome = true) : r.checkInstrs b before is = true := by
  induction is generalizing before with
  | nil => rfl
  | cons i is ih =>
    obtain ⟨hty, hops, htargets⟩ := h [] i is rfl
    have hrest : r.checkInstrs b (i :: before) is = true := by
      refine ih fun pre j post his => ?_
      have hh := h (i :: pre) j post (by rw [his]; rfl)
      simpa using hh
    simp only [Routine.checkInstrs, Bool.and_eq_true, List.all_eq_true]
    exact ⟨⟨⟨hty, hops⟩, htargets⟩, hrest⟩

theorem AtHand.isAtHand {b : String} {before pre : List Instr} {name : String} {t : Ty}
    (h : AtHand a ⟨r.name, b⟩ pre name t) (hr : a.routine? r.name = some r) (hpre : pre ⊆ before) :
    r.isAtHand b before name t = true := by
  simp only [Routine.isAtHand, Bool.or_eq_true, List.any_eq_true]
  rcases h with ⟨r', hr', hmem⟩ | ⟨i, hi, hdef⟩ | ⟨A, S, hbarrier, ⟨is, his, i, hi, hdef⟩, hb⟩
  · obtain rfl := Option.some.inj (hr.symm.trans hr')
    exact .inl (.inl (by simpa using hmem))
  · exact .inl (.inr ⟨i, hpre hi, hdef⟩)
  · have hblock : ∀ B js, a.code? ⟨r.name, B⟩ = some js → ∃ c, r.block? B = some c ∧
        c.instrs = js := by
      intro B js hjs
      rwa [Assembly.code?, hr, Option.bind_some, Option.map_eq_some_iff] at hjs
    obtain ⟨r', entry, bs, hr', hblocks, hentry⟩ := hbarrier.entry
    obtain rfl := Option.some.inj (hr.symm.trans hr')
    obtain ⟨c, hc, rfl⟩ := hblock A is his
    have hname := Routine.block?_name hc
    have hne : A ≠ b := fun heq => hb (heq ▸ List.mem_cons_self)
    have hdom : r.dominates A b = true := by
      refine Routine.dominates_of_closed hblocks hentry (fun B hB hBA => ?_) hb
      obtain ⟨js, hjs, -, htargets⟩ := hbarrier.closed B hB hBA
      obtain ⟨d, hd, rfl⟩ := hblock B js hjs
      rw [Routine.targetsOf, hd]
      intro t ht
      obtain ⟨j, hj, ht⟩ := List.mem_flatMap.mp ht
      exact htargets j hj ht
    refine .inr ⟨c, List.mem_of_find?_eq_some hc, ?_⟩
    have hdefines : c.defines name t = true := List.any_eq_true.mpr ⟨i, hi, hdef⟩
    simp [hdefines, hname, hne, hdom]

theorem Accepted.isAccepted (h : Accepted a) (hwf : WellFormed [] a)
    (hresult : ∀ r, .routine r ∈ a.items → r.blocks ≠ [] → r.result = .i32)
    (hconst : ∀ c, .constant c ∈ a.items → c.isAccepted = true) : a.isAccepted = true := by
  rw [Assembly.isAccepted, List.all_eq_true]
  intro item hitem
  cases item with
  | constant c => exact hconst c hitem
  | routine r =>
    rw [Item.isAccepted, Routine.isAccepted, List.all_eq_true]
    intro b hb
    obtain ⟨hclosed, htargets⟩ := hwf.isClosedFlow r hitem b hb
    have hcode := hwf.sound.code?_of_mem hitem hb
    have hr := hwf.sound.routine?_of_mem hitem
    rw [Bool.and_eq_true]
    refine ⟨hclosed, checkInstrs_of_split fun pre i post hsplit => ?_⟩
    obtain ⟨hty, hops⟩ := h ⟨r.name, b.name⟩ pre i post (by rw [hcode, hsplit])
    refine ⟨?_, fun x hx => ?_, fun t ht => htargets t ?_⟩
    · rwa [hresult r hitem (List.ne_nil_of_mem hb)]
    · cases x with
      | result name t => exact (hops name t hx).isAtHand hr (by simp)
      | _ => rfl
    · rw [Block.targets, List.mem_flatMap]
      exact ⟨i, by simp [hsplit], ht⟩

end Checking

end LimeLang
