import LimeLang.Code.Instr
import Mathlib.Data.List.Nodup
import Mathlib.Data.List.Perm.Subperm

/-! Names that a routine hands out are new: among a name and its numbered forms, one more than
there are names in use, one is free. -/

namespace LimeLang.Code.Names

theorem repr_injective {m n : Nat} (h : m.repr = n.repr) : m = n := by
  rw [Nat.repr_eq_ofList_toDigits, Nat.repr_eq_ofList_toDigits, String.ofList_inj] at h
  rw [← Nat.ofDigitChars_ten_toDigits (n := m), h, Nat.ofDigitChars_ten_toDigits]

theorem numbered_injective {base : String} {m n : Nat} (h : numbered base m = numbered base n) :
    m = n := by
  simp only [numbered, String.append_right_inj] at h
  exact repr_injective h

theorem numbered_ne (base : String) (n : Nat) : base ≠ numbered base n := by
  intro h
  have hl := congrArg String.length h
  simp only [numbered, String.length_append] at hl
  have : ".".length = 1 := rfl
  omega

theorem dot_mem_numbered (base : String) (n : Nat) : '.' ∈ (numbered base n).toList := by
  simp [numbered]

theorem count_setCount (s : Names) (base : String) (n : Nat) :
    (s.setCount base n).count base = n := by
  simp [setCount, count]

theorem used_deduplicate (fuel : Nat) (s : Names) (base name : String) :
    (deduplicate fuel s base name).2.used = s.used := by
  induction fuel generalizing s name with
  | zero => rfl
  | succ fuel ih =>
    rw [deduplicate]
    split
    · exact ih _ _
    · rfl

/-- Names are tried in order, so if the one that is given is in use then all of them are. -/
theorem deduplicate_used {fuel : Nat} {s : Names} {base name : String}
    (h : (deduplicate (fuel + 1) s base name).1 ∈ s.used) :
    name ∈ s.used ∧ ∀ k < fuel, numbered base (s.count base + k + 1) ∈ s.used := by
  induction fuel generalizing s name with
  | zero =>
    rw [deduplicate] at h
    split at h
    · rename_i hn
      exact ⟨by simpa using hn, by simp⟩
    · exact ⟨h, by simp⟩
  | succ fuel ih =>
    rw [deduplicate] at h
    split at h
    · rename_i hn
      obtain ⟨hfirst, hrest⟩ := ih h
      refine ⟨by simpa using hn, ?_⟩
      intro k hk
      cases k with
      | zero => exact hfirst
      | succ k =>
        have hh := hrest k (by omega)
        rw [count_setCount] at hh
        rwa [show s.count base + (k + 1) + 1 = s.count base + 1 + k + 1 by omega]
    · rename_i hn
      exact absurd h (by simpa using hn)

def tries (s : Names) (base : String) : List String :=
  base :: (List.range s.used.length).map fun k => numbered base (s.count base + k + 1)

theorem tries_nodup (s : Names) (base : String) : (s.tries base).Nodup := by
  refine List.nodup_cons.mpr ⟨?_, ?_⟩
  · intro h
    obtain ⟨k, _, hk⟩ := List.mem_map.mp h
    exact numbered_ne _ _ hk.symm
  · refine List.Nodup.map ?_ List.nodup_range
    intro j k hjk
    have := numbered_injective hjk
    omega

theorem register_fresh (s : Names) (base : String) : (s.register base).1 ∉ s.used := by
  intro h
  obtain ⟨hbase, hnumbered⟩ := deduplicate_used h
  have hsub : s.tries base ⊆ s.used := by
    intro name hname
    rcases List.mem_cons.mp hname with rfl | hname
    · exact hbase
    · obtain ⟨k, hk, rfl⟩ := List.mem_map.mp hname
      exact hnumbered k (List.mem_range.mp hk)
  have hlen := (List.subperm_of_subset (s.tries_nodup base) hsub).length_le
  simp only [tries, List.length_cons, List.length_map, List.length_range] at hlen
  omega

theorem deduplicate_cases (fuel : Nat) (s : Names) (base name : String) :
    (deduplicate fuel s base name).1 = name ∨
      ∃ n, (deduplicate fuel s base name).1 = numbered base n := by
  induction fuel generalizing s name with
  | zero => exact .inl rfl
  | succ fuel ih =>
    rw [deduplicate]
    split
    · rcases ih (s.setCount base (s.count base + 1)) (numbered base (s.count base + 1)) with h | h
      · exact .inr ⟨_, h⟩
      · exact .inr h
    · exact .inl rfl

theorem register_cases (s : Names) (base : String) :
    (s.register base).1 = base ∨ '.' ∈ (s.register base).1.toList := by
  rcases deduplicate_cases (s.used.length + 1) s base base with h | ⟨n, h⟩
  · exact .inl h
  · refine .inr ?_
    rw [show (s.register base).1 = numbered base n from h]
    exact dot_mem_numbered base n

theorem register_new {s : Names} {base : String} (h : base ∉ s.used) :
    (s.register base).1 = base := by
  simp [register, deduplicate, h]

@[simp] theorem register_used (s : Names) (base : String) :
    (s.register base).2.used = (s.register base).1 :: s.used := by
  simp only [register, used_deduplicate]

end LimeLang.Code.Names

namespace LimeLang.Code.Routine

theorem takeNames_types (s : Names) (ts : List Ty) : (takeNames s ts).1.map Prod.snd = ts := by
  induction ts generalizing s with
  | nil => rfl
  | cons t ts ih => rw [takeNames, List.map_cons, ih]

theorem takeNames_used (s : Names) (ts : List Ty) : (takeNames s ts).2.used =
    ((takeNames s ts).1.map Prod.fst).reverse ++ s.used := by
  induction ts generalizing s with
  | nil => rfl
  | cons t ts ih =>
    rw [takeNames, List.map_cons, List.reverse_cons, ih, s.register_used]
    simp

theorem takeNames_nodup (s : Names) (ts : List Ty) :
    ((takeNames s ts).1.map Prod.fst).Nodup ∧
      ∀ n ∈ (takeNames s ts).1.map Prod.fst, n ∉ s.used := by
  induction ts generalizing s with
  | nil => exact ⟨List.nodup_nil, by simp [takeNames]⟩
  | cons t ts ih =>
    have hfresh := s.register_fresh ""
    obtain ⟨hnodup, hapart⟩ := ih (s.register "").2
    rw [s.register_used] at hapart
    rw [takeNames, List.map_cons]
    refine ⟨List.nodup_cons.mpr ⟨fun hm => hapart _ hm List.mem_cons_self, hnodup⟩, fun n hn => ?_⟩
    rcases List.mem_cons.mp hn with rfl | hn
    · exact hfresh
    · exact fun hused => hapart n hn (List.mem_cons_of_mem _ hused)

theorem takeNames_dotted (s : Names) (ts : List Ty) (h : ∀ x ∈ s.used, x = "" ∨ '.' ∈ x.toList) :
    ∀ x ∈ (takeNames s ts).2.used, x = "" ∨ '.' ∈ x.toList := by
  induction ts generalizing s with
  | nil => exact h
  | cons t ts ih =>
    refine ih _ fun x hx => ?_
    rw [s.register_used] at hx
    rcases List.mem_cons.mp hx with rfl | hx
    · exact s.register_cases ""
    · exact h x hx

theorem declare_dotted (name : String) (result : Ty) (params : List Ty) (variadic : Bool) :
    ∀ x ∈ (declare name result params variadic).names.used, x = "" ∨ '.' ∈ x.toList := by
  intro x hx
  have hparams := takeNames_dotted .initial params (by simp [Names.initial])
  rw [declare, Names.register_used] at hx
  rcases List.mem_cons.mp hx with rfl | hx
  · exact Names.register_cases _ ""
  · exact hparams x hx

end LimeLang.Code.Routine
