import LimeLang.Proofs.ExactDecimal
import LimeLang.Proofs.LexemeClass

/-! The shortest decimal of a floating point number rounds back to the number. Every decimal in a
number's neighbourhood does, and a decimal of 17 digits can always be found there. -/

namespace LimeLang.Number

variable {d : Decimal} {c : Char} {q : Int}

theorem zpow_eq_div {b : Nat} (hb : 0 < b) (k : Int) :
    (b : ℚ) ^ k = ((b ^ k.toNat : Nat) : ℚ) / (b ^ (-k).toNat : Nat) := by
  have hb' : (b : ℚ) ≠ 0 := by exact_mod_cast hb.ne'
  obtain ⟨n, rfl | rfl⟩ := Int.eq_nat_or_neg k <;> simp

/-- Products with powers of two bases are compared in whole numbers. -/
theorem mul_zpow_le_iff {a b : Nat} (ha : 0 < a) (hb : 0 < b) (m n : Nat) (s t : Int) :
    (m : ℚ) * (a : ℚ) ^ s ≤ n * (b : ℚ) ^ t ↔
      m * a ^ s.toNat * b ^ (-t).toNat ≤ n * b ^ t.toNat * a ^ (-s).toNat := by
  have hs : (0 : ℚ) < (a ^ (-s).toNat : Nat) := by exact_mod_cast Nat.pow_pos ha
  have ht : (0 : ℚ) < (b ^ (-t).toNat : Nat) := by exact_mod_cast Nat.pow_pos hb
  rw [zpow_eq_div ha, zpow_eq_div hb, ← mul_div_assoc, ← mul_div_assoc, div_le_div_iff₀ hs ht]
  exact_mod_cast Iff.rfl

theorem mul_zpow_lt_iff {a b : Nat} (ha : 0 < a) (hb : 0 < b) (m n : Nat) (s t : Int) :
    (m : ℚ) * (a : ℚ) ^ s < n * (b : ℚ) ^ t ↔
      m * a ^ s.toNat * b ^ (-t).toNat < n * b ^ t.toNat * a ^ (-s).toNat := by
  rw [← not_le, ← not_le, mul_zpow_le_iff hb ha]

def Decimal.value (d : Decimal) : ℚ := d.digits * 10 ^ d.scale

/-- The number lies in the interval, and inside of it if the interval is open. -/
structure Neighbourhood.Holds (h : Neighbourhood) (v : ℚ) : Prop where
  low : (h.low : ℚ) * 2 ^ h.unit ≤ v
  high : v ≤ h.high * 2 ^ h.unit
  inner : h.closed = false → (h.low : ℚ) * 2 ^ h.unit < v ∧ v < h.high * 2 ^ h.unit

namespace Neighbourhood

variable {h : Neighbourhood}

theorem Holds.of_lt {v : ℚ} (hlow : (h.low : ℚ) * 2 ^ h.unit < v)
    (hhigh : v < h.high * 2 ^ h.unit) : h.Holds v :=
  ⟨hlow.le, hhigh.le, fun _ => ⟨hlow, hhigh⟩⟩

theorem contains_iff {c : Nat} {s : Int} :
    h.contains c s = true ↔ h.Holds (Decimal.value ⟨c, s⟩) := by
  have hle := fun m n s t => @mul_zpow_le_iff 2 10 (by decide) (by decide) m n s t
  have hge := fun m n s t => @mul_zpow_le_iff 10 2 (by decide) (by decide) m n s t
  have hlt := fun m n s t => @mul_zpow_lt_iff 2 10 (by decide) (by decide) m n s t
  have hgt := fun m n s t => @mul_zpow_lt_iff 10 2 (by decide) (by decide) m n s t
  push_cast at hle hge hlt hgt
  simp only [contains]
  by_cases hclosed : h.closed = true
  · rw [if_pos hclosed, Bool.and_eq_true, decide_eq_true_iff, decide_eq_true_iff]
    simp only [num, den, Decimal.value, ← hle, ← hge]
    exact ⟨fun hv => ⟨hv.1, hv.2, fun hopen => by simp [hclosed] at hopen⟩, fun hv =>
      ⟨hv.low, hv.high⟩⟩
  · rw [if_neg hclosed, Bool.and_eq_true, decide_eq_true_iff, decide_eq_true_iff]
    simp only [num, den, Decimal.value, ← hlt, ← hgt]
    exact ⟨fun hv => .of_lt hv.1 hv.2, fun hv => hv.inner (by simpa using hclosed)⟩

theorem roundDiv_eq_or (a b : Nat) : roundDiv a b = a / b ∨ roundDiv a b = a / b + 1 := by
  simp only [roundDiv]
  split
  · exact .inl rfl
  · split
    · exact .inr rfl
    · omega

theorem candidate?_holds {n : Nat} (hd : h.candidate? n = some d) : h.Holds d.value := by
  simp only [candidate?] at hd
  split at hd
  · rename_i hc hc'
    cases hd
    rcases roundDiv_eq_or _ _ with hr | hr
    · rw [hr]
      exact contains_iff.mp hc
    · rw [hr]
      exact contains_iff.mp hc'
  · rename_i hc _
    cases hd
    exact contains_iff.mp hc
  · rename_i _ hc
    cases hd
    exact contains_iff.mp hc
  · cases hd

end Neighbourhood

theorem Decimal.value_trim (n : Nat) (d : Decimal) : (d.trim n).value = d.value := by
  induction n generalizing d with
  | zero => rfl
  | succ n ih =>
    rw [trim]
    split
    · rename_i h
      have hdigits : d.digits = d.digits / 10 * 10 := by omega
      rw [ih, value, value, hdigits]
      simp only [Nat.mul_div_cancel _ (show 0 < 10 by decide)]
      rw [zpow_add₀ (by norm_num)]
      push_cast
      ring
    · rfl

theorem ten_pow_length_toDigits_le {n : Nat} (hn : 0 < n) :
    10 ^ ((Nat.toDigits 10 n).length - 1) ≤ n := by
  have hlength := Nat.length_toDigits_pos (b := 10) (n := n)
  by_contra hlt
  rcases Nat.eq_zero_or_pos ((Nat.toDigits 10 n).length - 1) with hone | hmore
  · rw [hone] at hlt
    omega
  · have := (Nat.length_toDigits_le_iff (by decide) hmore).mpr (not_le.mp hlt)
    omega

theorem ten_zpow_decimalPoint_le {num den : Nat} (hn : 0 < num) (hd : 0 < den) :
    (10 : ℚ) ^ (decimalPoint num den - 1) ≤ num / den := by
  have hd' : (0 : ℚ) < den := by exact_mod_cast hd
  have hpos := Nat.length_toDigits_pos (b := 10) (n := num)
  simp only [decimalPoint]
  split
  · have hnum : (10 : ℚ) ^ (((Nat.toDigits 10 num).length : Int) - 1) ≤ num := by
      rw [show ((Nat.toDigits 10 num).length : Int) -
        1 = ((Nat.toDigits 10 num).length - 1 : Nat) by omega, zpow_natCast]
      exact_mod_cast ten_pow_length_toDigits_le hn
    have hden : (den : ℚ) ≤ 10 ^ ((Nat.toDigits 10 den).length : Int) := by
      rw [zpow_natCast]
      exact_mod_cast ((Nat.length_toDigits_le_iff (by decide) Nat.length_toDigits_pos).mp le_rfl).le
    rw [sub_right_comm, zpow_sub₀ (by norm_num)]
    exact div_le_div₀ (Nat.cast_nonneg num) hnum hd' hden
  · rename_i h
    rw [add_sub_cancel_right, le_div_iff₀ hd', mul_comm]
    have hle := @mul_zpow_le_iff 10 10 (by decide) (by decide) den num
      (((Nat.toDigits 10 num).length : Int) - (Nat.toDigits 10 den).length) 0
    push_cast at hle
    simp only [mul_one] at hle
    exact hle.mpr (not_lt.mp h)

/-- Of two neighbouring decimals of 17 digits around a number, one rounds to it. The steps between
such decimals are narrower than the neighbourhood, and where its lower half is narrow they are
narrower than its upper half. -/
theorem holds_or_holds_succ {m c : Nat} {t : ℚ} (hc : Format.double.Canonical m q) (hm : 0 < m)
    (ht : 10 ^ 16 * t ≤ 4 * m * 2 ^ (q - 2)) (hlow : c * t ≤ 4 * m * 2 ^ (q - 2))
    (hhigh : 4 * m * 2 ^ (q - 2) < (c + 1) * t) :
    (neighbourhood Format.double m q).Holds (c * t) ∨
      (neighbourhood Format.double m q).Holds ((c + 1) * t) := by
  have hu : (0 : ℚ) < 2 ^ (q - 2) := zpow_pos two_pos _
  have htop : (((neighbourhood Format.double m q).high : Nat) : ℚ) = 4 * m + 2 := by
    simp [neighbourhood]
  by_cases hnarrow : m = 2 ^ Format.double.fractionBits ∧ Format.double.minScale < q
  · have hm' : (m : ℚ) = 2 ^ 52 := by exact_mod_cast hnarrow.1
    have hbottom : (((neighbourhood Format.double m q).low : Nat) : ℚ) = 4 * m - 1 := by
      simp only [neighbourhood, if_pos hnarrow]
      push_cast [Nat.cast_sub (show 1 ≤ 4 * m by omega)]
      ring
    refine .inr (.of_lt ?_ ?_)
    · rw [hbottom]
      change (4 * (m : ℚ) - 1) * 2 ^ (q - 2) < _
      linarith
    · rw [htop]
      change _ < (4 * (m : ℚ) + 2) * 2 ^ (q - 2)
      rw [hm'] at ht hlow ⊢
      linarith
  · have hsmall : (m : ℚ) * 2 ^ (q - 2) < 2 ^ 53 * 2 ^ (q - 2) :=
      mul_lt_mul_of_pos_right (by exact_mod_cast hc.small) hu
    have hbottom : (((neighbourhood Format.double m q).low : Nat) : ℚ) = 4 * m - 2 := by
      simp only [neighbourhood, if_neg hnarrow]
      push_cast [Nat.cast_sub (show 2 ≤ 4 * m by omega)]
      ring
    by_cases hnext : (c + 1) * t < (4 * m + 2) * 2 ^ (q - 2)
    · refine .inr (.of_lt ?_ ?_)
      · rw [hbottom]
        change (4 * (m : ℚ) - 2) * 2 ^ (q - 2) < _
        linarith
      · rw [htop]
        exact hnext
    · refine .inl (.of_lt ?_ ?_)
      · rw [hbottom]
        change (4 * (m : ℚ) - 2) * 2 ^ (q - 2) < _
        linarith
      · rw [htop]
        change _ < (4 * (m : ℚ) + 2) * 2 ^ (q - 2)
        linarith

theorem Neighbourhood.num_div_den (h : Neighbourhood) (n : Nat) :
    ((h.num n : Nat) : ℚ) / h.den = n * 2 ^ h.unit := by
  have h2 := @zpow_eq_div 2 (by decide) h.unit
  push_cast at h2
  rw [h2, num, den]
  push_cast
  ring

theorem candidate?_ne_none {m : Nat} (hc : Format.double.Canonical m q) (hm : 0 < m) :
    (neighbourhood Format.double m q).candidate? 17 ≠ none := by
  intro hnone
  simp only [Neighbourhood.candidate?] at hnone
  split at hnone
  · cases hnone
  · cases hnone
  · cases hnone
  · rename_i hfloor hnext
    set h := neighbourhood Format.double m q with hh
    set s := decimalPoint (h.num h.value) h.den - (17 : Nat) with hs
    set a := h.num h.value * 10 ^ (-s).toNat with ha
    set b := h.den * 10 ^ s.toNat with hb
    have hunit : h.unit = q - 2 := rfl
    have hvalue : ((h.value : Nat) : ℚ) = 4 * m := by simp [hh, neighbourhood]
    have hden : 0 < h.den := Nat.two_pow_pos _
    have hnum : 0 < h.num h.value := Nat.mul_pos (by simp [hh, neighbourhood, hm])
      (Nat.two_pow_pos _)
    have hbpos : 0 < b := Nat.mul_pos hden (Nat.pow_pos (by decide))
    have hlow : ((a / b : Nat) : ℚ) * 10 ^ s ≤ 4 * m * 2 ^ (q - 2) := by
      have hle := (@mul_zpow_le_iff 10 2 (by decide) (by decide) (a / b) h.value s h.unit).mpr
        (by rw [mul_assoc, mul_comm (10 ^ _)]; exact Nat.div_mul_le_self a b)
      rwa [hvalue] at hle
    have hhigh : 4 * m * 2 ^ (q - 2) < (((a / b : Nat) : ℚ) + 1) * 10 ^ s := by
      have hlt := (@mul_zpow_lt_iff 2 10 (by decide) (by decide) h.value (a / b + 1) h.unit s).mpr
        (by rw [mul_assoc (a / b + 1), mul_comm (10 ^ _),
          Nat.succ_mul]; exact Nat.lt_div_mul_add hbpos)
      rw [hvalue] at hlt
      push_cast at hlt
      exact hlt
    have ht : (10 : ℚ) ^ 16 * 10 ^ s ≤ 4 * m * 2 ^ (q - 2) := by
      have hpoint := ten_zpow_decimalPoint_le hnum hden
      rw [h.num_div_den, hvalue, hunit] at hpoint
      rwa [← zpow_natCast, ← zpow_add₀ (by norm_num), hs,
        show ((16 : Nat) : Int) + (decimalPoint (h.num h.value) h.den - (17 : Nat)) =
          decimalPoint (h.num h.value) h.den - 1 by omega]
    rcases holds_or_holds_succ hc hm ht hlow hhigh with hholds | hholds
    · rw [Neighbourhood.contains_iff.mpr hholds] at hfloor
      cases hfloor
    · rw [Neighbourhood.contains_iff.mpr (by simpa [Decimal.value] using hholds)] at hnext
      cases hnext

/-- The shortest decimal lies in the neighbourhood of its number. -/
theorem shortest_holds {m : Nat} (hc : Format.double.Canonical m q) (hm : 0 < m) :
    (neighbourhood Format.double m q).Holds (shortest Format.double m q).value := by
  rw [shortest, if_neg hm.ne']
  simp only [Decimal.value_trim]
  cases hfound : (List.range 17).findSome? fun i =>
      (neighbourhood Format.double m q).candidate? (i + 1) with
  | none =>
    exact absurd (List.findSome?_eq_none_iff.mp hfound 16 (by decide)) (candidate?_ne_none hc hm)
  | some d =>
    obtain ⟨i, -, hi⟩ := List.exists_of_findSome?_eq_some hfound
    exact Neighbourhood.candidate?_holds hi

theorem roundDiv_eq {num den m : Nat} (hd : 0 < den) (hlow : (m : ℚ) - 1 / 2 ≤ num / den)
    (hhigh : (num : ℚ) / den ≤ m + 1 / 2)
    (hodd : m % 2 = 1 → (m : ℚ) - 1 / 2 < num / den ∧ (num : ℚ) / den < m + 1 / 2) :
    roundDiv num den = m := by
  have hd' : (0 : ℚ) < den := by exact_mod_cast hd
  rw [le_div_iff₀ hd'] at hlow
  rw [div_le_iff₀ hd'] at hhigh
  rw [lt_div_iff₀ hd', div_lt_iff₀ hd'] at hodd
  have hl : 2 * (m * den) ≤ 2 * num + den := by
    have : (2 : ℚ) * (m * den) ≤ 2 * num + den := by linarith
    exact_mod_cast this
  have hh : 2 * num ≤ 2 * (m * den) + den := by
    have : (2 : ℚ) * num ≤ 2 * (m * den) + den := by linarith
    exact_mod_cast this
  have ho : m % 2 = 1 → 2 * (m * den) < 2 * num + den ∧ 2 * num < 2 * (m * den) + den := by
    intro hm
    obtain ⟨h1, h2⟩ := hodd hm
    have h1' : (2 : ℚ) * (m * den) < 2 * num + den := by linarith
    have h2' : (2 : ℚ) * num < 2 * (m * den) + den := by linarith
    exact ⟨by exact_mod_cast h1', by exact_mod_cast h2'⟩
  have hdiv := Nat.div_add_mod num den
  have hmod := Nat.mod_lt num hd
  -- Only the two whole numbers around the ratio are within reach.
  have hq : m = num / den ∨ m = num / den + 1 := by
    have h1 : num / den ≤ m := by
      by_contra hlt
      have := Nat.mul_le_mul_right den (show m + 1 ≤ num / den by omega)
      rw [Nat.succ_mul, mul_comm (num / den)] at this
      omega
    have h2 : m ≤ num / den + 1 := by
      by_contra hlt
      have := Nat.mul_le_mul_right den (show num / den + 1 + 1 ≤ m by omega)
      rw [Nat.succ_mul, Nat.succ_mul, mul_comm (num / den)] at this
      omega
    omega
  simp only [roundDiv]
  rcases hq with hq | hq
  · have hm : m * den = den * (num / den) := by rw [hq, mul_comm]
    split_ifs <;> omega
  · have hm : m * den = den * (num / den) + den := by rw [hq, Nat.succ_mul, mul_comm]
    split_ifs <;> omega

theorem scaled_div (num den : Nat) (q : Int) :
    ((num * 2 ^ (-q).toNat : Nat) : ℚ) / (den * 2 ^ q.toNat : Nat) = num / den / 2 ^ q := by
  have h2 := @zpow_eq_div 2 (by decide) q
  push_cast at h2 ⊢
  rw [h2]
  field_simp

section Rounding

variable {f : Format} {m : Nat} {q : Int} {v : ℚ}

/-- A number in the neighbourhood of `m * 2 ^ q` is at most half a unit away, and less if `m` is
odd. -/
theorem Neighbourhood.Holds.near (h : (neighbourhood f m q).Holds v) (hm : 0 < m) :
    (m : ℚ) - 1 / 2 ≤ v / 2 ^ q ∧ v / 2 ^ q ≤ m + 1 / 2 ∧
      (m % 2 = 1 → (m : ℚ) - 1 / 2 < v / 2 ^ q ∧ v / 2 ^ q < m + 1 / 2) := by
  have hu : (0 : ℚ) < 2 ^ (q - 2) := zpow_pos two_pos _
  have hq : (2 : ℚ) ^ q = 4 * 2 ^ (q - 2) := by
    rw [zpow_sub₀ two_ne_zero]
    norm_num
    ring
  have hbottom : 4 * (m : ℚ) - 2 ≤ (neighbourhood f m q).low := by
    have hnat : 4 * m ≤ (neighbourhood f m q).low + 2 := by
      simp only [neighbourhood]
      split <;> omega
    have : 4 * (m : ℚ) ≤ (neighbourhood f m q).low + 2 := by exact_mod_cast hnat
    linarith
  have htop : (((neighbourhood f m q).high : Nat) : ℚ) = 4 * m + 2 := by simp [neighbourhood]
  have hlow := (mul_le_mul_of_nonneg_right hbottom hu.le).trans h.low
  have hhigh := h.high
  rw [htop] at hhigh
  change v ≤ (4 * (m : ℚ) + 2) * 2 ^ (q - 2) at hhigh
  rw [hq]
  refine ⟨?_, ?_, fun hodd => ?_⟩
  · rw [le_div_iff₀ (by positivity)]
    linarith
  · rw [div_le_iff₀ (by positivity)]
    linarith
  · obtain ⟨hl, hh⟩ := h.inner (by simp [neighbourhood, hodd])
    have hl' := (mul_le_mul_of_nonneg_right hbottom hu.le).trans_lt hl
    rw [htop] at hh
    change v < (4 * (m : ℚ) + 2) * 2 ^ (q - 2) at hh
    rw [lt_div_iff₀ (by positivity), div_lt_iff₀ (by positivity)]
    constructor <;> linarith

theorem Neighbourhood.Holds.pos (h : (neighbourhood f m q).Holds v) (hm : 0 < m) : 0 < v := by
  have hnear := (h.near hm).1
  have hm' : (1 : ℚ) ≤ m := by exact_mod_cast hm
  have hpos : 0 < v / 2 ^ q := by linarith
  exact (div_pos_iff_of_pos_right (zpow_pos two_pos q)).mp hpos

theorem Neighbourhood.Holds.lt_top (h : (neighbourhood f m q).Holds v) (hc : f.Canonical m q)
    (hm : 0 < m) : v < 2 ^ (f.fractionBits + 1 + q : Int) := by
  have hq : (0 : ℚ) < 2 ^ q := zpow_pos two_pos q
  have hsmall : (m : ℚ) + 1 ≤ 2 ^ (f.fractionBits + 1) := by exact_mod_cast hc.small
  have hnear := (h.near hm).2.1
  rw [div_le_iff₀ hq] at hnear
  calc v ≤ (m + 1 / 2) * 2 ^ q := hnear
    _ < (m + 1) * 2 ^ q := mul_lt_mul_of_pos_right (by linarith) hq
    _ ≤ 2 ^ (f.fractionBits + 1) * 2 ^ q := mul_le_mul_of_nonneg_right hsmall hq.le
    _ = 2 ^ (f.fractionBits + 1 + q : Int) := by
      rw [zpow_add₀ two_ne_zero]
      norm_cast

/-- Below a power of two lies the only other binade that a neighbourhood reaches into. -/
theorem Neighbourhood.Holds.narrow (h : (neighbourhood f m q).Holds v) (hc : f.Canonical m q)
    (hm : 0 < m) (hq : f.minScale < q) (hv : v < 2 ^ (f.fractionBits + q : Int)) :
    m = 2 ^ f.fractionBits ∧ 2 ^ (f.fractionBits + 1) - 1 / 2 ≤ v / 2 ^ (q - 1) := by
  have hpos : (0 : ℚ) < 2 ^ q := zpow_pos two_pos q
  have hfull := hc.full.resolve_left hq.ne'
  have heq : m = 2 ^ f.fractionBits := by
    by_contra hne
    have hlarge : (2 : ℚ) ^ f.fractionBits + 1 ≤ m := by
      exact_mod_cast Nat.lt_of_le_of_ne hfull (Ne.symm hne)
    have hnear := (h.near hm).1
    rw [le_div_iff₀ hpos] at hnear
    have hv' : v < 2 ^ f.fractionBits * 2 ^ q := by
      rwa [zpow_add₀ two_ne_zero, zpow_natCast] at hv
    have := mul_le_mul_of_nonneg_right hlarge hpos.le
    linarith
  have hhalf : (2 : ℚ) ^ (q - 1) = 2 * 2 ^ (q - 2) := by
    rw [← zpow_one_add₀ two_ne_zero]
    congr 1
    omega
  have hbottom : (((neighbourhood f m q).low : Nat) : ℚ) = 4 * 2 ^ f.fractionBits - 1 := by
    simp only [neighbourhood, if_pos (And.intro heq hq)]
    rw [heq, Nat.cast_sub (by have := Nat.two_pow_pos f.fractionBits; omega)]
    push_cast
    ring
  have hlow := h.low
  rw [hbottom] at hlow
  change (4 * (2 : ℚ) ^ f.fractionBits - 1) * 2 ^ (q - 2) ≤ v at hlow
  refine ⟨heq, ?_⟩
  rw [hhalf, le_div_iff₀ (mul_pos two_pos (zpow_pos two_pos _)), pow_succ]
  linarith

/-- Every ratio in the neighbourhood of a number rounds to the number. -/
theorem magnitude_of_holds {num den : Nat} (hd : 0 < den) (hc : f.Canonical m q) (hm : 0 < m)
    (h : (neighbourhood f m q).Holds (num / den)) :
    f.magnitude num den = min f.infinityBits ((q - f.minScale).toNat * 2 ^ f.fractionBits + m) := by
  have hpos := h.pos hm
  have hnum : 0 < num := by
    rcases Nat.eq_zero_or_pos num with rfl | hn
    · simp at hpos
    · exact hn
  have hlog : ∀ k : Int, k ≤ floorLog2 num den ↔ (2 : ℚ) ^ k ≤ num / den := fun k => by
    rw [floorLog2_eq_log hnum hd, ← Int.zpow_le_iff_le_log one_lt_two hpos, Nat.cast_ofNat]
  have htop : floorLog2 num den < f.fractionBits + 1 + q := by
    rw [← not_le, hlog, not_le]
    exact h.lt_top hc hm
  rw [Format.magnitude, if_neg hnum.ne']
  by_cases hbinade : q = f.minScale ∨ (2 : ℚ) ^ (f.fractionBits + q : Int) ≤ num / den
  · have hq : max f.minScale (floorLog2 num den - f.fractionBits) = q := by
      have hscale := hc.scale
      rcases hbinade with hq | hle
      · omega
      · have := (hlog _).mpr hle
        omega
    simp only [hq]
    obtain ⟨hlow, hhigh, hodd⟩ := h.near hm
    rw [← scaled_div] at hlow hhigh hodd
    rw [roundDiv_eq (Nat.mul_pos hd (Nat.two_pow_pos _)) hlow hhigh hodd]
  · -- The ratio lies in the binade below, at whose end it is rounded up.
    obtain ⟨hne, hlt⟩ := not_or.mp hbinade
    have hscale : f.minScale < q := lt_of_le_of_ne hc.scale (Ne.symm hne)
    obtain ⟨heq, hlow⟩ := h.narrow hc hm hscale (not_le.mp hlt)
    have hhalf : (0 : ℚ) < 2 ^ (q - 1) := zpow_pos two_pos _
    have hone : (1 : ℚ) ≤ 2 ^ f.fractionBits := one_le_pow₀ one_le_two
    have hhigh : (num : ℚ) / den / 2 ^ (q - 1) < 2 ^ (f.fractionBits + 1) := by
      rw [div_lt_iff₀ hhalf, ← zpow_natCast, ← zpow_add₀ two_ne_zero]
      convert not_le.mp hlt using 2
      push_cast
      ring
    have hbottom : (f.fractionBits : Int) + (q - 1) ≤ floorLog2 num den := by
      rw [hlog, zpow_add₀ two_ne_zero, zpow_natCast, ← le_div_iff₀ hhalf]
      rw [pow_succ] at hlow
      linarith
    have hq : max f.minScale (floorLog2 num den - f.fractionBits) = q - 1 := by
      have := mt (hlog _).mp hlt
      omega
    simp only [hq]
    have hround : roundDiv (num * 2 ^ (-(q - 1)).toNat) (den * 2 ^ (q - 1).toNat) =
        2 ^ (f.fractionBits + 1) := by
      refine roundDiv_eq (Nat.mul_pos hd (Nat.two_pow_pos _)) ?_ ?_ fun hodd => ?_
      · rw [scaled_div]
        exact_mod_cast hlow
      · rw [scaled_div]
        push_cast
        linarith
      · rw [pow_succ] at hodd
        omega
    have hsteps : (q - f.minScale).toNat = (q - 1 - f.minScale).toNat + 1 := by omega
    rw [hround, hsteps, heq, Nat.succ_mul, pow_succ]
    congr 1
    omega

end Rounding

namespace Decimal

/-- A decimal of digits with a point in them. -/
def readPoint (cs : List Char) : Decimal :=
  let fraction := (cs.dropWhile (· ≠ '.')).drop 1
  ⟨Nat.ofDigitChars 10 (cs.takeWhile (· ≠ '.') ++ fraction) 0, -fraction.length⟩

def readExponent : List Char → Int
  | '-' :: cs => -(Nat.ofDigitChars 10 cs 0 : Nat)
  | '+' :: cs => (Nat.ofDigitChars 10 cs 0 : Nat)
  | _ => 0

/-- A decimal, with or without an exponent. -/
def read (cs : List Char) : Decimal :=
  let d := readPoint (cs.takeWhile (· ≠ 'e'))
  ⟨d.digits, d.scale + readExponent ((cs.dropWhile (· ≠ 'e')).drop 1)⟩

section Characters

variable {c : Char} {cs : List Char}

theorem ne_of_notMem (h : c ∉ cs) : ∀ a ∈ cs, decide (a ≠ c) = true :=
  fun _ ha => decide_eq_true (ne_of_mem_of_not_mem ha h)

theorem takeWhile_ne_append (h : c ∉ cs) (rest : List Char) :
    (cs ++ c :: rest).takeWhile (· ≠ c) = cs :=
  takeWhile_of_boundary (ne_of_notMem h) (by simp)

theorem dropWhile_ne_append (h : c ∉ cs) (rest : List Char) :
    (cs ++ c :: rest).dropWhile (· ≠ c) = c :: rest := by
  rw [List.dropWhile_append_of_pos (ne_of_notMem h)]
  simp

end Characters

theorem readPoint_append {whole : List Char} (h : '.' ∉ whole) (fraction : List Char) :
    readPoint (whole ++ '.' :: fraction) =
      ⟨Nat.ofDigitChars 10 (whole ++ fraction) 0, -fraction.length⟩ := by
  simp only [readPoint, takeWhile_ne_append h, dropWhile_ne_append h, List.drop_one, List.tail_cons]

theorem readPoint_whole {whole : List Char} (h : '.' ∉ whole) :
    readPoint whole = ⟨Nat.ofDigitChars 10 whole 0, 0⟩ := by
  simp only [readPoint, List.takeWhile_eq_self_iff.mpr (ne_of_notMem h),
    List.dropWhile_eq_nil_iff.mpr (ne_of_notMem h), List.drop_nil, List.append_nil]
  rfl

theorem read_append {cs : List Char} (h : 'e' ∉ cs) (rest : List Char) :
    read (cs ++ 'e' :: rest) =
      ⟨(readPoint cs).digits, (readPoint cs).scale + readExponent rest⟩ := by
  simp only [read, takeWhile_ne_append h, dropWhile_ne_append h, List.drop_one, List.tail_cons]

theorem read_plain {cs : List Char} (h : 'e' ∉ cs) : read cs = readPoint cs := by
  simp only [read, List.takeWhile_eq_self_iff.mpr (ne_of_notMem h),
    List.dropWhile_eq_nil_iff.mpr (ne_of_notMem h), List.drop_nil]
  simp [readExponent]

theorem isDigit_of_mem_text (h : c ∈ d.text) : c.isDigit = true :=
  Nat.isDigit_of_mem_toDigits (by decide) (by decide) h

theorem ofDigitChars_text (d : Decimal) : Nat.ofDigitChars 10 d.text 0 = d.digits :=
  Nat.ofDigitChars_ten_toDigits

theorem notMem_text (h : c.isDigit = false) : c ∉ d.text := by
  intro hc
  rw [isDigit_of_mem_text hc] at h
  cases h

theorem value_readPoint_positional (d : Decimal) : (readPoint d.positional).value = d.value := by
  have hpoint := @notMem_text d '.' rfl
  have hk : d.point = d.scale + d.text.length := rfl
  simp only [positional]
  split
  · -- The point stands in front, with zeros behind it.
    change (readPoint (['0'] ++ '.' :: (List.replicate (-d.point).toNat '0' ++ d.text))).value = _
    have hdigits : Nat.ofDigitChars 10 (['0'] ++ (List.replicate (-d.point).toNat '0' ++ d.text))
        0 = d.digits := by
      rw [Nat.ofDigitChars_append, Nat.ofDigitChars_append, Nat.ofDigitChars_replicate_zero]
      exact ofDigitChars_text d
    have hscale : -((List.replicate (-d.point).toNat '0' ++ d.text).length : Int) = d.scale := by
      rw [List.length_append, List.length_replicate]
      omega
    rw [readPoint_append (by decide), hdigits, hscale]
  · split
    · -- It stands between the digits.
      have hwhole : '.' ∉ d.text.take d.point.toNat := fun h => hpoint (List.mem_of_mem_take h)
      have hscale : -((d.text.drop d.point.toNat).length : Int) = d.scale := by
        rw [List.length_drop]
        omega
      rw [readPoint_append hwhole, List.take_append_drop, ofDigitChars_text, hscale]
    · -- It stands behind the digits and zeros.
      have hwhole : '.' ∉ d.text ++ List.replicate (d.point.toNat - d.text.length) '0' := by
        simp [hpoint, List.mem_replicate]
      have hscale : d.scale = (d.point.toNat - d.text.length : Nat) := by omega
      rw [readPoint_append hwhole, Nat.ofDigitChars_append, Nat.ofDigitChars_append,
        ofDigitChars_text, Nat.ofDigitChars_replicate_zero, value, value, hscale, zpow_natCast]
      change ((10 * (10 ^ (d.point.toNat - d.text.length) * d.digits) + 0 : Nat) : ℚ) * 10 ^
        (-1 : Int) = _
      push_cast
      rw [zpow_neg_one]
      ring

/-- The digits of an exponent, which are at least two, and its sign. -/
theorem readExponent_digits (k : Int) :
    readExponent ((if k < 0 then '-' else '+') ::
      (List.replicate (2 - (Nat.toDigits 10 k.natAbs).length) '0' ++
        Nat.toDigits 10 k.natAbs)) = k := by
  have hread : Nat.ofDigitChars 10 (List.replicate (2 - (Nat.toDigits 10 k.natAbs).length) '0' ++
      Nat.toDigits 10 k.natAbs) 0 = k.natAbs := by
    rw [Nat.ofDigitChars_append, Nat.ofDigitChars_replicate_zero, mul_zero,
      Nat.ofDigitChars_ten_toDigits]
  split
  · simp only [readExponent, hread]
    omega
  · simp only [readExponent, hread]
    omega

theorem read_exponential (d : Decimal) : read d.exponential = d := by
  have hpoint := @notMem_text d '.' rfl
  have hexp := @notMem_text d 'e' rfl
  have hdigits := ofDigitChars_text d
  have hk : d.point = d.scale + d.text.length := rfl
  rw [exponential]
  rcases htext : d.text with _ | ⟨c, _ | ⟨c', cs⟩⟩
  · exact absurd htext Nat.toDigits_ne_nil
  · rw [htext] at hpoint hexp hdigits hk
    have hscale : 0 + (d.point - 1) = d.scale := by simp [hk]
    rw [read_append hexp, readExponent_digits, readPoint_whole hpoint, hdigits, hscale]
  · rw [htext] at hpoint hexp hdigits hk
    have hscale : -((c' :: cs).length : Int) + (d.point - 1) = d.scale := by
      simp only [hk, List.length_cons]
      omega
    have hmantissa : 'e' ∉ c :: '.' :: c' :: cs := by simpa using hexp
    have hfirst : '.' ∉ [c] := fun h => hpoint (by simpa using .inl (by simpa using h))
    rw [read_append hmantissa, readExponent_digits]
    rw [show c :: '.' :: c' :: cs = [c] ++ '.' :: (c' :: cs) from rfl, readPoint_append hfirst]
    rw [show [c] ++ c' :: cs = c :: c' :: cs from rfl, hdigits, hscale]

theorem isDigit_of_mem_positional (h : c ∈ d.positional) (hc : c ≠ '.') : c.isDigit = true := by
  have hmem : c = '.' ∨ c = '0' ∨ c ∈ d.text := by
    simp only [positional] at h
    split at h
    · simp only [List.mem_cons, List.mem_append, List.mem_replicate] at h
      grind
    · split at h
      · simp only [List.mem_cons, List.mem_append] at h
        rcases h with h | h | h
        · exact .inr (.inr (List.mem_of_mem_take h))
        · exact .inl h
        · exact .inr (.inr (List.mem_of_mem_drop h))
      · simp only [List.mem_cons, List.mem_append, List.mem_replicate, List.not_mem_nil] at h
        grind
  rcases hmem with rfl | rfl | hmem
  · exact absurd rfl hc
  · rfl
  · exact isDigit_of_mem_text hmem

/-- A decimal is read back from its text, up to zeros at its end. -/
theorem value_read_write (d : Decimal) : (read d.write).value = d.value := by
  rw [write]
  split
  · rename_i hzero
    have hread : read ['0', '.', '0'] = ⟨0, -1⟩ := by decide
    simp [hread, value, hzero]
  · split
    · have hexp : 'e' ∉ d.positional :=
        fun h => absurd (isDigit_of_mem_positional h (by decide)) (by decide)
      rw [read_plain hexp, value_readPoint_positional]
    · rw [read_exponential]

theorem text_eq_cons (d : Decimal) : ∃ c cs, d.text = c :: cs ∧ c.isDigit = true := by
  obtain ⟨c, cs, h⟩ := List.exists_cons_of_ne_nil (l := d.text) Nat.toDigits_ne_nil
  exact ⟨c, cs, h, isDigit_of_mem_text (h ▸ List.mem_cons_self)⟩

theorem write_eq_cons (d : Decimal) : ∃ c cs, d.write = c :: cs ∧ c.isDigit = true := by
  obtain ⟨c, cs, htext, hc⟩ := d.text_eq_cons
  rw [write]
  split
  · exact ⟨_, _, rfl, rfl⟩
  · split
    · simp only [positional]
      split
      · exact ⟨_, _, rfl, rfl⟩
      · split
        · obtain ⟨k, hk⟩ : ∃ k, d.point.toNat = k + 1 := ⟨d.point.toNat - 1, by omega⟩
          exact ⟨c, _, by rw [htext, hk, List.take_succ_cons, List.cons_append], hc⟩
        · exact ⟨c, _, by rw [htext, List.cons_append, List.cons_append], hc⟩
    · rw [exponential, htext]
      cases cs with
      | nil => exact ⟨c, _, rfl, hc⟩
      | cons c' cs => exact ⟨c, _, rfl, hc⟩

theorem mem_exponential (h : c ∈ d.exponential) : c.isDigit = true ∨ c ∈ ['.', 'e', '+', '-'] := by
  have hdigits := @isDigit_of_mem_text d c
  have hexponent := @Nat.isDigit_of_mem_toDigits 10 (d.point - 1).natAbs c (by decide) (by decide)
  have hzero : c = '0' → c.isDigit = true := by
    rintro rfl
    rfl
  rw [exponential] at h
  simp only [List.mem_cons, List.not_mem_nil, or_false]
  rcases htext : d.text with _ | ⟨a, _ | ⟨b, cs⟩⟩
  · exact absurd htext Nat.toDigits_ne_nil
  · rw [htext] at h hdigits
    simp only [List.mem_append, List.mem_cons, List.mem_replicate] at h hdigits
    grind
  · rw [htext] at h hdigits
    simp only [List.mem_append, List.mem_cons, List.mem_replicate] at h hdigits
    grind

theorem mem_write (h : c ∈ d.write) : c.isDigit = true ∨ c ∈ ['.', 'e', '+', '-'] := by
  rw [write] at h
  split at h
  · simp only [List.mem_cons, List.not_mem_nil, or_false] at h
    rcases h with rfl | rfl | rfl <;> decide
  · split at h
    · by_cases hc : c = '.'
      · exact .inr (by simp [hc])
      · exact .inl (isDigit_of_mem_positional h hc)
    · exact mem_exponential h

theorem exists_mem_write (d : Decimal) : ∃ c ∈ d.write, c.isDigit = false := by
  rw [write]
  split
  · exact ⟨'.', by decide, rfl⟩
  · split
    · refine ⟨'.', ?_, rfl⟩
      simp only [positional]
      split
      · simp
      · split <;> simp
    · exact ⟨'e', by simp [exponential], rfl⟩

end Decimal

/-- The pattern stands for a number or an infinity. -/
def Binary.IsNumber {f : Format} (x : Binary f) : Prop :=
  x.bits < 2 * f.signBit ∧ x.bits % f.signBit ≤ f.infinityBits

instance {f : Format} (x : Binary f) : Decidable x.IsNumber :=
  inferInstanceAs (Decidable (_ ∧ _))

def Exact.signed (negative : Bool) : Exact → Exact
  | .nan => .nan
  | .infinite _ => .infinite negative
  | .finite _ m q => .finite negative m q

theorem toExact_eq_signed {f : Format} (x : Binary f) :
    x.toExact = (⟨x.bits % f.signBit⟩ : Binary f).toExact.signed (decide (f.signBit ≤ x.bits)) := by
  simp only [Binary.toExact, Nat.mod_mod]
  split_ifs <;> rfl

theorem Binary.IsNumber.bits_eq {f : Format} {x : Binary f} (hx : x.IsNumber) :
    x.bits = (if f.signBit ≤ x.bits then f.signBit else 0) + x.bits % f.signBit := by
  have hlt := hx.1
  split
  · rw [Nat.mod_eq_sub_mod ‹_›, Nat.mod_eq_of_lt (by omega)]
    omega
  · rw [Nat.mod_eq_of_lt (by omega), Nat.zero_add]

/-- The nearest number to a decimal. -/
def Decimal.round (negative : Bool) (d : Decimal) : Double :=
  .ofRatio negative (d.digits * 10 ^ d.scale.toNat) (10 ^ (-d.scale).toNat)

theorem Decimal.ratio_eq (d : Decimal) :
    ((d.digits * 10 ^ d.scale.toNat : Nat) : ℚ) / (10 ^ (-d.scale).toNat : Nat) = d.value := by
  have h10 := @zpow_eq_div 10 (by decide) d.scale
  push_cast at h10 ⊢
  rw [value, h10, mul_div_assoc]

theorem magnitude_of_value {m : Nat} (hc : Format.double.Canonical m q)
    (hd : d.value = (shortest Format.double m q).value) :
    Format.double.magnitude (d.digits * 10 ^ d.scale.toNat) (10 ^ (-d.scale).toNat) =
      min Format.double.infinityBits
        ((q - Format.double.minScale).toNat * 2 ^ Format.double.fractionBits + m) := by
  rcases Nat.eq_zero_or_pos m with rfl | hm
  · have hq : q = Format.double.minScale := hc.full.resolve_right (by decide)
    have hzero : d.digits = 0 := by
      have hvalue : d.value = 0 := by rw [hd]; simp [shortest, Decimal.value]
      rw [Decimal.value, mul_eq_zero] at hvalue
      exact_mod_cast hvalue.resolve_right (zpow_ne_zero _ (by norm_num))
    simp [hzero, hq, Format.magnitude]
  · refine magnitude_of_holds (Nat.pow_pos (by decide)) hc hm ?_
    rw [Decimal.ratio_eq, hd]
    exact shortest_holds hc hm

namespace Binary

/-- A number from its text without a sign. -/
def read (negative : Bool) (cs : List Char) : Double :=
  if cs = Layout.document.infinity.toList then .ofExact (.infinite negative)
  else (Decimal.read cs).round negative

/-- How a number is written: the characters behind its sign, from which it is read back. They are no
whole number. -/
structure Written (x : Double) (negative : Bool) (cs : List Char) : Prop where
  text : (Layout.document.write x).toList = (if negative then ['-'] else []) ++ cs
  read : Binary.read negative cs = x
  first : ∃ c rest, cs = c :: rest ∧ (c.isDigit = true ∨ c = 'I')
  characters : ∀ c ∈ cs, c.isAlphanum = true ∨ c ∈ ['.', '+', '-']
  broken : ∃ c ∈ cs, c.isDigit = false

theorem isAlphanum_of_isDigit (h : c.isDigit = true) : c.isAlphanum = true := by
  simp [Char.isAlphanum, h]

theorem write_ne_infinity (d : Decimal) : d.write ≠ Layout.document.infinity.toList := by
  obtain ⟨c, cs, hwrite, hdigit⟩ := d.write_eq_cons
  intro h
  rw [hwrite, show Layout.document.infinity.toList = 'I' :: "nfinity".toList from rfl] at h
  obtain rfl := (List.cons.inj h).1
  cases hdigit

theorem characters_write (h : c ∈ d.write) : c.isAlphanum = true ∨ c ∈ ['.', '+', '-'] := by
  rcases Decimal.mem_write h with hdigit | hmark
  · exact .inl (isAlphanum_of_isDigit hdigit)
  · simp only [List.mem_cons, List.not_mem_nil, or_false] at hmark
    rcases hmark with rfl | rfl | rfl | rfl <;> decide

theorem IsNumber.written {x : Double} (hx : x.IsNumber) : ∃ negative cs, x.Written negative cs := by
  have hbits := hx.bits_eq
  have hexact := toExact_eq_signed x
  have hletters : Layout.document.infinity.toList.all Char.isAlphanum = true := by decide
  rcases toExact_cases (x := ⟨x.bits % Format.double.signBit⟩) hx.2 with
    ⟨hinf, he⟩ | ⟨m, q, he, hc, hb, hlt⟩
  · rw [he] at hexact
    refine ⟨decide (Format.double.signBit ≤ x.bits), Layout.document.infinity.toList, ?_, ?_, ?_,
      ?_, ?_⟩
    · rw [Layout.write, hexact]
      simp only [Exact.signed, String.toList_append]
      split <;> rfl
    · rw [read, if_pos rfl, ofExact]
      simp only [decide_eq_true_eq]
      rw [← hinf, ← hbits]
    · exact ⟨'I', _, rfl, .inr rfl⟩
    · exact fun c hc => .inl (List.all_eq_true.mp hletters c hc)
    · exact ⟨'I', by decide, rfl⟩
  · rw [he] at hexact
    refine ⟨decide (Format.double.signBit ≤ x.bits), (shortest Format.double m q).write, ?_, ?_, ?_,
      fun _ => characters_write, (shortest Format.double m q).exists_mem_write⟩
    · rw [Layout.write, hexact]
      simp only [Exact.signed, String.toList_append, String.toList_ofList]
      split <;> rfl
    · rw [read, if_neg (write_ne_infinity _), Decimal.round, ofRatio,
        magnitude_of_value hc (Decimal.value_read_write _), ← hb, min_eq_right hlt.le]
      simp only [decide_eq_true_eq]
      rw [← hbits]
    · obtain ⟨c, rest, hwrite, hdigit⟩ := (shortest Format.double m q).write_eq_cons
      exact ⟨c, rest, hwrite, .inl hdigit⟩

end Binary

end LimeLang.Number
