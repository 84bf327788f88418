import LimeLang.Token.Scan
import Mathlib.Data.Int.Log
import Mathlib.Data.Rat.Floor
import Mathlib.Tactic.FieldSimp
import Mathlib.Tactic.Linarith
import Mathlib.Tactic.Positivity

/-! The exact decimal of a floating point number. Every finite number has one, and rounding it
gives the number back. -/

namespace LimeLang.Number

theorem two_zpow_le_div_iff {num den : Nat} (hd : 0 < den) (k : Int) :
    (2 : ℚ) ^ k ≤ num / den ↔ den * 2 ^ k.toNat ≤ num * 2 ^ (-k).toNat := by
  have hd' : (0 : ℚ) < den := by exact_mod_cast hd
  rw [le_div_iff₀ hd']
  obtain ⟨n, rfl | rfl⟩ := Int.eq_nat_or_neg k
  · simp only [zpow_natCast, Int.toNat_natCast, Int.toNat_neg_natCast, pow_zero, mul_one]
    rw [mul_comm]
    exact_mod_cast Iff.rfl
  · simp only [zpow_neg, zpow_natCast, Int.toNat_neg_natCast, neg_neg, Int.toNat_natCast, pow_zero,
      mul_one]
    rw [inv_mul_le_iff₀ (by positivity), mul_comm]
    exact_mod_cast Iff.rfl

theorem floorLog2_eq_log {num den : Nat} (hn : 0 < num) (hd : 0 < den) :
    floorLog2 num den = Int.log 2 ((num : ℚ) / den) := by
  have hn' : (0 : ℚ) < num := by exact_mod_cast hn
  have hd' : (0 : ℚ) < den := by exact_mod_cast hd
  have hpos : (0 : ℚ) < num / den := div_pos hn' hd'
  have hlog : ∀ k : Int, k ≤ Int.log 2 ((num : ℚ) / den) ↔ (2 : ℚ) ^ k ≤ num / den :=
    fun k => by exact_mod_cast (Int.zpow_le_iff_le_log (R := ℚ) one_lt_two hpos (x := k)).symm
  have hnl : (2 : ℚ) ^ (num.log2 : Int) ≤ num := by
    rw [zpow_natCast]
    exact_mod_cast Nat.log2_self_le hn.ne'
  have hnu : (num : ℚ) < 2 ^ (num.log2 + 1 : Int) := by
    exact_mod_cast Nat.lt_log2_self (n := num)
  have hdl : (2 : ℚ) ^ (den.log2 : Int) ≤ den := by
    rw [zpow_natCast]
    exact_mod_cast Nat.log2_self_le hd.ne'
  have hdu : (den : ℚ) < 2 ^ (den.log2 + 1 : Int) := by
    exact_mod_cast Nat.lt_log2_self (n := den)
  have hlow : (num.log2 : Int) - den.log2 - 1 ≤ Int.log 2 ((num : ℚ) / den) := by
    rw [hlog, sub_sub, zpow_sub₀ two_ne_zero]
    exact div_le_div₀ hn'.le hnl hd' hdu.le
  have hhigh : Int.log 2 ((num : ℚ) / den) < (num.log2 : Int) - den.log2 + 1 := by
    rw [← not_le, hlog, not_le, sub_add_eq_add_sub, zpow_sub₀ two_ne_zero]
    exact div_lt_div₀ hnu hdl (zpow_nonneg zero_le_two _) (zpow_pos two_pos _)
  rw [floorLog2]
  have hk := (@two_zpow_le_div_iff num den hd (num.log2 - den.log2)).symm.trans (hlog _).symm
  split
  · rename_i h
    have := hk.mp h
    omega
  · rename_i h
    have := mt hk.mpr h
    omega

/-- A number `m * 2 ^ q` of a format, with as many bits as the format has for its size. -/
structure Format.Canonical (f : Format) (m : Nat) (q : Int) : Prop where
  scale : f.minScale ≤ q
  small : m < 2 ^ (f.fractionBits + 1)
  full : q = f.minScale ∨ 2 ^ f.fractionBits ≤ m

theorem Format.Canonical.scale_eq {f : Format} {m : Nat} {q : Int} (h : f.Canonical m q)
    (hm : 0 < m) : max f.minScale (Int.log 2 ((m : ℚ) * 2 ^ q) - f.fractionBits) = q := by
  have hm' : (0 : ℚ) < m := by exact_mod_cast hm
  have hpos : (0 : ℚ) < m * 2 ^ q := mul_pos hm' (zpow_pos two_pos _)
  have hlt : Int.log 2 ((m : ℚ) * 2 ^ q) < f.fractionBits + 1 + q := by
    have hlog := Int.lt_zpow_iff_log_lt (R := ℚ) one_lt_two hpos (x := f.fractionBits + 1 + q)
    rw [← hlog, Nat.cast_ofNat, zpow_add₀ two_ne_zero]
    refine mul_lt_mul_of_pos_right ?_ (zpow_pos two_pos _)
    exact_mod_cast h.small
  rcases h.full with hq | hfull
  · omega
  · have hle : f.fractionBits + q ≤ Int.log 2 ((m : ℚ) * 2 ^ q) := by
      have hlog := Int.zpow_le_iff_le_log (R := ℚ) one_lt_two hpos (x := f.fractionBits + q)
      rw [← hlog, Nat.cast_ofNat, zpow_add₀ two_ne_zero]
      refine mul_le_mul_of_nonneg_right ?_ (zpow_pos two_pos _).le
      exact_mod_cast hfull
    have := h.scale
    omega

theorem mul_two_pow_of_div_eq {num den m : Nat} {q : Int} (hd : 0 < den)
    (h : (num : ℚ) / den = m * 2 ^ q) : num * 2 ^ (-q).toNat = m * (den * 2 ^ q.toNat) := by
  have hd' : (den : ℚ) ≠ 0 := by exact_mod_cast hd.ne'
  rw [div_eq_iff hd'] at h
  obtain ⟨n, rfl | rfl⟩ := Int.eq_nat_or_neg q
  · simp only [Int.toNat_neg_natCast, pow_zero, mul_one, Int.toNat_natCast]
    rw [zpow_natCast] at h
    have hn : num = m * 2 ^ n * den := by exact_mod_cast h
    rw [hn, mul_assoc, mul_comm den]
  · simp only [neg_neg, Int.toNat_natCast, Int.toNat_neg_natCast, pow_zero, mul_one]
    rw [zpow_neg, zpow_natCast] at h
    have hn : (num : ℚ) * 2 ^ n = m * den := by
      rw [h]
      field_simp
    exact_mod_cast hn

theorem magnitude_of_canonical {f : Format} {num den m : Nat} {q : Int} (hd : 0 < den)
    (hc : f.Canonical m q) (hm : 0 < m) (h : (num : ℚ) / den = m * 2 ^ q) :
    f.magnitude num den = min f.infinityBits ((q - f.minScale).toNat * 2 ^ f.fractionBits + m) := by
  have hnum : 0 < num := by
    rcases Nat.eq_zero_or_pos num with rfl | hn
    · have hm' : (0 : ℚ) < m * 2 ^ q := mul_pos (by exact_mod_cast hm) (zpow_pos two_pos _)
      rw [← h, Nat.cast_zero, zero_div] at hm'
      exact absurd hm' (lt_irrefl _)
    · exact hn
  have hq : max f.minScale (floorLog2 num den - f.fractionBits) = q := by
    rw [floorLog2_eq_log hnum hd, h, hc.scale_eq hm]
  rw [Format.magnitude, if_neg hnum.ne']
  simp only [hq]
  rw [mul_two_pow_of_div_eq hd h, roundDiv_mul m (by positivity)]

theorem toExact_cases {x : Double} (hx : x.bits ≤ Format.double.infinityBits) :
    x.bits = Format.double.infinityBits ∧ x.toExact = .infinite false ∨
      ∃ m q, x.toExact = .finite false m q ∧ Format.double.Canonical m q ∧
        x.bits = (q - Format.double.minScale).toNat * 2 ^ Format.double.fractionBits + m ∧
        x.bits < Format.double.infinityBits := by
  have hsign : Format.double.infinityBits < Format.double.signBit := by decide
  have hmod : x.bits % Format.double.signBit = x.bits := Nat.mod_eq_of_lt (hx.trans_lt hsign)
  have hneg : decide (Format.double.signBit ≤ x.bits) = false := by simp; omega
  have hsplit := Nat.div_add_mod x.bits (2 ^ Format.double.fractionBits)
  have hfrac := Nat.mod_lt x.bits (show 0 < 2 ^ Format.double.fractionBits by positivity)
  have hpow := pow_succ 2 Format.double.fractionBits
  simp only [Binary.toExact, hmod, hneg]
  rw [if_neg (by omega)]
  by_cases hinf : x.bits = Format.double.infinityBits
  · exact .inl ⟨hinf, by rw [if_pos hinf]⟩
  · refine .inr ?_
    rw [if_neg hinf]
    by_cases hexp : x.bits / 2 ^ Format.double.fractionBits = 0
    · rw [if_pos hexp]
      rw [hexp, mul_zero, zero_add] at hsplit
      exact ⟨_, _, rfl, ⟨le_rfl, by omega, .inl rfl⟩, by simp [hsplit], by omega⟩
    · rw [if_neg hexp]
      refine ⟨_, _, rfl, ⟨le_add_of_nonneg_right (Int.natCast_nonneg _), by omega, .inr (by omega)⟩,
        ?_, by omega⟩
      rw [add_sub_cancel_left, Int.toNat_natCast, ← add_assoc, ← Nat.succ_mul, Nat.succ_eq_add_one,
        Nat.sub_add_cancel (Nat.one_le_iff_ne_zero.mpr hexp), mul_comm, hsplit]

/-- The digits of a number with at least one digit more than its last `k` places. -/
def placed (n k : Nat) : List Char :=
  List.replicate (k + 1 - (Nat.toDigits 10 n).length) '0' ++ Nat.toDigits 10 n

/-- A numerator and a number of decimal places that give the number. Infinity is given by a
number that is too great. -/
def Binary.decimal (x : Double) : Nat × Nat :=
  match x.toExact with
  | .finite _ m q => (m * 2 ^ q.toNat * (10 * 5 ^ (-q).toNat), (-q).toNat + 1)
  | _ => (10 ^ 400, 1)

def Binary.wholeDigits (x : Double) : List Char :=
  let cs := placed x.decimal.1 x.decimal.2
  cs.take (cs.length - x.decimal.2)

def Binary.fractionDigits (x : Double) : List Char :=
  let cs := placed x.decimal.1 x.decimal.2
  cs.drop (cs.length - x.decimal.2)

theorem length_placed (n k : Nat) : k < (placed n k).length := by
  simp only [placed, List.length_append, List.length_replicate]
  omega

theorem ofDigitChars_placed (n k : Nat) : Nat.ofDigitChars 10 (placed n k) 0 = n := by
  rw [placed, Nat.ofDigitChars_append, Nat.ofDigitChars_replicate_zero, mul_zero,
    Nat.ofDigitChars_ten_toDigits]

theorem foldl_digitValue (cs : List Char) :
    (cs.map digitValue).foldl (fun n d => 10 * n + d) 0 = Nat.ofDigitChars 10 cs 0 := by
  rw [Nat.ofDigitChars_eq_foldl, List.foldl_map]
  rfl

theorem ofDecimal_digits (x : Double) :
    (Binary.ofDecimal (x.wholeDigits.map digitValue) (x.fractionDigits.map digitValue) : Double) =
      .ofRatio false x.decimal.1 (10 ^ x.decimal.2) := by
  have hl := length_placed x.decimal.1 x.decimal.2
  have hlen : x.fractionDigits.length = x.decimal.2 := by
    simp only [Binary.fractionDigits, List.length_drop]
    omega
  rw [Binary.ofDecimal, ← List.map_append, List.length_map, hlen, foldl_digitValue,
    Binary.wholeDigits, Binary.fractionDigits, List.take_append_drop, ofDigitChars_placed]

theorem decimal_div {m : Nat} {q : Int} :
    ((m * 2 ^ q.toNat * (10 * 5 ^ (-q).toNat) : Nat) : ℚ) / ((10 ^ ((-q).toNat + 1) : Nat) : ℚ) =
      m * 2 ^ q := by
  have h10 : ∀ k : Nat, (10 : ℚ) ^ k = 2 ^ k * 5 ^ k := fun k => by rw [← mul_pow]; norm_num
  push_cast
  rw [pow_succ, h10]
  obtain ⟨n, rfl | rfl⟩ := Int.eq_nat_or_neg q
  · simp only [Int.toNat_natCast, Int.toNat_neg_natCast, pow_zero, zpow_natCast]
    field_simp
  · simp only [neg_neg, Int.toNat_natCast, Int.toNat_neg_natCast, pow_zero, zpow_neg, zpow_natCast]
    field_simp

/-- The exact decimal of a number reads back as the number. -/
theorem ofDecimal_exact {x : Double} (hx : x.bits ≤ Format.double.infinityBits) :
    Binary.ofDecimal (x.wholeDigits.map digitValue) (x.fractionDigits.map digitValue) = x := by
  rw [ofDecimal_digits]
  have hbits : Format.double.magnitude x.decimal.1 (10 ^ x.decimal.2) = x.bits := by
    rcases toExact_cases hx with ⟨hinf, he⟩ | ⟨m, q, he, hc, hb, hlt⟩
    · simp only [Binary.decimal, he, hinf]
      decide +kernel
    · simp only [Binary.decimal, he]
      rcases Nat.eq_zero_or_pos m with rfl | hm
      · have hq : q = Format.double.minScale :=
          hc.full.resolve_right (by simp)
        rw [hb, hq]
        simp [Format.magnitude]
      · rw [magnitude_of_canonical (by positivity) hc hm decimal_div, ← hb, min_eq_right hlt.le]
  rw [Binary.ofRatio, hbits]
  simp

end LimeLang.Number
