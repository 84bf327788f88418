import LimeLang.Number.Binary

/-! Shortest decimals: of all decimals that round to a given floating point number, one with
the fewest digits, and of those the nearest. -/

namespace LimeLang.Number

/-- The decimal `digits * 10 ^ scale`. -/
structure Decimal where
  digits : Nat
  scale : Int
deriving DecidableEq, Repr

/-- The least `k` with `num / den < 10 ^ k`, for positive `num` and `den`. -/
def decimalPoint (num den : Nat) : Int :=
  let k : Int := ((Nat.toDigits 10 num).length : Int) - (Nat.toDigits 10 den).length
  if num * 10 ^ (-k).toNat < den * 10 ^ k.toNat then k else k + 1

/-- An interval of numbers around a value, all in units of `2 ^ unit`. -/
structure Neighbourhood where
  low : Nat
  value : Nat
  high : Nat
  unit : Int
  closed : Bool

/-- The numbers that round to `m * 2 ^ q`. The gap below a power of two is only half as wide,
unless it is the smallest binade. -/
def neighbourhood (f : Format) (m : Nat) (q : Int) : Neighbourhood where
  low := if m = 2 ^ f.fractionBits ∧ f.minScale < q then 4 * m - 1 else 4 * m - 2
  value := 4 * m
  high := 4 * m + 2
  unit := q - 2
  closed := m % 2 = 0

namespace Neighbourhood

/-- A number `n * 2 ^ unit` as numerator over the denominator `n.den`. -/
def num (h : Neighbourhood) (n : Nat) : Nat := n * 2 ^ h.unit.toNat

def den (h : Neighbourhood) : Nat := 2 ^ (-h.unit).toNat

/-- Whether the decimal `c * 10 ^ s` lies in the interval. -/
def contains (h : Neighbourhood) (c : Nat) (s : Int) : Bool :=
  let x := c * 10 ^ s.toNat * h.den
  let low := h.num h.low * 10 ^ (-s).toNat
  let high := h.num h.high * 10 ^ (-s).toNat
  if h.closed then low ≤ x && x ≤ high else low < x && x < high

/-- The decimal with `n` digits in the interval that is nearest to its value, if there is
one; of two equally near the even one. -/
def candidate? (h : Neighbourhood) (n : Nat) : Option Decimal :=
  let s := decimalPoint (h.num h.value) h.den - n
  let a := h.num h.value * 10 ^ (-s).toNat
  let b := h.den * 10 ^ s.toNat
  let c := a / b
  match h.contains c s, h.contains (c + 1) s with
  | true, true => some ⟨roundDiv a b, s⟩
  | true, false => some ⟨c, s⟩
  | false, true => some ⟨c + 1, s⟩
  | false, false => none

end Neighbourhood

/-- Drops zeros at the end of the digits, at most `fuel` of them. -/
def Decimal.trim : Nat → Decimal → Decimal
  | 0, d => d
  | fuel + 1, d =>
    if d.digits ≠ 0 ∧ d.digits % 10 = 0 then Decimal.trim fuel ⟨d.digits / 10, d.scale + 1⟩ else d

/-- The shortest decimal for `m * 2 ^ q`, which in double precision has at most 17 digits. -/
def shortest (f : Format) (m : Nat) (q : Int) : Decimal :=
  if m = 0 then ⟨0, 0⟩
  else
    let h := neighbourhood f m q
    let d := ((List.range 17).findSome? fun i => h.candidate? (i + 1)).getD ⟨m, q⟩
    d.trim 18

end LimeLang.Number
