/-! Binary floating point numbers as bit patterns. A pattern stands for a sign, a mantissa and
a power of two; a ratio of naturals is rounded to the nearest pattern, ties going to the even
one, by exact arithmetic. -/

namespace LimeLang.Number

/-- Powers of naturals are the core ones, also where another library brings its own. -/
scoped instance (priority := 1100) corePow : Pow Nat Nat := instPowNat

/-- An interchange format, given by the widths of its exponent and fraction fields. -/
structure Format where
  exponentBits : Nat
  fractionBits : Nat
deriving DecidableEq, Repr

namespace Format

def double : Format := ⟨11, 52⟩

def single : Format := ⟨8, 23⟩

def bias (f : Format) : Nat := 2 ^ (f.exponentBits - 1) - 1

/-- The power of two of the last place in the smallest binade. -/
def minScale (f : Format) : Int := 1 - f.bias - f.fractionBits

def infinityBits (f : Format) : Nat := (2 ^ f.exponentBits - 1) * 2 ^ f.fractionBits

def signBit (f : Format) : Nat := 2 ^ (f.exponentBits + f.fractionBits)

end Format

/-- The meaning of a pattern: `finite s m q` is `m * 2 ^ q`, negated if `s`. -/
inductive Exact
  | nan
  | infinite (negative : Bool)
  | finite (negative : Bool) (mantissa : Nat) (scale : Int)
deriving DecidableEq, Repr

/-- The integer nearest to `num / den`, the even one of two equally near. -/
def roundDiv (num den : Nat) : Nat :=
  let q := num / den
  let r := num % den
  if 2 * r < den then q else if den < 2 * r then q + 1 else q + q % 2

theorem roundDiv_mul (n : Nat) {d : Nat} (hd : 0 < d) : roundDiv (n * d) d = n := by
  simp [roundDiv, Nat.mul_div_cancel n hd, hd]

/-- The greatest `k` with `2 ^ k ≤ num / den`, for positive `num` and `den`. -/
def floorLog2 (num den : Nat) : Int :=
  let k : Int := (num.log2 : Int) - den.log2
  if den * 2 ^ k.toNat ≤ num * 2 ^ (-k).toNat then k else k - 1

/-- The pattern, without its sign, nearest to `num / den`. -/
def Format.magnitude (f : Format) (num den : Nat) : Nat :=
  if num = 0 then 0
  else
    let q := max f.minScale (floorLog2 num den - f.fractionBits)
    let m := roundDiv (num * 2 ^ (-q).toNat) (den * 2 ^ q.toNat)
    min f.infinityBits ((q - f.minScale).toNat * 2 ^ f.fractionBits + m)

structure Binary (f : Format) where
  bits : Nat
deriving DecidableEq, Repr

abbrev Double := Binary Format.double

abbrev Single := Binary Format.single

namespace Binary

variable {f : Format}

def ofRatio (negative : Bool) (num den : Nat) : Binary f :=
  ⟨(if negative then f.signBit else 0) + f.magnitude num den⟩

def ofExact : Exact → Binary f
  | .nan => ⟨f.infinityBits + 2 ^ (f.fractionBits - 1)⟩
  | .infinite s => ⟨(if s then f.signBit else 0) + f.infinityBits⟩
  | .finite s m q => ofRatio s (m * 2 ^ q.toNat) (2 ^ (-q).toNat)

def toExact (x : Binary f) : Exact :=
  let negative := decide (f.signBit ≤ x.bits)
  let magnitude := x.bits % f.signBit
  let exponent := magnitude / 2 ^ f.fractionBits
  let fraction := magnitude % 2 ^ f.fractionBits
  if f.infinityBits < magnitude then .nan
  else if magnitude = f.infinityBits then .infinite negative
  else if exponent = 0 then .finite negative fraction f.minScale
  else .finite negative (2 ^ f.fractionBits + fraction) (f.minScale + (exponent - 1 : Nat))

/-- The same number in another format, rounded if it has to be. -/
def convert (x : Binary f) (g : Format) : Binary g := ofExact x.toExact

def ofInt (n : Int) : Binary f := ofRatio (n < 0) n.natAbs 1

/-- The number written in decimal with the given digits before and after the point. -/
def ofDecimal (whole fraction : List Nat) : Binary f :=
  ofRatio false ((whole ++ fraction).foldl (fun n d => 10 * n + d) 0) (10 ^ fraction.length)

end Binary

end LimeLang.Number
