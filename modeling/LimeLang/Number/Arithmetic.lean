import LimeLang.Number.Binary

/-! Arithmetic on floating point numbers: each operation is carried out exactly and its result
rounded once. -/

namespace LimeLang.Number

def signed (negative : Bool) (n : Nat) : Int := if negative then -n else n

namespace Exact

def neg : Exact → Exact
  | nan => nan
  | infinite s => infinite !s
  | finite s m q => finite (!s) m q

/-- A sum that is exactly zero is negative only if both terms are. -/
def add : Exact → Exact → Exact
  | nan, _ => nan
  | _, nan => nan
  | infinite s, infinite t => if s = t then infinite s else nan
  | infinite s, finite .. => infinite s
  | finite .., infinite t => infinite t
  | finite s m p, finite t n q =>
    let scale := min p q
    let sum := signed s (m * 2 ^ (p - scale).toNat) + signed t (n * 2 ^ (q - scale).toNat)
    if sum = 0 then finite (s && t) 0 scale else finite (sum < 0) sum.natAbs scale

def mul : Exact → Exact → Exact
  | nan, _ => nan
  | _, nan => nan
  | infinite s, infinite t => infinite (s != t)
  | infinite s, finite t n _ => if n = 0 then nan else infinite (s != t)
  | finite s m _, infinite t => if m = 0 then nan else infinite (s != t)
  | finite s m p, finite t n q => finite (s != t) (m * n) (p + q)

/-- The remainder of the division whose quotient is cut toward zero; it has the sign of the
dividend. -/
def rem : Exact → Exact → Exact
  | nan, _ => nan
  | _, nan => nan
  | infinite _, _ => nan
  | finite s m p, infinite _ => finite s m p
  | finite s m p, finite _ n q =>
    if n = 0 then nan
    else
      let scale := min p q
      finite s ((m * 2 ^ (p - scale).toNat) % (n * 2 ^ (q - scale).toNat)) scale

/-- Numbers compare by value; nothing compares with a NaN. -/
def compare? : Exact → Exact → Option Ordering
  | nan, _ => none
  | _, nan => none
  | infinite s, infinite t => some (compare t.toNat s.toNat)
  | infinite s, finite .. => some (if s then .lt else .gt)
  | finite .., infinite t => some (if t then .gt else .lt)
  | finite s m p, finite t n q =>
    let scale := min p q
    some (compare (signed s (m * 2 ^ (p - scale).toNat)) (signed t (n * 2 ^ (q - scale).toNat)))

end Exact

namespace Binary

variable {f : Format}

def add (x y : Binary f) : Binary f := ofExact (x.toExact.add y.toExact)

def sub (x y : Binary f) : Binary f := ofExact (x.toExact.add y.toExact.neg)

def mul (x y : Binary f) : Binary f := ofExact (x.toExact.mul y.toExact)

def rem (x y : Binary f) : Binary f := ofExact (x.toExact.rem y.toExact)

def div (x y : Binary f) : Binary f :=
  match x.toExact, y.toExact with
  | .nan, _ => ofExact .nan
  | _, .nan => ofExact .nan
  | .infinite _, .infinite _ => ofExact .nan
  | .infinite s, .finite t _ _ => ofExact (.infinite (s != t))
  | .finite s _ _, .infinite t => ofExact (.finite (s != t) 0 0)
  | .finite s m p, .finite t n q =>
    if n = 0 then (if m = 0 then ofExact .nan else ofExact (.infinite (s != t)))
    else ofRatio (s != t) (m * 2 ^ (p - q).toNat) (n * 2 ^ (q - p).toNat)

def compare? (x y : Binary f) : Option Ordering := x.toExact.compare? y.toExact

end Binary

end LimeLang.Number
