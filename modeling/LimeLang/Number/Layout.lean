import LimeLang.Number.Shortest

/-! How a floating point number is written: the shortest decimal, positionally between
`10 ^ -4` and `10 ^ 16` and with an exponent of two or more digits outside. -/

namespace LimeLang.Number

/-- The words for the numbers that have no decimal. -/
structure Layout where
  infinity : String
  nan : String

/-- Numbers in messages. -/
def Layout.message : Layout := ⟨"inf", "nan"⟩

/-- Numbers in a document. -/
def Layout.document : Layout := ⟨"Infinity", "NaN"⟩

namespace Decimal

def text (d : Decimal) : List Char := Nat.toDigits 10 d.digits

/-- The place of the point: the value is `0.text * 10 ^ point`. -/
def point (d : Decimal) : Int := d.scale + d.text.length

def positional (d : Decimal) : List Char :=
  let cs := d.text
  let k := d.point
  if k ≤ 0 then '0' :: '.' :: (List.replicate (-k).toNat '0' ++ cs)
  else if k < cs.length then cs.take k.toNat ++ '.' :: cs.drop k.toNat
  else cs ++ List.replicate (k.toNat - cs.length) '0' ++ ['.', '0']

def exponential (d : Decimal) : List Char :=
  let e := d.point - 1
  let digits := Nat.toDigits 10 e.natAbs
  let mantissa := match d.text with
    | [] => []
    | [c] => [c]
    | c :: cs => c :: '.' :: cs
  mantissa ++ 'e' :: (if e < 0 then '-' else '+') ::
    (List.replicate (2 - digits.length) '0' ++ digits)

def write (d : Decimal) : List Char :=
  if d.digits = 0 then ['0', '.', '0']
  else if -4 < d.point ∧ d.point ≤ 16 then d.positional
  else d.exponential

end Decimal

def Layout.write (l : Layout) {f : Format} (x : Binary f) : String :=
  match x.toExact with
  | .nan => l.nan
  | .infinite s => (if s then "-" else "") ++ l.infinity
  | .finite s m q => (if s then "-" else "") ++ String.ofList (shortest f m q).write

end LimeLang.Number
