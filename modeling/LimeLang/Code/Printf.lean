import LimeLang.Code.Value

/-! Formatted output. Strings end at their first zero byte. -/

namespace LimeLang.Code

def cString (bytes : List UInt8) : List UInt8 := bytes.takeWhile (· ≠ 0)

namespace Assembly

/-- The bytes that a pointer leads to. -/
def bytesAt? (a : Assembly) : Value → Option (List UInt8)
  | .global name => match a.item? name with
    | some (.constant ⟨_, _, _, .bytes bs⟩) => some (cString bs)
    | _ => none
  | _ => none

/-- The text of an argument for a directive. A truth value counts as a small number. -/
def directive? (a : Assembly) (letter : Char) (x : Value) : Option (List UInt8) :=
  if letter = 'i' || letter = 'd' then
    match x with
    | .int 1 b => some (toString b.toNat).toUTF8.toList
    | .int _ b => some (toString b.toInt).toUTF8.toList
    | _ => none
  else if letter = 's' then a.bytesAt? x
  else none

/-- Writes a format with its arguments; more of them than the format needs are left over. The
directives are `%i`, `%d`, `%s` and `%%`, without flags or widths. All others lie outside of this
account of output: they are left as they stand, which says nothing of what a machine prints. -/
def printf (a : Assembly) : List UInt8 → List Value → Option (List UInt8)
  | [], _ => some []
  | [b], _ => some [b]
  | b :: c :: bs, args =>
    if b.toNat ≠ '%'.toNat then (a.printf (c :: bs) args).map (b :: ·)
    else
      let letter := Char.ofNat c.toNat
      if letter = '%' then (a.printf bs args).map (b :: ·)
      else if letter = 'i' || letter = 'd' || letter = 's' then
        match args with
        | [] => none
        | x :: xs => do
          let text ← a.directive? letter x
          return text ++ (← a.printf bs xs)
      else (a.printf bs args).map (b :: c :: ·)

end Assembly

end LimeLang.Code
