import Strongbox.Decimal.Shortest

/-!
# The written form of a binary64 number

A number is written with its shortest digits: positionally from `10 ^ -5` up to but not
including `10 ^ 16`, always with a fraction part, and with a signed exponent outside
that range.
-/

namespace Strongbox.Decimal

/-- The least and the greatest number of digits before the point, counted from the point,
that positional writing covers. -/
structure Positional where
  least : Int
  greatest : Int

/-- Numbers from `10 ^ -5` below `10 ^ 16` are written positionally. -/
def jsonNumbers : Positional := ⟨-4, 16⟩

/-- The digits of a natural number. -/
def digitsOf (n : Nat) : List Char :=
  Nat.toDigits 10 n

/-- The digits of an integer, with a minus sign if it is negative. -/
def digitsOfInt (n : Int) : List Char :=
  if n < 0 then '-' :: digitsOf n.natAbs else digitsOf n.toNat

/-- The positional or scientific form of the numeral `x`, which is not zero. -/
def Positional.write (p : Positional) (x : Numeral) : List Char :=
  let ds := digitsOf x.digits
  let point := x.exponent + ds.length
  if p.least ≤ point ∧ point ≤ p.greatest then
    if 0 ≤ x.exponent then
      ds ++ List.replicate x.exponent.toNat '0' ++ ['.', '0']
    else if 0 < point then
      ds.take point.toNat ++ '.' :: ds.drop point.toNat
    else
      '0' :: '.' :: List.replicate (-point).toNat '0' ++ ds
  else
    let mantissa :=
      match ds with
      | [] => []
      | [d] => [d]
      | d :: rest => d :: '.' :: rest
    let e := point - 1
    mantissa ++ 'e' :: (if e < 0 then '-' else '+') :: digitsOf e.natAbs

/-- The written form of a finite number. -/
def writeFloat (p : Positional) (x : Float) : List Char :=
  let bits := x.toBits.toNat
  let magnitude := bits % 9223372036854775808
  let sign := if bits = magnitude then [] else ['-']
  if magnitude = 0 then
    sign ++ ['0', '.', '0']
  else
    sign ++ p.write (Binary.ofBits magnitude).shortest

end Strongbox.Decimal
