/-!
# The shortest decimal that reads back

A finite binary64 number other than zero is `m * 2 ^ q`.  Every real number closer to it
than to its neighbours rounds to it, and so do the two midpoints when `m` is even.  Among
the decimals in that interval, `shortest` chooses one with the fewest digits, and of
those the nearest.  All comparisons are between integers.
-/

namespace Strongbox.Decimal

/-- A positive binary64 number `m * 2 ^ q`, with the information whether the gap below it
is half the gap above it. -/
structure Binary where
  m : Nat
  q : Int
  lowerHalf : Bool
  deriving DecidableEq, Repr

/-- The magnitude of a finite number other than zero, from its 64 bits. -/
def Binary.ofBits (bits : Nat) : Binary :=
  let fraction := bits % 4503599627370496
  let exponent := bits / 4503599627370496 % 2048
  if exponent = 0 then
    ⟨fraction, -1074, false⟩
  else
    ⟨4503599627370496 + fraction, (exponent : Int) - 1075, fraction = 0 && exponent ≠ 1⟩

/-- A decimal `digits * 10 ^ exponent`. -/
structure Numeral where
  digits : Nat
  exponent : Int
  deriving DecidableEq, Repr

/-- The number and the ends of its rounding interval over one denominator, each scaled
by `10 ^ (-e)`. -/
structure Scaled where
  low : Nat
  value : Nat
  high : Nat
  unit : Nat

/-- The interval of `b` in units of `10 ^ e`. -/
def Binary.scale (b : Binary) (e : Int) : Scaled :=
  let low := if b.lowerHalf then 4 * b.m - 1 else 4 * b.m - 2
  let value := 4 * b.m
  let high := 4 * b.m + 2
  let q := b.q - 2
  let up := Nat.pow 2 q.toNat * Nat.pow 10 (-e).toNat
  let down := Nat.pow 2 (-q).toNat * Nat.pow 10 e.toNat
  ⟨low * up, value * up, high * up, down⟩

/-- Whether the multiple `d` of the unit lies in the interval. -/
def Scaled.holds (s : Scaled) (even : Bool) (d : Nat) : Bool :=
  let x := d * s.unit
  (s.low < x || (even && s.low == x)) && (x < s.high || (even && x == s.high))

/-- The multiple of the unit that lies in the interval and is nearest to the value; of
two equally near ones the even one. -/
def Scaled.nearest? (s : Scaled) (even : Bool) : Option Nat :=
  let d := s.value / s.unit
  let below := s.value - d * s.unit
  let above := (d + 1) * s.unit - s.value
  let lowFirst := below < above || (below == above && d % 2 == 0)
  if lowFirst then
    if s.holds even d && d != 0 then some d
    else if s.holds even (d + 1) then some (d + 1)
    else none
  else
    if s.holds even (d + 1) then some (d + 1)
    else if s.holds even d && d != 0 then some d
    else none

/-- The point in the interval on the first grid that has one, tried downwards from the
grid of multiples of `10 ^ e`; `fuel` bounds the number of grids. -/
def Binary.search (b : Binary) : (fuel : Nat) → (e : Int) → Numeral
  | 0, e => ⟨0, e⟩
  | fuel + 1, e =>
    match (b.scale e).nearest? (b.m % 2 == 0) with
    | some d => ⟨d, e⟩
    | none => search b fuel (e - 1)

/-- A power of ten above the number: an estimate from the length of its binary form. -/
def Binary.ceiling (b : Binary) : Int :=
  let bits := (Nat.log2 b.m : Int) + b.q
  bits * 30103 / 100000 + 2

/-- The shortest decimal that reads back as `b`, of those the nearest. -/
def Binary.shortest (b : Binary) : Numeral :=
  b.search 40 b.ceiling

end Strongbox.Decimal
