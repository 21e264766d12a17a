import Strongbox.Json.Fault
import Strongbox.Json.Value

/-!
# The numbers of a JSON text

An integer that fits 64 bits, signed or unsigned, is kept exactly.  Every other number
becomes binary64: its leading digits, as many as fit an unsigned 64-bit word, are scaled
by a power of ten with one multiplication or division, and further digits count only
for their place.
-/

namespace Strongbox.Json

/-- A decimal digit. -/
def isDigit (b : UInt8) : Bool := 48 ≤ b && b ≤ 57

/-- The value of a decimal digit. -/
def digitValue (b : UInt8) : Nat := b.toNat - 48

/-- The greatest unsigned 64-bit word. -/
def maxWord : Nat := 18446744073709551615

/-- The word `sig` continued by leading digits for as long as it stays a word, and the
number of digits that were left over. -/
def accumulate (sig : Nat) : Bytes → Nat × Nat
  | [] => (sig, 0)
  | d :: ds =>
    let next := sig * 10 + digitValue d
    if next ≤ maxWord then accumulate next ds else (sig, ds.length + 1)

/-! ## Scaling -/

/-- `10 ^ n` as binary64. -/
def powerOfTen (n : Nat) : Float := Float.ofScientific 1 false n

/-- The number `x * 10 ^ e`; nothing when it is too large. -/
def scale (x : Float) (e : Int) : Option Float :=
  if 0 ≤ e then
    if e ≤ 308 then
      let y := x * powerOfTen e.toNat
      if y.isInf then none else some y
    else if x == 0 then some x
    else none
  else if -308 ≤ e then
    some (x / powerOfTen (-e).toNat)
  else if x == 0 then some x
  else scale (x / powerOfTen 308) (e + 308)
termination_by (-e).toNat
decreasing_by omega

/-- A binary64 number with the given sign. -/
def signed (negative : Bool) (x : Float) : Number :=
  .float (if negative then -x else x)

/-- The number `sig * 10 ^ e`, read up to the octets `rest`. -/
def scaled (negative : Bool) (sig : Nat) (e : Int) (rest : Bytes) : Read Number :=
  match scale (UInt64.ofNat sig).toFloat e with
  | some x => .ok (signed negative x, rest)
  | none => halt .grammar rest

/-- The integer with the given sign and magnitude; minus zero and what lies below the
least signed 64-bit integer become binary64. -/
def wholeNumber (negative : Bool) (sig : Nat) : Number :=
  if !negative then .integer sig
  else if 0 < sig ∧ sig ≤ 9223372036854775808 then .integer (-sig)
  else signed true (UInt64.ofNat sig).toFloat

/-! ## Reading -/

/-- The digits of an exponent. -/
inductive ExponentDigits where
  /-- The exponent, and what follows it. -/
  | value (n : Nat) (rest : Bytes)
  /-- The exponent passes 2 ^ 31 - 1 with the digit in front of `rest`. -/
  | huge (rest : Bytes)

/-- Reads the digits of an exponent that continue `n`. -/
def exponentDigits (n : Nat) : Bytes → ExponentDigits
  | [] => .value n []
  | b :: rest =>
    if isDigit b then
      let next := n * 10 + digitValue b
      if next ≤ 2147483647 then exponentDigits next rest else .huge rest
    else
      .value n (b :: rest)

/-- The sign in front of an exponent: whether it is a minus sign, and what follows. -/
def exponentSign : Bytes → Bool × Bytes
  | 43 :: rest => (false, rest)
  | 45 :: rest => (true, rest)
  | rest => (false, rest)

/-- Reads what follows the letter of an exponent of the number `sig * 10 ^ e`. -/
def exponentTail (negative : Bool) (sig : Nat) (e : Int) (bs : Bytes) : Read Number :=
  let (down, bs) := exponentSign bs
  match bs with
  | [] => halt .ending []
  | b :: rest =>
    if !isDigit b then
      halt .grammar rest
    else
      match exponentDigits (digitValue b) rest with
      | .value n rest => scaled negative sig (if down then e - n else e + n) rest
      | .huge rest =>
        if sig ≠ 0 ∧ !down then halt .grammar rest
        else .ok (signed negative 0, rest.dropWhile isDigit)

/-- Whether an octet begins an exponent. -/
def isExponentLetter (b : UInt8) : Bool := b == 101 || b == 69

/-- Reads what follows the digits of the number `sig * 10 ^ e` that has a fraction. -/
def fractionEnd (negative : Bool) (sig : Nat) (e : Int) : Bytes → Read Number
  | [] => scaled negative sig e []
  | b :: rest =>
    if isExponentLetter b then exponentTail negative sig e rest
    else scaled negative sig e (b :: rest)

/-- Reads what follows the point of the number `sig * 10 ^ e`. -/
def fractionTail (negative : Bool) (sig : Nat) (e : Int) (bs : Bytes) : Read Number :=
  let digits := bs.takeWhile isDigit
  let rest := bs.dropWhile isDigit
  if digits.isEmpty then
    match rest with
    | [] => halt .ending []
    | _ :: rest => halt .grammar rest
  else
    let (sig, left) := accumulate sig digits
    fractionEnd negative sig (e - (digits.length - left : Nat)) rest

/-- Reads what follows the integer digits `digits`. -/
def integerEnd (negative : Bool) (digits rest : Bytes) : Read Number :=
  let (sig, left) := accumulate 0 digits
  match rest with
  | b :: tail =>
    if b = 46 then fractionTail negative sig left tail
    else if isExponentLetter b then exponentTail negative sig left tail
    else if left = 0 then .ok (wholeNumber negative sig, rest)
    else scaled negative sig left rest
  | [] =>
    if left = 0 then .ok (wholeNumber negative sig, [])
    else scaled negative sig left []

/-- Reads a number whose sign has been read. -/
def number (negative : Bool) : Bytes → Read Number
  | [] => halt .ending []
  | b :: rest =>
    if b = 48 then
      match rest with
      | d :: tail => if isDigit d then halt .grammar tail else integerEnd negative [b] rest
      | [] => integerEnd negative [b] []
    else if isDigit b then
      integerEnd negative (b :: rest.takeWhile isDigit) (rest.dropWhile isDigit)
    else
      halt .grammar rest

end Strongbox.Json
