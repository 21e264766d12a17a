/-!
# Byte strings

Stored values, ciphertexts and raw keys are lists of octets.  This file holds the
few operations that every layer shares: fixed-width big-endian numbers, hexadecimal
text, and the cut of a byte string into pieces of one size.
-/

namespace Strongbox

/-- A byte string. -/
abbrev Bytes := List UInt8

namespace Bytes

/-- The `width` low octets of `n`, most significant first. -/
def bigEndian : (width : Nat) → (n : Nat) → Bytes
  | 0, _ => []
  | w + 1, n => bigEndian w (n / 256) ++ [UInt8.ofNat (n % 256)]

/-- A number is written in as many octets as were asked for. -/
theorem length_bigEndian (width n : Nat) : (bigEndian width n).length = width := by
  induction width generalizing n with
  | zero => rfl
  | succ w ih => simp [bigEndian, ih]

/-- The number that a big-endian byte string denotes. -/
def toNat (bs : Bytes) : Nat :=
  bs.foldl (fun n b => n * 256 + b.toNat) 0

/-- Two byte strings combined octet by octet; the result is as long as the shorter. -/
def xor (xs ys : Bytes) : Bytes :=
  List.zipWith (· ^^^ ·) xs ys

/-- The last `n` octets of a byte string, or all of them if there are fewer. -/
def lastOctets (n : Nat) (bs : Bytes) : Bytes :=
  bs.drop (bs.length - n)

/-! ## Pieces -/

/-- The cut of a byte string into full pieces of `size` octets and one final piece.
The final piece is never longer than `size`, and it is empty only when the whole
string is. -/
def pieces (size : Nat) (bs : Bytes) : List Bytes × Bytes :=
  if _h : 0 < size ∧ size < bs.length then
    let rest := pieces size (bs.drop size)
    (bs.take size :: rest.1, rest.2)
  else
    ([], bs)
termination_by bs.length
decreasing_by
  rw [List.length_drop]
  omega

/-- What fits a piece is the last one. -/
theorem pieces_of_le {size : Nat} {bs : Bytes} (h : bs.length ≤ size) :
    pieces size bs = ([], bs) := by
  rw [pieces]
  split
  · omega
  · rfl

/-- What is longer than a piece begins with a full one, and the rest is cut as it would be alone. -/
theorem pieces_of_lt {size : Nat} {bs : Bytes} (hsize : 0 < size) (h : size < bs.length) :
    pieces size bs =
      (bs.take size :: (pieces size (bs.drop size)).1, (pieces size (bs.drop size)).2) := by
  rw [pieces]
  split
  · rfl
  · omega

/-- The cut loses nothing. -/
theorem flatten_pieces (size : Nat) (bs : Bytes) :
    (pieces size bs).1.flatten ++ (pieces size bs).2 = bs := by
  fun_induction pieces size bs with
  | case1 bs h rest ih =>
    simp only [List.flatten_cons, List.append_assoc]
    rw [ih, List.take_append_drop]
  | case2 bs h => rfl

/-! ## Hexadecimal text -/

/-- The lower-case hexadecimal digit of a number below sixteen. -/
def hexDigit (n : Nat) : Char :=
  if n < 10 then Char.ofNat (48 + n) else Char.ofNat (87 + n)

/-- A byte string as lower-case hexadecimal, two digits an octet. -/
def toHex (bs : Bytes) : String :=
  String.ofList (bs.flatMap fun b => [hexDigit (b.toNat / 16), hexDigit (b.toNat % 16)])

/-- The value of a hexadecimal digit, given by its octet in either case. -/
def hexValue? (b : UInt8) : Option Nat :=
  let n := b.toNat
  if 48 ≤ n ∧ n ≤ 57 then some (n - 48)
  else if 97 ≤ n ∧ n ≤ 102 then some (n - 87)
  else if 65 ≤ n ∧ n ≤ 70 then some (n - 55)
  else none

/-- The octets that pairs of hexadecimal digits name; a trailing single digit or any
other character makes the whole text unreadable. -/
def ofHexDigits? : Bytes → Option Bytes
  | [] => some []
  | [_] => none
  | a :: b :: rest => do
    let high ← hexValue? a
    let low ← hexValue? b
    let tail ← ofHexDigits? rest
    pure (UInt8.ofNat (16 * high + low) :: tail)

end Bytes

end Strongbox
