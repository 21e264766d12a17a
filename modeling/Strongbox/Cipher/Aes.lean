import Strongbox.Bytes

/-!
# The block cipher AES-256

A block of sixteen octets is four columns of four.  The substitution box is computed
from its definition: the inverse in the field of 256 elements, followed by an affine map
over the bits.
-/

namespace Strongbox.Aes

/-! ## The field of 256 elements -/

/-- The product with the polynomial `x`. -/
def double (a : UInt8) : UInt8 :=
  (a <<< 1) ^^^ (if a < 128 then 0 else 0x1B)

/-- The product of `a` and `b`, added to `acc`, by the `n` low bits of `b`. -/
def mulFrom (acc : UInt8) (a b : UInt8) : (n : Nat) → UInt8
  | 0 => acc
  | n + 1 => mulFrom (if b % 2 = 1 then acc ^^^ a else acc) (double a) (b / 2) n

/-- The product in the field. -/
def mul (a b : UInt8) : UInt8 := mulFrom 0 a b 8

/-- The inverse in the field, and zero for zero: the power 254. -/
def inverse (a : UInt8) : UInt8 :=
  let a2 := mul a a
  let a3 := mul a2 a
  let a6 := mul a3 a3
  let a12 := mul a6 a6
  let a15 := mul a12 a3
  let a30 := mul a15 a15
  let a60 := mul a30 a30
  let a63 := mul a60 a3
  let a126 := mul a63 a63
  let a127 := mul a126 a
  mul a127 a127

/-- An octet rotated left by `n` bits. -/
def rotate (a : UInt8) (n : UInt8) : UInt8 := (a <<< n) ||| (a >>> (8 - n))

/-- The substitution by its definition. -/
def substitute (a : UInt8) : UInt8 :=
  let b := inverse a
  b ^^^ rotate b 1 ^^^ rotate b 2 ^^^ rotate b 3 ^^^ rotate b 4 ^^^ 0x63

/-- The substitutions of all octets. -/
def box : Array UInt8 := Array.ofFn fun i : Fin 256 => substitute (UInt8.ofNat i)

/-- The substitution, looked up. -/
def sub (a : UInt8) : UInt8 := box.getD a.toNat 0

/-! ## Columns and blocks -/

/-- A column of four octets. -/
structure Column where
  a : UInt8
  b : UInt8
  c : UInt8
  d : UInt8
  deriving DecidableEq, Repr, Inhabited

namespace Column

/-- The sum of two columns. -/
def add (x y : Column) : Column :=
  ⟨x.a ^^^ y.a, x.b ^^^ y.b, x.c ^^^ y.c, x.d ^^^ y.d⟩

/-- A column with every octet substituted. -/
def sub (x : Column) : Column :=
  ⟨Aes.sub x.a, Aes.sub x.b, Aes.sub x.c, Aes.sub x.d⟩

/-- A column moved up by one octet. -/
def turn (x : Column) : Column := ⟨x.b, x.c, x.d, x.a⟩

/-- A column times the fixed polynomial of the cipher. -/
def mix (x : Column) : Column :=
  let all := x.a ^^^ x.b ^^^ x.c ^^^ x.d
  ⟨x.a ^^^ all ^^^ double (x.a ^^^ x.b), x.b ^^^ all ^^^ double (x.b ^^^ x.c),
    x.c ^^^ all ^^^ double (x.c ^^^ x.d), x.d ^^^ all ^^^ double (x.d ^^^ x.a)⟩

/-- The octets of a column. -/
def toBytes (x : Column) : Bytes := [x.a, x.b, x.c, x.d]

end Column

/-- A block of four columns. -/
structure Block where
  p : Column
  q : Column
  r : Column
  s : Column
  deriving DecidableEq, Repr, Inhabited

namespace Block

/-- The sum of two blocks. -/
def add (x y : Block) : Block :=
  ⟨x.p.add y.p, x.q.add y.q, x.r.add y.r, x.s.add y.s⟩

/-- Every octet substituted, and every row moved left by its number. -/
def subShift (x : Block) : Block :=
  ⟨⟨sub x.p.a, sub x.q.b, sub x.r.c, sub x.s.d⟩, ⟨sub x.q.a, sub x.r.b, sub x.s.c, sub x.p.d⟩,
    ⟨sub x.r.a, sub x.s.b, sub x.p.c, sub x.q.d⟩, ⟨sub x.s.a, sub x.p.b, sub x.q.c, sub x.r.d⟩⟩

/-- Every column mixed. -/
def mix (x : Block) : Block := ⟨x.p.mix, x.q.mix, x.r.mix, x.s.mix⟩

/-- The octets of a block. -/
def toBytes (x : Block) : Bytes :=
  x.p.toBytes ++ (x.q.toBytes ++ (x.r.toBytes ++ x.s.toBytes))

/-- The block of sixteen octets; missing ones are zero. -/
def ofBytes (bs : Bytes) : Block :=
  match bs ++ List.replicate 16 0 with
  | a :: b :: c :: d :: e :: f :: g :: h :: i :: j :: k :: l :: m :: n :: o :: p :: _ =>
    ⟨⟨a, b, c, d⟩, ⟨e, f, g, h⟩, ⟨i, j, k, l⟩, ⟨m, n, o, p⟩⟩
  | _ => default

/-- A block has sixteen octets. -/
theorem length_toBytes (x : Block) : x.toBytes.length = 16 := rfl

end Block

/-! ## The key schedule and the rounds -/

/-- The block whose columns are the running sums of `first` and the columns of `x`. -/
def chain (first : Column) (x : Block) : Block :=
  let p := x.p.add first
  let q := x.q.add p
  let r := x.r.add q
  ⟨p, q, r, x.s.add r⟩

/-- The round keys that begin with the two halves `low` and `high`, followed by `n` more
pairs, the last of which lacks its second half. -/
def roundKeysFrom : (n : Nat) → (round : UInt8) → (low high : Block) → List Block
  | 0, _, low, _ => [low]
  | n + 1, round, low, high =>
    let nextLow := chain (high.s.turn.sub.add ⟨round, 0, 0, 0⟩) low
    let nextHigh := chain nextLow.s.sub high
    low :: high :: roundKeysFrom n (double round) nextLow nextHigh

/-- The fifteen round keys of a key of 32 octets. -/
def roundKeys (key : Bytes) : List Block :=
  roundKeysFrom 7 1 (Block.ofBytes (key.take 16)) (Block.ofBytes (key.drop 16))

/-- The rounds with the given keys; the last one does not mix. -/
def rounds : List Block → Block → Block
  | [], x => x
  | [k], x => x.subShift.add k
  | k :: l :: ks, x => rounds (l :: ks) (x.subShift.mix.add k)

/-- One block enciphered under the given round keys. -/
def encipher : List Block → Block → Block
  | [], x => x
  | k :: ks, x => rounds ks (x.add k)

end Strongbox.Aes
