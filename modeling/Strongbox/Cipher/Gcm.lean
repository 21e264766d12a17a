import Strongbox.Cipher.Aead
import Strongbox.Cipher.Aes

/-!
# AES-256 in Galois/counter mode

A plaintext is combined with the enciphered values of a counter that starts from the
nonce, and the tag is a keyed hash of the result in the field of 2 ^ 128 elements.
There is no associated data, and nonces have twelve octets.
-/

namespace Strongbox.Gcm

/-! ## The field of 2 ^ 128 elements -/

/-- An element of the field; the first bit of `high` is the constant coefficient. -/
structure Element where
  high : UInt64
  low : UInt64
  deriving DecidableEq, Repr, Inhabited

/-- The sum of two elements. -/
def Element.add (x y : Element) : Element := ⟨x.high ^^^ y.high, x.low ^^^ y.low⟩

/-- The product of `x` and the element with the words `vh` and `vl`, added to the element
with the words `zh` and `zl`: the `n` first bits of the words `xh` and `xl` are used. -/
def mulFrom (zh zl vh vl xh xl : UInt64) : (n : Nat) → Element
  | 0 => ⟨zh, zl⟩
  | n + 1 =>
    let take := xh >>> 63 == 1
    let zh := if take then zh ^^^ vh else zh
    let zl := if take then zl ^^^ vl else zl
    let odd := vl &&& 1 == 1
    let wl := (vl >>> 1) ||| (vh <<< 63)
    let wh := vh >>> 1
    let wh := if odd then wh ^^^ 0xE100000000000000 else wh
    mulFrom zh zl wh wl ((xh <<< 1) ||| (xl >>> 63)) (xl <<< 1) n

/-- The product of two elements. -/
def Element.mul (x y : Element) : Element :=
  mulFrom 0 0 y.high y.low x.high x.low 128

/-- The word of the next `n` octets, shifted in behind `acc`; missing ones are zero. -/
def packFrom (acc : UInt64) : (n : Nat) → Bytes → UInt64
  | 0, _ => acc
  | n + 1, [] => packFrom (acc <<< 8) n []
  | n + 1, b :: bs => packFrom ((acc <<< 8) ||| b.toUInt64) n bs

/-- The element of sixteen octets; missing ones are zero. -/
def Element.ofBytes (bs : Bytes) : Element :=
  ⟨packFrom 0 8 bs, packFrom 0 8 (bs.drop 8)⟩

/-- The octets of an element. -/
def Element.toBytes (x : Element) : Bytes :=
  Bytes.bigEndian 8 x.high.toNat ++ Bytes.bigEndian 8 x.low.toNat

/-! ## The hash -/

/-- The hash `acc` continued over a byte string, sixteen octets at a time. -/
def hashFrom (key : Element) (acc : Element) (bs : Bytes) : Element :=
  if _h : 0 < bs.length then
    hashFrom key ((acc.add (Element.ofBytes (bs.take 16))).mul key) (bs.drop 16)
  else acc
termination_by bs.length
decreasing_by
  rw [List.length_drop]
  omega

/-- The hash of a ciphertext and its length in bits. -/
def hash (key : Element) (ciphertext : Bytes) : Element :=
  let body := hashFrom key ⟨0, 0⟩ ciphertext
  (body.add ⟨0, UInt64.ofNat (8 * ciphertext.length)⟩).mul key

/-! ## Sealing and opening -/

/-- What a key determines: the round keys and the key of the hash. -/
structure Schedule where
  rounds : List Aes.Block
  hashKey : Element

/-- The schedule of a key of 32 octets. -/
def Schedule.ofKey (key : Bytes) : Schedule :=
  let rounds := Aes.roundKeys key
  ⟨rounds, Element.ofBytes (Aes.encipher rounds (Aes.Block.ofBytes [])).toBytes⟩

/-- The enciphered counter block `i` of a nonce. -/
def counterBlock (s : Schedule) (nonce : Bytes) (i : Nat) : Bytes :=
  (Aes.encipher s.rounds (Aes.Block.ofBytes (nonce ++ Bytes.bigEndian 4 i))).toBytes

/-- At least `length` octets of key stream; they begin with counter block 2. -/
def keyStream (s : Schedule) (nonce : Bytes) (length : Nat) : Bytes :=
  (List.range ((length + 15) / 16)).flatMap fun i => counterBlock s nonce (i + 2)

/-- A byte string combined with the key stream of a nonce. -/
def crypt (s : Schedule) (nonce bs : Bytes) : Bytes :=
  bs.xor (keyStream s nonce bs.length)

/-- The tag of a ciphertext. -/
def tag (s : Schedule) (nonce ciphertext : Bytes) : Bytes :=
  (hash s.hashKey ciphertext).toBytes.xor (counterBlock s nonce 1)

/-- A ciphertext and its tag. -/
def encrypt (s : Schedule) (nonce plaintext : Bytes) : Bytes :=
  let ciphertext := crypt s nonce plaintext
  ciphertext ++ tag s nonce ciphertext

/-- The plaintext of a ciphertext whose tag is right. -/
def decrypt? (s : Schedule) (nonce sealed : Bytes) : Option Bytes :=
  if sealed.length < Aead.tagLength then
    none
  else
    let ciphertext := sealed.take (sealed.length - Aead.tagLength)
    if sealed.drop (sealed.length - Aead.tagLength) = tag s nonce ciphertext then
      some (crypt s nonce ciphertext)
    else
      none

end Strongbox.Gcm

namespace Strongbox

/-- AES-256-GCM under a key of 32 octets. -/
def aes256Gcm (key : Bytes) : Aead :=
  let s := Gcm.Schedule.ofKey key
  ⟨Gcm.encrypt s, Gcm.decrypt? s⟩

end Strongbox
