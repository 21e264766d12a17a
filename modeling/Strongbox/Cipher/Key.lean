import Strongbox.Cipher.Error
import Strongbox.Cipher.Gcm
import Strongbox.Entropy
import Strongbox.Text.Blank
import Strongbox.Text.Quoted
import Strongbox.Text.Utf8

/-!
# Encryption keys

A key is 32 octets.  It is drawn at random or read from 64 hexadecimal digits, around
which white space may stand.
-/

namespace Strongbox

/-- An encryption key. -/
structure Key where
  octets : Bytes
  length_octets : octets.length = 32

namespace Key

/-- The number of octets of a key. -/
def size : Nat := 32

/-- Why a text is not the hexadecimal form of a key. -/
inductive Fault where
  /-- The text has an odd number of octets. -/
  | oddLength
  /-- The text does not have two octets for each octet of a key. -/
  | wrongLength
  /-- The octet at an index is no hexadecimal digit. -/
  | badDigit (octet : UInt8) (index : Nat)
  deriving DecidableEq, Repr

/-- The wording of a fault; an octet is shown as the character of its number. -/
def Fault.message : Fault → String
  | .oddLength => "Odd number of digits"
  | .wrongLength => "Invalid string length"
  | .badDigit b i =>
    "Invalid character " ++ Text.quoteChar (Char.ofNat b.toNat) ++ " at position " ++ toString i

/-- The first octet that is no hexadecimal digit, counted from `index`. -/
def badDigit? (index : Nat) : Bytes → Option Fault
  | [] => none
  | b :: rest =>
    match Bytes.hexValue? b with
    | none => some (.badDigit b index)
    | some _ => badDigit? (index + 1) rest

/-- The key that a hexadecimal text names, or the fault of the text. -/
def parse (s : String) : Except Fault Key :=
  let digits := Utf8.encode (Text.trim s)
  if digits.length % 2 ≠ 0 then .error .oddLength
  else if digits.length / 2 ≠ size then .error .wrongLength
  else
    match badDigit? 0 digits with
    | some fault => .error fault
    | none =>
      match Bytes.ofHexDigits? digits with
      | some octets =>
        if h : octets.length = 32 then .ok ⟨octets, h⟩ else .error .wrongLength
      | none => .error .wrongLength

/-- The key that a hexadecimal text names. -/
def ofHex (s : String) : Except CryptoError Key :=
  (parse s).mapError fun fault => .invalidKey fault.message

/-- The key of 32 equal octets. -/
def uniform (octet : UInt8) : Key :=
  ⟨List.replicate 32 octet, List.length_replicate⟩

/-- A key drawn at random. -/
def generate (e : Entropy) : Key × Entropy :=
  let drawn := e.draw 32
  (⟨drawn.1, by simp [drawn, Entropy.draw]⟩, drawn.2)

/-- The cipher under a key. -/
def cipher (k : Key) : Aead := aes256Gcm k.octets

/-- The description of a key, which never shows its octets. -/
def describe (_ : Key) : String :=
  "EncryptionKey \x7b bytes: \"[REDACTED]\" \x7d"

end Key

end Strongbox
