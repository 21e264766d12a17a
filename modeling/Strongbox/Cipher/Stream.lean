import Strongbox.Cipher.Aead
import Strongbox.Cipher.Error
import Strongbox.Entropy

/-!
# Encryption of values in segments

A plaintext is cut into segments of 64 KiB, and each is sealed on its own.  The nonce of
segment `i` is a random stem of seven octets, the number `i` in four, and one octet that
marks the last segment.  A ciphertext is a version octet, the stem, and the sealed
segments; the last one is always there, even for an empty plaintext.
-/

namespace Strongbox.Stream

/-- The number of plaintext octets in a full segment. -/
def segmentSize : Nat := 65536

/-- The number of octets of a full sealed segment. -/
def sealedSize : Nat := segmentSize + Aead.tagLength

/-- The number of random octets in front of the segment number. -/
def stemLength : Nat := 7

/-- The number of octets drawn for a stem; those after the stem are not used. -/
def drawLength : Nat := 12

/-- The octet that every ciphertext begins with. -/
def version : UInt8 := 1

/-- The number of octets in front of the first segment. -/
def headerLength : Nat := 1 + stemLength

/-- The least length of a ciphertext. -/
def minLength : Nat := headerLength + Aead.tagLength

/-- The greatest segment number; only a last segment may have it. -/
def maxNumber : Nat := 4294967295

/-- The reason given when a cipher refuses a segment. -/
def refusal : String := "aead::Error"

/-- The nonce of segment `i`. -/
def nonce (stem : Bytes) (i : Nat) (last : Bool) : Bytes :=
  stem ++ Bytes.bigEndian 4 i ++ [if last then 1 else 0]

/-- The sealed forms of the segments from number `i` on, in order. -/
def sealFrom (a : Aead) (stem last : Bytes) :
    (i : Nat) → List Bytes → Except CryptoError Bytes
  | i, [] => .ok (a.encrypt (nonce stem i true) last)
  | i, p :: ps =>
    if i < maxNumber then
      match sealFrom a stem last (i + 1) ps with
      | .ok rest => .ok (a.encrypt (nonce stem i false) p ++ rest)
      | .error e => .error e
    else
      .error (.encryption refusal)

/-- The ciphertext of a plaintext under a stem. -/
def encryptWith (a : Aead) (stem plaintext : Bytes) : Except CryptoError Bytes :=
  let cut := Bytes.pieces segmentSize plaintext
  match sealFrom a stem cut.2 0 cut.1 with
  | .ok body => .ok (version :: (stem ++ body))
  | .error e => .error e

/-- The ciphertext of a plaintext under a stem drawn at random. -/
def encrypt (a : Aead) (plaintext : Bytes) (e : Entropy) : Except CryptoError Bytes × Entropy :=
  let drawn := e.draw drawLength
  (encryptWith a (drawn.1.take stemLength) plaintext, drawn.2)

/-- The plaintexts of the sealed segments from number `i` on, in order. -/
def openFrom (a : Aead) (stem last : Bytes) :
    (i : Nat) → List Bytes → Except CryptoError Bytes
  | i, [] =>
    match a.decrypt? (nonce stem i true) last with
    | some p => .ok p
    | none => .error (.decryption refusal)
  | i, c :: cs =>
    if i < maxNumber then
      match a.decrypt? (nonce stem i false) c with
      | some p =>
        match openFrom a stem last (i + 1) cs with
        | .ok rest => .ok (p ++ rest)
        | .error e => .error e
      | none => .error (.decryption refusal)
    else
      .error (.decryption refusal)

/-- The plaintext of a ciphertext. -/
def decrypt (a : Aead) (ciphertext : Bytes) : Except CryptoError Bytes :=
  if ciphertext.length < minLength then
    .error (.ciphertextTooShort minLength ciphertext.length)
  else
    match ciphertext with
    | [] => .error (.ciphertextTooShort minLength 0)
    | v :: rest =>
      if v ≠ version then
        .error (.unsupportedVersion v.toNat)
      else
        let cut := Bytes.pieces sealedSize (rest.drop stemLength)
        openFrom a (rest.take stemLength) cut.2 0 cut.1

end Strongbox.Stream
