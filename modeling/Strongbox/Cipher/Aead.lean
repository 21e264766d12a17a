import Strongbox.Bytes

/-!
# Authenticated encryption

What the layers above need of a cipher: to seal a byte string under a nonce, and to open
what was sealed.  They are written for any such pair, so that their theorems can assume
of it no more than they use.
-/

namespace Strongbox

/-- A cipher under a fixed key. -/
structure Aead where
  /-- The sealed form of a plaintext under a nonce. -/
  encrypt : (nonce plaintext : Bytes) → Bytes
  /-- The plaintext of a sealed form, unless it is not authentic under the nonce. -/
  decrypt? : (nonce sealed : Bytes) → Option Bytes

namespace Aead

/-- How many octets sealing adds. -/
def tagLength : Nat := 16

/-- Sealing adds a tag, and opening undoes it. -/
structure Lawful (a : Aead) : Prop where
  length_encrypt : ∀ nonce plaintext,
    (a.encrypt nonce plaintext).length = plaintext.length + tagLength
  decrypt?_encrypt : ∀ nonce plaintext,
    a.decrypt? nonce (a.encrypt nonce plaintext) = some plaintext

end Aead

end Strongbox
