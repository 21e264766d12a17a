import Strongbox.Cipher.Key

/-!
# AES-256-GCM undoes itself

Combining a text with a key stream twice gives the text back, so opening undoes sealing
under every key and every nonce, and sealing adds exactly the sixteen octets of the tag.  A tag
is compared whole, so nothing but a sealed form is opened.
Nothing here looks into the block cipher: the length of its blocks is all that is used.
The main statements are `Key.lawful_cipher` and `Key.canonical_cipher`.
-/

set_option autoImplicit false

namespace Strongbox

namespace Bytes

/-- Two strings are combined as far as both reach. -/
theorem length_xor (xs ys : Bytes) : (xs.xor ys).length = min xs.length ys.length := by
  unfold Bytes.xor
  rw [List.length_zipWith]

/-- Combining twice with a string that is long enough gives the first string back. -/
theorem xor_xor_cancel (xs ys : Bytes) (h : xs.length ≤ ys.length) :
    (xs.xor ys).xor ys = xs := by
  unfold Bytes.xor
  induction xs generalizing ys with
  | nil => rfl
  | cons x xs ih =>
    cases ys with
    | nil => simp at h
    | cons y ys =>
      have hle : xs.length ≤ ys.length := by simpa using h
      rw [List.zipWith_cons_cons, List.zipWith_cons_cons, ih ys hle, UInt8.xor_assoc,
        UInt8.xor_self, UInt8.xor_zero]

end Bytes

namespace Gcm

/-- Every block of the key stream has sixteen octets. -/
theorem length_counterBlock (s : Schedule) (nonce : Bytes) (i : Nat) :
    (counterBlock s nonce i).length = 16 :=
  Aes.Block.length_toBytes _

/-- An element of the field has sixteen octets. -/
theorem length_toBytes (x : Element) : x.toBytes.length = 16 := by
  unfold Element.toBytes
  rw [List.length_append, Bytes.length_bigEndian, Bytes.length_bigEndian]

/-- The key stream is as long as the text that it is made for, or longer. -/
theorem length_keyStream (s : Schedule) (nonce : Bytes) (n : Nat) :
    n ≤ (keyStream s nonce n).length := by
  unfold keyStream
  rw [List.length_flatMap]
  simp only [length_counterBlock, List.map_const', List.length_range, List.sum_replicate_nat]
  omega

/-- Encryption in counter mode keeps the length. -/
theorem length_crypt (s : Schedule) (nonce bs : Bytes) : (crypt s nonce bs).length = bs.length := by
  have hlong := length_keyStream s nonce bs.length
  unfold crypt
  rw [Bytes.length_xor]
  omega

/-- Counter mode undoes itself. -/
theorem crypt_crypt (s : Schedule) (nonce bs : Bytes) :
    crypt s nonce (crypt s nonce bs) = bs := by
  have hlen := length_crypt s nonce bs
  have hlong := length_keyStream s nonce bs.length
  unfold crypt at hlen ⊢
  rw [hlen, Bytes.xor_xor_cancel _ _ hlong]

/-- A tag has its full length, whatever is authenticated. -/
theorem length_tag (s : Schedule) (nonce ciphertext : Bytes) :
    (tag s nonce ciphertext).length = Aead.tagLength := by
  unfold tag
  rw [Bytes.length_xor, length_toBytes, length_counterBlock]
  rfl

/-- A ciphertext is longer than its plaintext by the tag. -/
theorem length_encrypt (s : Schedule) (nonce plaintext : Bytes) :
    (encrypt s nonce plaintext).length = plaintext.length + Aead.tagLength := by
  unfold encrypt
  rw [List.length_append, length_tag, length_crypt]

/-- Opening undoes sealing. -/
theorem decrypt?_encrypt (s : Schedule) (nonce plaintext : Bytes) :
    decrypt? s nonce (encrypt s nonce plaintext) = some plaintext := by
  have hlen := length_encrypt s nonce plaintext
  have hbody : (encrypt s nonce plaintext).length - Aead.tagLength =
      (crypt s nonce plaintext).length := by
    rw [hlen, length_crypt]
    omega
  unfold decrypt?
  rw [if_neg (by omega), hbody]
  unfold encrypt
  rw [List.take_left, List.drop_left, if_pos rfl, crypt_crypt]

/-- What is opened is the sealed form of what comes out. -/
theorem encrypt_of_decrypt? {s : Schedule} {nonce sealed plaintext : Bytes}
    (h : decrypt? s nonce sealed = some plaintext) : encrypt s nonce plaintext = sealed := by
  unfold decrypt? at h
  split at h
  · exact absurd h (by simp)
  · dsimp only at h
    split at h
    · rename_i htag
      injection h with h
      unfold encrypt
      rw [← h, crypt_crypt]
      dsimp only
      rw [← htag, List.take_append_drop]
    · exact absurd h (by simp)

end Gcm

/-- Opening undoes sealing, and nothing but sealed forms is opened. -/
structure Aead.Canonical (a : Aead) : Prop extends a.Lawful where
  encrypt_of_decrypt? : ∀ nonce sealed plaintext,
    a.decrypt? nonce sealed = some plaintext → a.encrypt nonce plaintext = sealed

/-- The cipher of every key seals with a tag, and opening undoes sealing. -/
theorem Key.lawful_cipher (k : Key) : k.cipher.Lawful where
  length_encrypt := Gcm.length_encrypt _
  decrypt?_encrypt := Gcm.decrypt?_encrypt _

/-- The cipher of every key opens sealed forms only. -/
theorem Key.canonical_cipher (k : Key) : k.cipher.Canonical where
  toLawful := k.lawful_cipher
  encrypt_of_decrypt? _ _ _ := Gcm.encrypt_of_decrypt?

end Strongbox
