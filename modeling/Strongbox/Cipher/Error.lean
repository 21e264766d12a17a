/-!
# Failures of encryption

A failure says what went wrong and never holds key material or plaintext.
-/

namespace Strongbox

/-- Why a value could not be encrypted or decrypted. -/
inductive CryptoError where
  /-- A segment could not be sealed. -/
  | encryption (reason : String)
  /-- A segment is not authentic: another key, or damaged, reordered or missing data. -/
  | decryption (reason : String)
  /-- The ciphertext cannot hold a header and the tag of a final segment. -/
  | ciphertextTooShort (expected actual : Nat)
  /-- The text of a key is not one. -/
  | invalidKey (reason : String)
  /-- The header names an unknown format. -/
  | unsupportedVersion (version : Nat)
  deriving DecidableEq, Repr

/-- The wording of a failure. -/
def CryptoError.message : CryptoError → String
  | .encryption reason => s!"encryption failed: {reason}"
  | .decryption reason => s!"decryption failed: {reason}"
  | .ciphertextTooShort expected actual =>
    s!"ciphertext too short: expected at least {expected} bytes, got {actual}"
  | .invalidKey reason => s!"invalid encryption key: {reason}"
  | .unsupportedVersion version => s!"unsupported ciphertext version {version}"

end Strongbox
