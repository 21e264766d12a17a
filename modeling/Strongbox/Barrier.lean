import Strongbox.Ambient
import Strongbox.Cipher.Stream
import Strongbox.Error

/-!
# The encryption barrier

Every value passes through the barrier on its way to the engine and back, so the engine
sees only ciphertext.  Keys stay readable, because ranges of them are scanned.
-/

namespace Strongbox

/-- An operation of the barrier. -/
abbrev BarrierCall (α : Type) := EStateM BarrierError Ambient α

namespace Barrier

/-- Runs an engine call. -/
def onEngine {α : Type} (call : EngineCall α) : BarrierCall α := call.within .storage

/-- Decrypts a value. -/
def decrypt (a : Aead) (ciphertext : Bytes) : BarrierCall Bytes :=
  match Stream.decrypt a ciphertext with
  | .ok plaintext => pure plaintext
  | .error e => throw (.crypto e)

/-- Encrypts a value under a random stem. -/
def encrypt (a : Aead) (plaintext : Bytes) : BarrierCall Bytes := fun s =>
  match Stream.encrypt a plaintext s.entropy with
  | (.ok ciphertext, entropy) => .ok ciphertext { s with entropy }
  | (.error e, entropy) => .error (.crypto e) { s with entropy }

/-- The value of a key. -/
def get (a : Aead) (key : String) : BarrierCall (Option Bytes) := do
  match ← onEngine (Engine.get key) with
  | none => pure none
  | some ciphertext =>
    let plaintext ← decrypt a ciphertext
    pure (some plaintext)

/-- Binds a key to a value. -/
def put (a : Aead) (key : String) (plaintext : Bytes) : BarrierCall Unit := do
  let ciphertext ← encrypt a plaintext
  onEngine (Engine.put key ciphertext)

/-- Removes a key and says whether it was there. -/
def delete (key : String) : BarrierCall Bool := onEngine (Engine.delete key)

/-- Whether a key is there. -/
def exists? (key : String) : BarrierCall Bool := onEngine (Engine.exists? key)

/-- One page of entries, still encrypted. -/
def scan (stem : String) (after : Option String) (limit : Nat) : BarrierCall (List Entry) :=
  onEngine (Engine.scan stem after limit)

/-- The keys of one page. -/
def scanKeys (stem : String) (after : Option String) (limit : Nat) : BarrierCall (List String) :=
  onEngine (Engine.scanKeys stem after limit)

/-- The entry with the greatest key that begins with `stem`, decrypted. -/
def last (a : Aead) (stem : String) : BarrierCall (Option Entry) := do
  match ← onEngine (Engine.last stem) with
  | none => pure none
  | some (key, ciphertext) =>
    let plaintext ← decrypt a ciphertext
    pure (some (key, plaintext))

/-- The description of a barrier, which shows no key material. -/
def describe (k : String) : String := "Barrier \x7b key: " ++ k ++ ", .. \x7d"

end Barrier

end Strongbox
