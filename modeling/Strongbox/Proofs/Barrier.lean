import Strongbox.Barrier
import Strongbox.Proofs.Cipher.Segments
import Strongbox.Proofs.Engine

/-!
# Values behind the barrier

What the barrier reads under a key is the decrypted value of that key, and what it writes
is decrypted again.
-/

set_option autoImplicit false

namespace Strongbox

/-- The decrypted value of a key, as far as the engine answers. -/
def Engine.plaintext? (a : Aead) (key : String) (e : Engine) : Except CryptoError (Option Bytes) :=
  match e.value? key with
  | none => .ok none
  | some ciphertext => (Stream.decrypt a ciphertext).map some

/-- A plaintext depends on the value of its key only. -/
theorem Engine.plaintext?_congr {a : Aead} {key : String} {e f : Engine}
    (h : e.value? key = f.value? key) : e.plaintext? a key = f.plaintext? a key := by
  unfold plaintext?
  rw [h]

/-- What is encrypted with random octets is decrypted again, unless it is too long to be
encrypted. -/
theorem Stream.encrypt_cases {a : Aead} (ha : a.Lawful) (plaintext : Bytes) (entropy : Entropy) :
    (Fits plaintext ∧ ∃ c, encrypt a plaintext entropy = (.ok c, (entropy.draw drawLength).2) ∧
      decrypt a c = .ok plaintext) ∨
    (¬ Fits plaintext ∧
      encrypt a plaintext entropy =
        (.error (.encryption refusal), (entropy.draw drawLength).2)) := by
  have hstem : ((entropy.draw drawLength).1.take stemLength).length = stemLength := by
    unfold Entropy.draw
    rw [List.length_take, List.length_map, List.length_range]
    rfl
  unfold encrypt
  dsimp only
  by_cases hfits : Fits plaintext
  · have hencrypt : encryptWith a ((entropy.draw drawLength).1.take stemLength) plaintext = .ok _ :=
      encryptWith_eq hfits
    refine .inl ⟨hfits, _, ?_, decrypt_encryptWith ha hstem hencrypt⟩
    rw [hencrypt]
  · refine .inr ⟨hfits, ?_⟩
    rw [encryptWith_eq_error hfits]

/-- Only what is short enough is encrypted. -/
theorem Stream.fits_of_encrypt {a : Aead} {plaintext c : Bytes} {entropy : Entropy}
    (h : (encrypt a plaintext entropy).1 = .ok c) : Fits plaintext := by
  by_cases hfits : Fits plaintext
  · exact hfits
  · unfold encrypt at h
    dsimp only at h
    rw [encryptWith_eq_error hfits] at h
    exact absurd h (by simp)

namespace Barrier

/-! ## Engine calls -/

section Engine

variable {α : Type} {call : EngineCall α} {s : Ambient} {e : Engine}

/-- What the engine answers, the barrier hands on. -/
theorem onEngine_ok {x : α} (h : call s.engine = .ok x e) :
    onEngine call s = .ok x { s with engine := e } := by
  unfold onEngine EngineCall.within
  rw [h]

/-- What the engine fails to do, the barrier reports as a failure of storage. -/
theorem onEngine_error {error : StorageError} (h : call s.engine = .error error e) :
    onEngine call s = .error (.storage error) { s with engine := e } := by
  unfold onEngine EngineCall.within
  rw [h]

/-- What is answered, the engine has answered. -/
theorem onEngine_eq_ok {x : α} {t : Ambient} (h : onEngine call s = .ok x t) :
    ∃ f, call s.engine = .ok x f := by
  cases hrun : call s.engine with
  | ok y f =>
    rw [onEngine_ok hrun] at h
    injection h with hanswer
    exact ⟨f, by rw [hanswer]⟩
  | error cause f =>
    rw [onEngine_error hrun] at h
    exact absurd h (by simp)

/-- What fails, the engine has failed to do. -/
theorem onEngine_eq_error {error : BarrierError} {t : Ambient}
    (h : onEngine call s = .error error t) :
    ∃ cause f, call s.engine = .error cause f ∧ error = .storage cause ∧
      t = { s with engine := f } := by
  cases hrun : call s.engine with
  | ok y f =>
    rw [onEngine_ok hrun] at h
    exact absurd h (by simp)
  | error cause f =>
    rw [onEngine_error hrun] at h
    injection h with herror hstate
    exact ⟨cause, f, rfl, herror.symm, hstate.symm⟩

end Engine

/-! ## Reading -/

/-- Decryption answers the plaintext and leaves everything as it was. -/
theorem decrypt_ok {a : Aead} {ciphertext plaintext : Bytes}
    (h : Stream.decrypt a ciphertext = .ok plaintext) (s : Ambient) :
    decrypt a ciphertext s = .ok plaintext s := by
  unfold decrypt
  rw [h]
  rfl

/-- What cannot be decrypted is reported with the cause, and leaves everything as it was. -/
theorem decrypt_error {a : Aead} {ciphertext : Bytes} {cause : CryptoError}
    (h : Stream.decrypt a ciphertext = .error cause) (s : Ambient) :
    decrypt a ciphertext s = .error (.crypto cause) s := by
  unfold decrypt
  rw [h]
  rfl

/-- The value of a key after the engine has answered. -/
theorem get_of_answer {a : Aead} {key : String} {s : Ambient} {e : Engine}
    (h : Engine.get key s.engine = .ok (s.engine.value? key) e) :
    get a key s =
      match s.engine.plaintext? a key with
      | .ok x => .ok x { s with engine := e }
      | .error cause => .error (.crypto cause) { s with engine := e } := by
  unfold get Engine.plaintext?
  rw [Call.bind_ok (onEngine_ok h)]
  cases s.engine.value? key with
  | none => rfl
  | some ciphertext =>
    dsimp only
    cases hdecrypt : Stream.decrypt a ciphertext with
    | ok plaintext =>
      rw [Call.bind_ok (decrypt_ok hdecrypt _)]
      rfl
    | error cause =>
      rw [Call.bind_error (decrypt_error hdecrypt _)]
      rfl

/-- A value is read as it is bound, or the reading fails; either leaves the contents. -/
theorem get_cases (a : Aead) (key : String) (s : Ambient) :
    ∃ e, e.contents = s.engine.contents ∧
      ((∃ x, s.engine.plaintext? a key = .ok x ∧ get a key s = .ok x { s with engine := e }) ∨
        ∃ error, get a key s = .error error { s with engine := e }) := by
  obtain ⟨face, ⟨value, contents, ⟨hvalue, hcontents⟩, hget⟩ | ⟨error, hget⟩⟩ :=
    Engine.get_outcome key s.engine
  · subst hvalue hcontents
    refine ⟨{ s.engine with face }, rfl, ?_⟩
    rw [get_of_answer hget]
    cases s.engine.plaintext? a key with
    | ok x => exact .inl ⟨x, rfl, rfl⟩
    | error cause => exact .inr ⟨_, rfl⟩
  · refine ⟨{ s.engine with face }, rfl, .inr ⟨.storage error, ?_⟩⟩
    unfold get
    rw [Call.bind_error (onEngine_error hget)]

/-! ## Writing -/

/-- A value is written as its ciphertext, which is decrypted again, or the writing fails
and leaves the contents. -/
theorem put_cases {a : Aead} (ha : a.Lawful) (key : String) (plaintext : Bytes) (s : Ambient) :
    ∃ e, (∃ c, (Stream.encrypt a plaintext s.entropy).1 = .ok c ∧
        Stream.decrypt a c = .ok plaintext ∧
        e.contents = s.engine.contents.put key c ∧
        put a key plaintext s =
          .ok () { s with engine := e, entropy := (s.entropy.draw Stream.drawLength).2 }) ∨
      ∃ error, e.contents = s.engine.contents ∧
        put a key plaintext s =
          .error error { s with engine := e, entropy := (s.entropy.draw Stream.drawLength).2 } := by
  rcases Stream.encrypt_cases ha plaintext s.entropy with
    ⟨-, c, hencrypt, hdecrypt⟩ | ⟨-, hencrypt⟩
  · have hcall : encrypt a plaintext s =
        .ok c { s with entropy := (s.entropy.draw Stream.drawLength).2 } := by
      unfold encrypt
      rw [hencrypt]
    obtain ⟨face, ⟨answer, contents, hcontents, hput⟩ | ⟨error, hput⟩⟩ :=
      Engine.put_outcome key c s.engine
    · refine ⟨{ s.engine with face, contents }, .inl ⟨c, by rw [hencrypt], hdecrypt, hcontents, ?_⟩⟩
      unfold put
      rw [Call.bind_ok hcall]
      exact onEngine_ok hput
    · refine ⟨{ s.engine with face }, .inr ⟨.storage error, rfl, ?_⟩⟩
      unfold put
      rw [Call.bind_ok hcall]
      exact onEngine_error hput
  · have hcall : encrypt a plaintext s =
        .error (.crypto (.encryption Stream.refusal))
          { s with entropy := (s.entropy.draw Stream.drawLength).2 } := by
      unfold encrypt
      rw [hencrypt]
    refine ⟨s.engine, .inr ⟨.crypto (.encryption Stream.refusal), rfl, ?_⟩⟩
    unfold put
    rw [Call.bind_error hcall]

/-- On a healthy engine only a value that is too long fails to be written. -/
theorem put_of_isHealthy {a : Aead} (ha : a.Lawful) {s : Ambient} (hs : s.engine.IsHealthy)
    (key : String) (plaintext : Bytes) :
    (Stream.Fits plaintext ∧ ∃ c, Stream.decrypt a c = .ok plaintext ∧
      put a key plaintext s = .ok ()
        { s with
          engine := { s.engine with contents := s.engine.contents.put key c }
          entropy := (s.entropy.draw Stream.drawLength).2 }) ∨
    (¬ Stream.Fits plaintext ∧
      put a key plaintext s = .error (.crypto (.encryption Stream.refusal))
        { s with entropy := (s.entropy.draw Stream.drawLength).2 }) := by
  rcases Stream.encrypt_cases ha plaintext s.entropy with
    ⟨hfits, c, hencrypt, hdecrypt⟩ | ⟨hfits, hencrypt⟩
  · refine .inl ⟨hfits, c, hdecrypt, ?_⟩
    have hcall : encrypt a plaintext s =
        .ok c { s with entropy := (s.entropy.draw Stream.drawLength).2 } := by
      unfold encrypt
      rw [hencrypt]
    unfold put
    rw [Call.bind_ok hcall]
    exact onEngine_ok (hs.put key c)
  · refine .inr ⟨hfits, ?_⟩
    have hcall : encrypt a plaintext s =
        .error (.crypto (.encryption Stream.refusal))
          { s with entropy := (s.entropy.draw Stream.drawLength).2 } := by
      unfold encrypt
      rw [hencrypt]
    unfold put
    rw [Call.bind_error hcall]

end Barrier

end Strongbox
