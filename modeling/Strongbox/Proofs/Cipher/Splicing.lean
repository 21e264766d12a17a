import Strongbox.Proofs.Cipher.Galois
import Strongbox.Proofs.Cipher.Segments
import Mathlib.Data.List.Nodup

/-!
# No splicing of ciphertexts

A history is a list of encryptions under one key, each with the stem that it drew.  An
attacker may build a byte string from any pieces of the ciphertexts of the history.  As
long as the cipher opens no piece that the history has not sealed under the same nonce,
and no stem was drawn twice, decryption accepts only what one encryption of the history
returned, whole and unchanged, and gives back the plaintext of that encryption.

The cipher is asked only about the pieces of the byte string in question.  It could not be
asked about all pieces at once, because sealing and opening work under every nonce.
-/

set_option autoImplicit false

namespace Strongbox.Stream

/-- An encryption: the source of random octets that it drew from, and a plaintext whose
segments can be numbered. -/
structure Call where
  entropy : Entropy
  plaintext : Bytes
  fits : Fits plaintext

namespace Call

/-- The stem that an encryption draws. -/
def stem (x : Call) : Bytes := (x.entropy.draw drawLength).1.take stemLength

/-- The result of an encryption. -/
def ciphertext (a : Aead) (x : Call) : Except CryptoError Bytes :=
  (encrypt a x.plaintext x.entropy).1

/-- The sealed segments of an encryption with their nonces. -/
def sealed (a : Aead) (x : Call) : List (Bytes × Bytes) :=
  let cut := Bytes.pieces segmentSize x.plaintext
  sealings a x.stem cut.2 0 cut.1

/-- A call draws a stem of full length. -/
theorem length_stem (x : Call) : x.stem.length = stemLength := by
  unfold stem Entropy.draw
  rw [List.length_take, List.length_map, List.length_range]
  rfl

/-- An encryption in the history succeeds. -/
theorem ciphertext_eq (a : Aead) (x : Call) :
    x.ciphertext a =
      .ok (version :: (x.stem ++
        ((sealedCut a x.stem x.plaintext).1.flatten ++ (sealedCut a x.stem x.plaintext).2))) :=
  encryptWith_eq x.fits

/-- The sealed segments of an encryption are numbered under its own stem. -/
theorem exists_nonce_of_mem_sealed {a : Aead} {x : Call} {y : Bytes × Bytes}
    (h : y ∈ x.sealed a) : ∃ j b, j ≤ maxNumber ∧ y.1 = nonce x.stem j b := by
  obtain ⟨j, b, -, hhigh, hy⟩ := mem_openings h
  have hle := (length_pieces_le_iff x.plaintext).2 x.fits
  rw [length_sealedPieces, Nat.zero_add] at hhigh
  exact ⟨j, b, by omega, hy⟩

end Call

/-- The pieces of a byte string, each with the nonce under which decryption opens it. -/
def attempts (c : Bytes) : List (Bytes × Bytes) :=
  let cut := Bytes.pieces sealedSize (c.tail.drop stemLength)
  openings (c.tail.take stemLength) cut.2 0 cut.1

/-- A byte string none of whose pieces is a forgery: the cipher opens a piece only if an
encryption of the history sealed it under the same nonce. -/
def Unforged (a : Aead) (history : List Call) (c : Bytes) : Prop :=
  ∀ x ∈ attempts c, (a.decrypt? x.1 x.2).isSome → ∃ call ∈ history, x ∈ call.sealed a

/-- What is no forgery stays so when the history grows. -/
theorem Unforged.mono {a : Aead} {history later : List Call} {c : Bytes}
    (h : Unforged a history c) (hsub : history ⊆ later) : Unforged a later c := by
  intro x hx hopen
  obtain ⟨call, hcall, hsealed⟩ := h x hx hopen
  exact ⟨call, hsub hcall, hsealed⟩

/-- The pieces of a byte string with a header are cut behind the header. -/
theorem attempts_cons {stem body : Bytes} (hstem : stem.length = stemLength) :
    attempts (version :: (stem ++ body)) =
      openings stem (Bytes.pieces sealedSize body).2 0 (Bytes.pieces sealedSize body).1 := by
  unfold attempts
  rw [List.tail_cons, List.take_left' hstem, List.drop_left' hstem]

/-- The pieces of a ciphertext are the segments that its encryption sealed. -/
theorem attempts_ciphertext {a : Aead} (ha : a.Lawful) {x : Call} {c : Bytes}
    (h : x.ciphertext a = .ok c) : attempts c = x.sealed a := by
  rw [Call.ciphertext_eq] at h
  injection h with h
  rw [← h, attempts_cons x.length_stem, pieces_sealedCut ha]
  rfl

/-- The ciphertexts of a history are no forgeries. -/
theorem unforged_ciphertext {a : Aead} (ha : a.Lawful) {history : List Call} {x : Call}
    (hx : x ∈ history) {c : Bytes} (h : x.ciphertext a = .ok c) : Unforged a history c := by
  intro y hy _
  rw [attempts_ciphertext ha h] at hy
  exact ⟨x, hx, hy⟩

/-- Decryption gives back the plaintext of every encryption. -/
theorem decrypt_ciphertext {a : Aead} (ha : a.Lawful) {x : Call} {c : Bytes}
    (h : x.ciphertext a = .ok c) : decrypt a c = .ok x.plaintext :=
  decrypt_encryptWith ha x.length_stem h

/-- What decryption accepts was returned by one encryption of the history. -/
theorem exists_call_of_decrypt {a : Aead} (ha : a.Lawful) {history : List Call}
    (hstems : (history.map Call.stem).Nodup) {c p : Bytes} (hc : Unforged a history c)
    (h : decrypt a c = .ok p) :
    ∃ x ∈ history, x.ciphertext a = .ok c ∧ x.plaintext = p := by
  obtain ⟨stem, body, rfl, hstem, -, hopen⟩ := exists_of_decrypt h
  unfold Unforged at hc
  rw [attempts_cons hstem] at hc
  generalize hcut : Bytes.pieces sealedSize body = cut at hc hopen
  obtain ⟨cs, final⟩ := cut
  have hcs : 0 + cs.length ≤ maxNumber := length_le_of_openFrom (Nat.zero_le _) hopen
  -- Every piece was sealed by an encryption that drew the stem in the header.
  have hsource : ∀ y ∈ openings stem final 0 cs, ∃ x ∈ history, y ∈ x.sealed a ∧ x.stem = stem := by
    intro y hy
    obtain ⟨x, hx, hsealed⟩ := hc y hy (isSome_of_openFrom hopen y hy)
    obtain ⟨j, b, hj, hnonce⟩ := Call.exists_nonce_of_mem_sealed hsealed
    obtain ⟨i, b', -, hi, hnonce'⟩ := mem_openings hy
    rw [hnonce] at hnonce'
    exact ⟨x, hx, hsealed,
      (nonce_injective x.length_stem hstem hj (by omega) hnonce').1⟩
  -- The stem names one encryption, so all pieces come from it.
  obtain ⟨x, hx, -, rfl⟩ :=
    hsource (openings stem final 0 cs).head! (by cases cs <;> simp [openings])
  have hall : ∀ y ∈ openings x.stem final 0 cs, y ∈ x.sealed a := by
    intro y hy
    obtain ⟨z, hz, hsealed, hsame⟩ := hsource y hy
    rwa [List.inj_on_of_nodup_map hstems hz hx hsame] at hsealed
  have hps := (length_pieces_le_iff x.plaintext).2 x.fits
  have heq : openings x.stem final 0 cs = x.sealed a :=
    openings_eq_sealings x.length_stem hcs (by rw [Nat.zero_add]; exact hps) hall
  have hbody : body =
      (sealedCut a x.stem x.plaintext).1.flatten ++ (sealedCut a x.stem x.plaintext).2 := by
    have hflat := congrArg (fun ys => (ys.map (·.2)).flatten) heq
    have hpieces := Bytes.flatten_pieces sealedSize body
    rw [hcut] at hpieces
    unfold Call.sealed sealings at hflat
    simp only [flatten_openings] at hflat
    rw [← hpieces, hflat]
    rfl
  have hciphertext : x.ciphertext a = .ok (version :: (x.stem ++ body)) := by
    rw [Call.ciphertext_eq, ← hbody]
  refine ⟨x, hx, hciphertext, ?_⟩
  rw [decrypt_ciphertext ha hciphertext] at h
  injection h

/-- Under every key, decryption accepts a byte string without forged pieces exactly when
one encryption of the history returned it, and then gives the plaintext of that
encryption; every other such byte string is refused. -/
theorem decrypt_eq_ok_iff_exists_call (k : Key) (history : List Call)
    (hstems : (history.map Call.stem).Nodup) (c : Bytes) (hc : Unforged k.cipher history c) :
    (∀ p, decrypt k.cipher c = .ok p ↔
      ∃ x ∈ history, x.ciphertext k.cipher = .ok c ∧ x.plaintext = p) ∧
    ((∀ x ∈ history, x.ciphertext k.cipher ≠ .ok c) → ∃ e, decrypt k.cipher c = .error e) := by
  have ha := k.lawful_cipher
  refine ⟨?_, ?_⟩
  · intro p
    constructor
    · intro h
      exact exists_call_of_decrypt ha hstems hc h
    · rintro ⟨x, -, hciphertext, rfl⟩
      exact decrypt_ciphertext ha hciphertext
  · intro hnone
    cases h : decrypt k.cipher c with
    | error e => exact ⟨e, rfl⟩
    | ok p =>
      obtain ⟨x, hx, hciphertext, -⟩ := exists_call_of_decrypt ha hstems hc h
      exact absurd hciphertext (hnone x hx)

/-- The first of two encryptions under one key is decrypted. -/
theorem decrypt_first_of_two_calls :
    let k := Key.uniform 7
    let e : Entropy := ⟨UInt8.ofNat, 0⟩
    let x : Call := ⟨e, [1, 2, 3], by decide⟩
    let y : Call := ⟨(e.draw drawLength).2, [4], by decide⟩
    ([x, y].map Call.stem).Nodup ∧
      ∃ c, x.ciphertext k.cipher = .ok c ∧ Unforged k.cipher [x, y] c ∧
        decrypt k.cipher c = .ok [1, 2, 3] := by
  intro k e x y
  have hstems : ([x, y].map Call.stem).Nodup := by decide
  have hciphertext := Call.ciphertext_eq k.cipher x
  have hunforged := unforged_ciphertext k.lawful_cipher (List.mem_cons_self (l := [y])) hciphertext
  refine ⟨hstems, _, hciphertext, hunforged, ?_⟩
  exact ((decrypt_eq_ok_iff_exists_call k [x, y] hstems _ hunforged).1 _).2
    ⟨x, by simp, hciphertext, rfl⟩

end Strongbox.Stream
