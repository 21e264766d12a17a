import Strongbox.Proofs.Cipher.Galois
import Strongbox.Proofs.Cipher.Segments

/-!
# Which ciphertexts are accepted

Encryption cuts a plaintext into segments of 65536 octets and decryption cuts a ciphertext into
pieces of 65552, and the two cut at the same places: what is encrypted is decrypted again, and its
length is that of the plaintext and of one tag for every segment, the last one included.

Decryption accepts more than encryption makes.  A last segment may be empty behind full ones,
which encryption avoids by cutting only while more than a full segment is left.  Apart from that,
a ciphertext is determined by its stem and its plaintext.  The main statements are
`exists_ciphertext_of_length_le` and `decrypt_eq_ok_iff_holds`.
-/

set_option autoImplicit false

namespace Strongbox

namespace Bytes

/-- A byte string is cut into full pieces and a last one, which is not empty. -/
structure IsCut (size : Nat) (bs : Bytes) (cs : List Bytes) (last : Bytes) : Prop where
  join : cs.flatten ++ last = bs
  full : ∀ c ∈ cs, c.length = size
  pos : 0 < last.length
  le : last.length ≤ size

/-- Where there is an octet, the last piece is not empty. -/
theorem length_last_pieces_pos {size : Nat} {bs : Bytes} (h : 0 < bs.length) :
    0 < (pieces size bs).2.length := by
  fun_induction pieces size bs with
  | case1 bs hcut rest ih => exact ih (by rw [List.length_drop]; omega)
  | case2 bs hcut => exact h

/-- The pieces of octets are the only cut of them into full segments and a last one. -/
theorem isCut_pieces {size : Nat} (hsize : 0 < size) {bs : Bytes} (h : 0 < bs.length) :
    IsCut size bs (pieces size bs).1 (pieces size bs).2 :=
  ⟨flatten_pieces size bs, fun _ => length_of_mem_pieces, length_last_pieces_pos h,
    length_last_pieces_le hsize bs⟩

/-- There is one such cut. -/
theorem IsCut.pieces_eq {size : Nat} {bs last : Bytes} {cs : List Bytes}
    (h : IsCut size bs cs last) : pieces size bs = (cs, last) := by
  rw [← h.join, pieces_flatten h.full h.pos h.le]

/-- Pieces of one size are as long as their number says. -/
theorem length_flatten_of_full {size : Nat} {cs : List Bytes} (h : ∀ c ∈ cs, c.length = size) :
    cs.flatten.length = cs.length * size := by
  have hlengths : cs.map List.length = List.replicate cs.length size :=
    List.map_eq_replicate_iff.2 h
  rw [List.length_flatten, hlengths, List.sum_replicate_nat]

/-- The last piece is always there, so the pieces are as many as it takes, and at least one. -/
theorem length_pieces_add_one {size : Nat} (hsize : 0 < size) (bs : Bytes) :
    (pieces size bs).1.length + 1 = max 1 ((bs.length + size - 1) / size) := by
  have hlong := le_length_pieces hsize bs
  rcases Nat.eq_zero_or_pos bs.length with hzero | hpos
  · rw [pieces_of_le (by omega), hzero, Nat.div_eq_of_lt (by omega)]
    rfl
  · have hshort : (pieces size bs).1.length * size < bs.length := length_pieces_lt hpos
    have hquotient : (bs.length + size - 1) / size = (pieces size bs).1.length + 1 := by
      rw [Nat.succ_mul] at hlong
      apply Nat.div_eq_of_lt_le
      · rw [Nat.succ_mul]
        omega
      · rw [Nat.succ_mul, Nat.succ_mul]
        omega
    omega

end Bytes

namespace Stream

variable {a : Aead}

/-! ## Lengths -/

/-- Every sealed piece is longer than its segment by a tag. -/
theorem length_flatten_sealedPieces (ha : a.Lawful) (stem : Bytes) (i : Nat) (ps : List Bytes) :
    (sealedPieces a stem i ps).flatten.length =
      ps.flatten.length + Aead.tagLength * ps.length := by
  induction ps generalizing i with
  | nil => rfl
  | cons p ps ih =>
    simp only [sealedPieces, List.flatten_cons, List.length_append, List.length_cons, ih,
      ha.length_encrypt, Nat.mul_succ]
    omega

/-- A ciphertext is longer than its plaintext by a header and a tag for every segment. -/
theorem length_of_encryptWith (ha : a.Lawful) {stem plaintext c : Bytes}
    (hstem : stem.length = stemLength) (h : encryptWith a stem plaintext = .ok c) :
    c.length = headerLength + plaintext.length +
      Aead.tagLength * max 1 ((plaintext.length + segmentSize - 1) / segmentSize) := by
  have hcount := Bytes.length_pieces_add_one (show 0 < segmentSize by decide) plaintext
  have hjoin := congrArg List.length (Bytes.flatten_pieces segmentSize plaintext)
  rw [List.length_append] at hjoin
  rw [encryptWith_eq (fits_of_encryptWith h)] at h
  injection h with h
  rw [← h, ← hcount]
  unfold sealedCut sealedLast headerLength
  simp only [List.length_cons, List.length_append, length_flatten_sealedPieces ha,
    ha.length_encrypt, hstem, Nat.mul_succ]
  omega

/-- Under every key and every stem, a plaintext of at most 2 ^ 32 segments has a ciphertext, which
begins with the version and the stem, has the length of the plaintext, of the header and of one
tag for every segment, and is decrypted to the plaintext. -/
theorem exists_ciphertext_of_length_le (k : Key) (e : Entropy) (plaintext : Bytes)
    (h : plaintext.length ≤ 2 ^ 32 * 65536) :
    ∃ c, (encrypt k.cipher plaintext e).1 = .ok c ∧
      c.length = 8 + plaintext.length + 16 * max 1 ((plaintext.length + 65535) / 65536) ∧
      1 :: (e.draw 12).1.take 7 <+: c ∧ decrypt k.cipher c = .ok plaintext := by
  have hfits : Fits plaintext := by
    unfold Fits segmentSize maxNumber
    omega
  have hstem : ((e.draw drawLength).1.take stemLength).length = stemLength := by
    simp [Entropy.draw, drawLength, stemLength]
  have hencrypt := @encryptWith_eq k.cipher ((e.draw drawLength).1.take stemLength) _ hfits
  exact ⟨_, hencrypt, length_of_encryptWith k.lawful_cipher hstem hencrypt,
    List.prefix_append _ _, decrypt_encryptWith k.lawful_cipher hstem hencrypt⟩

/-- A plaintext of one octet more than a segment is sealed in two. -/
theorem exists_ciphertext_of_two_segments :
    let k := Key.uniform 7
    let e : Entropy := ⟨UInt8.ofNat, 250⟩
    let plaintext := List.replicate 65537 (3 : UInt8)
    plaintext.length ≤ 2 ^ 32 * 65536 ∧
      ∃ c, (encrypt k.cipher plaintext e).1 = .ok c ∧ c.length = 65577 ∧
        [1, 250, 251, 252, 253, 254, 255, 0] <+: c ∧ decrypt k.cipher c = .ok plaintext := by
  intro k e plaintext
  have hlength : plaintext.length = 65537 := List.length_replicate
  have hle : plaintext.length ≤ 2 ^ 32 * 65536 := by
    rw [hlength]
    decide
  refine ⟨hle, ?_⟩
  obtain ⟨c, hencrypt, hsize, hhead, hdecrypt⟩ := exists_ciphertext_of_length_le k e plaintext hle
  have hdrawn : 1 :: (e.draw 12).1.take 7 = [1, 250, 251, 252, 253, 254, 255, 0] := by decide
  rw [hdrawn] at hhead
  refine ⟨c, hencrypt, ?_, hhead, hdecrypt⟩
  rw [hsize, hlength]
  decide

/-! ## Pieces that open -/

/-- Pieces open exactly to the segments of which they are the sealed forms. -/
theorem exists_of_openFrom (ha : a.Canonical) {stem final p : Bytes} {i : Nat} {cs : List Bytes}
    (h : openFrom a stem final i cs = .ok p) :
    ∃ ps last, sealedPieces a stem i ps = cs ∧ sealedLast a stem last i ps = final ∧
      ps.flatten ++ last = p := by
  induction cs generalizing i p with
  | nil =>
    simp only [openFrom] at h
    split at h
    · rename_i hopen
      injection h with h
      subst h
      exact ⟨[], _, rfl, ha.encrypt_of_decrypt? _ _ _ hopen, rfl⟩
    · exact absurd h (by simp)
  | cons c cs ih =>
    simp only [openFrom] at h
    split at h
    · split at h
      · rename_i q hopen
        split at h
        · rename_i rest hrest
          injection h with h
          obtain ⟨ps, last, hps, hlast, hjoin⟩ := ih hrest
          refine ⟨q :: ps, last, ?_, ?_, ?_⟩
          · rw [sealedPieces, hps, ha.encrypt_of_decrypt? _ _ _ hopen]
          · rw [sealedLast_cons, hlast]
          · rw [List.flatten_cons, List.append_assoc, hjoin, h]
        · exact absurd h (by simp)
      · exact absurd h (by simp)
    · exact absurd h (by simp)

/-- What is not opened fails in one way. -/
theorem openFrom_cases (a : Aead) (stem final : Bytes) (i : Nat) (cs : List Bytes) :
    (∃ p, openFrom a stem final i cs = .ok p) ∨
      openFrom a stem final i cs = .error (.decryption refusal) := by
  induction cs generalizing i with
  | nil =>
    simp only [openFrom]
    cases a.decrypt? (nonce stem i true) final with
    | none => exact .inr rfl
    | some p => exact .inl ⟨p, rfl⟩
  | cons c cs ih =>
    simp only [openFrom]
    split
    · cases a.decrypt? (nonce stem i false) c with
      | none => exact .inr rfl
      | some p =>
        rcases ih (i + 1) with ⟨rest, hrest⟩ | hrest
        · rw [hrest]
          exact .inl ⟨p ++ rest, rfl⟩
        · rw [hrest]
          exact .inr rfl
    · exact .inr rfl

/-! ## Segments that a ciphertext holds -/

/-- Every piece is sealed under the nonce of its place. -/
theorem sealedPieces_eq_mapIdx (a : Aead) (stem : Bytes) (i : Nat) (ps : List Bytes) :
    sealedPieces a stem i ps = ps.mapIdx fun j p => a.encrypt (nonce stem (i + j) false) p := by
  induction ps generalizing i with
  | nil => rfl
  | cons p ps ih =>
    rw [sealedPieces, ih, List.mapIdx_cons]
    simp only [Nat.add_zero, Nat.add_assoc, Nat.add_comm 1]

/-- Behind the header of a ciphertext stand the sealed forms of the segments `ps`, full ones, and
then that of the segment `last`, each under the nonce of its number and only the last one marked.
There is a number for each of them. -/
structure Holds (a : Aead) (c : Bytes) (ps : List Bytes) (last : Bytes) : Prop where
  isCut : Bytes.IsCut 65552 (c.drop 8)
    (ps.mapIdx fun i p => a.encrypt (nonce ((c.drop 1).take 7) i false) p)
    (a.encrypt (nonce ((c.drop 1).take 7) ps.length true) last)
  length_lt : ps.length < 2 ^ 32

/-- The same of a ciphertext that is given by its parts. -/
theorem holds_cons_iff {stem body last : Bytes} {ps : List Bytes}
    (hstem : stem.length = stemLength) :
    Holds a (version :: (stem ++ body)) ps last ↔
      Bytes.IsCut sealedSize body (sealedPieces a stem 0 ps) (sealedLast a stem last 0 ps) ∧
        ps.length ≤ maxNumber := by
  have hhead : ((version :: (stem ++ body)).drop 1).take 7 = stem := List.take_left' hstem
  have hbody : (version :: (stem ++ body)).drop 8 = body := List.drop_left' hstem
  have hpieces := sealedPieces_eq_mapIdx a stem 0 ps
  simp only [Nat.zero_add] at hpieces
  have hlast : sealedLast a stem last 0 ps = a.encrypt (nonce stem ps.length true) last := by
    unfold sealedLast
    rw [Nat.zero_add]
  rw [hpieces, hlast]
  constructor
  · rintro ⟨hcut, hlength⟩
    rw [hhead, hbody] at hcut
    exact ⟨hcut, Nat.le_of_lt_succ hlength⟩
  · rintro ⟨hcut, hlength⟩
    refine ⟨?_, Nat.lt_succ_of_le hlength⟩
    rw [hhead, hbody]
    exact hcut

section Parts

variable {stem body : Bytes} (hstem : stem.length = stemLength)
  (hbody : Aead.tagLength ≤ body.length)

include hstem hbody

/-- A ciphertext is decrypted to the segments that it holds, joined. -/
theorem decrypt_cons_eq_ok_iff (ha : a.Canonical) {p : Bytes} :
    decrypt a (version :: (stem ++ body)) = .ok p ↔
      ∃ ps last, Holds a (version :: (stem ++ body)) ps last ∧ ps.flatten ++ last = p := by
  have hpos : 0 < body.length := Nat.lt_of_lt_of_le (by decide) hbody
  have hcut := Bytes.isCut_pieces (show 0 < sealedSize by decide) hpos
  rw [decrypt_cons hstem hbody]
  constructor
  · intro h
    have hlength := length_le_of_openFrom (Nat.zero_le _) h
    obtain ⟨ps, last, hps, hlast, hjoin⟩ := exists_of_openFrom ha h
    rw [← hps, length_sealedPieces, Nat.zero_add] at hlength
    rw [← hps, ← hlast] at hcut
    exact ⟨ps, last, (holds_cons_iff hstem).2 ⟨hcut, hlength⟩, hjoin⟩
  · rintro ⟨ps, last, hholds, rfl⟩
    obtain ⟨hsealed, hlength⟩ := (holds_cons_iff hstem).1 hholds
    rw [hsealed.pieces_eq]
    exact openFrom_sealed ha.toLawful (by rw [Nat.zero_add]; exact hlength)

/-- Whatever is not accepted fails in one way. -/
theorem decrypt_cons_cases (a : Aead) :
    (∃ p, decrypt a (version :: (stem ++ body)) = .ok p) ∨
      decrypt a (version :: (stem ++ body)) = .error (.decryption refusal) := by
  rw [decrypt_cons hstem hbody]
  exact openFrom_cases a stem _ 0 _

end Parts

/-- Segments are full before the last one. -/
theorem length_of_mem_of_full (ha : a.Lawful) {stem : Bytes} {i : Nat} {ps : List Bytes}
    (h : ∀ c ∈ sealedPieces a stem i ps, c.length = sealedSize) :
    ∀ p ∈ ps, p.length = segmentSize := by
  induction ps generalizing i with
  | nil =>
    intro p hp
    exact absurd hp List.not_mem_nil
  | cons q ps ih =>
    simp only [sealedPieces, List.forall_mem_cons] at h ⊢
    refine ⟨?_, ih h.2⟩
    have hfirst := h.1
    rw [ha.length_encrypt] at hfirst
    exact Nat.add_right_cancel hfirst

/-- The joined segments of a ciphertext are encrypted to it again, except that an empty segment is
not sealed behind full ones. -/
theorem encryptWith_eq_ok_iff_of_holds (ha : a.Lawful) {stem body last : Bytes} {ps : List Bytes}
    (hstem : stem.length = stemLength) (h : Holds a (version :: (stem ++ body)) ps last) :
    encryptWith a stem (ps.flatten ++ last) = .ok (version :: (stem ++ body)) ↔
      ¬ (ps ≠ [] ∧ last = []) := by
  obtain ⟨hcut, hlength⟩ := (holds_cons_iff hstem).1 h
  have hfull := length_of_mem_of_full ha hcut.full
  have hflat := Bytes.length_flatten_of_full hfull
  have hlast : last.length ≤ segmentSize := by
    have hle := hcut.le
    unfold sealedLast at hle
    rw [ha.length_encrypt] at hle
    exact Nat.add_le_add_iff_right.1 hle
  have hfits : Fits (ps.flatten ++ last) := by
    unfold Fits
    rw [List.length_append, hflat]
    unfold segmentSize at *
    omega
  constructor
  · -- An empty segment behind full ones makes the ciphertext longer by a tag.
    rintro hencrypt ⟨hne, rfl⟩
    have hshort := length_of_encryptWith ha hstem hencrypt
    have hpos := List.length_pos_iff.2 hne
    have hjoin := congrArg List.length hcut.join
    rw [List.length_append, length_flatten_sealedPieces ha, sealedLast, ha.length_encrypt] at hjoin
    have hcount : (ps.length * segmentSize + segmentSize - 1) / segmentSize = ps.length := by
      unfold segmentSize
      omega
    rw [List.append_nil, hflat, hcount, List.length_cons, List.length_append, hstem, ← hjoin, hflat,
      List.length_nil] at hshort
    unfold headerLength Aead.tagLength at hshort
    omega
  · intro hnot
    have hpieces : Bytes.pieces segmentSize (ps.flatten ++ last) = (ps, last) := by
      by_cases hnil : ps = []
      · subst hnil
        exact Bytes.pieces_of_le hlast
      · have hne : last ≠ [] := fun hempty => hnot ⟨hnil, hempty⟩
        exact Bytes.pieces_flatten hfull (List.length_pos_iff.2 hne) hlast
    rw [encryptWith_eq hfits, sealedCut, hpieces, hcut.join]

/-! ## Decryption as a whole -/

/-- Under every key, a byte string is too short, or has an unknown version, or is decrypted exactly
to the segments that it holds, or else is not authentic.  The plaintext is encrypted under the same
stem to the same byte string again, unless an empty segment stands behind full ones. -/
theorem decrypt_eq_ok_iff_holds (k : Key) (c : Bytes) :
    (c.length < 24 → decrypt k.cipher c = .error (.ciphertextTooShort 24 c.length)) ∧
    (24 ≤ c.length → ∀ v, c.head? = some v → v ≠ 1 →
      decrypt k.cipher c = .error (.unsupportedVersion v.toNat)) ∧
    (24 ≤ c.length → c.head? = some 1 →
      (∀ p, decrypt k.cipher c = .ok p ↔
        ∃ ps last, Holds k.cipher c ps last ∧ ps.flatten ++ last = p) ∧
      ((∀ ps last, ¬ Holds k.cipher c ps last) →
        decrypt k.cipher c = .error (.decryption refusal)) ∧
      ∀ ps last, Holds k.cipher c ps last →
        ∀ e : Entropy, (e.draw 12).1.take 7 = (c.drop 1).take 7 →
          ((encrypt k.cipher (ps.flatten ++ last) e).1 = .ok c ↔ ¬ (ps ≠ [] ∧ last = []))) := by
  have ha := k.canonical_cipher
  refine ⟨fun hshort => ?_, fun hlong v hhead hversion => ?_, fun hlong hhead => ?_⟩
  · have hmin : c.length < minLength := hshort
    unfold decrypt
    rw [if_pos hmin]
    rfl
  · have hmin : ¬ c.length < minLength := Nat.not_lt.2 hlong
    have hunknown : v ≠ version := hversion
    obtain ⟨rest, rfl⟩ := List.head?_eq_some_iff.1 hhead
    unfold decrypt
    rw [if_neg hmin]
    dsimp only
    rw [if_pos hunknown]
  · obtain ⟨rest, rfl⟩ := List.head?_eq_some_iff.1 hhead
    obtain ⟨stem, body, hsplit, hstem⟩ : ∃ stem body, rest = stem ++ body ∧
        stem.length = stemLength := by
      refine ⟨rest.take 7, rest.drop 7, (List.take_append_drop 7 rest).symm, ?_⟩
      rw [List.length_take, stemLength]
      rw [List.length_cons] at hlong
      omega
    subst hsplit
    have hbody : Aead.tagLength ≤ body.length := by
      rw [List.length_cons, List.length_append, hstem] at hlong
      unfold stemLength at hlong
      unfold Aead.tagLength
      omega
    have hiff : ∀ p, decrypt k.cipher (version :: (stem ++ body)) = .ok p ↔ _ := fun p =>
      decrypt_cons_eq_ok_iff hstem hbody ha
    refine ⟨hiff, fun hnone => ?_, fun ps last hholds e he => ?_⟩
    · rcases decrypt_cons_cases hstem hbody k.cipher with ⟨p, hp⟩ | hrefused
      · obtain ⟨ps, last, hholds, -⟩ := (hiff p).1 hp
        exact absurd hholds (hnone ps last)
      · exact hrefused
    · have hdrawn : (e.draw drawLength).1.take stemLength = stem :=
        he.trans (List.take_left' hstem)
      rw [← encryptWith_eq_ok_iff_of_holds ha.toLawful hstem hholds, ← hdrawn]
      exact Iff.rfl

/-- A full segment with an empty one behind it is accepted, though the full one is sealed alone. -/
theorem decrypt_of_empty_last_segment :
    let k := Key.uniform 7
    let e : Entropy := ⟨UInt8.ofNat, 250⟩
    let segment := List.replicate 65536 (3 : UInt8)
    ∃ c, 24 ≤ c.length ∧ c.head? = some 1 ∧ Holds k.cipher c [segment] [] ∧
      (e.draw 12).1.take 7 = (c.drop 1).take 7 ∧ decrypt k.cipher c = .ok segment ∧
      (encrypt k.cipher segment e).1 ≠ .ok c := by
  intro k e segment
  have ha := k.lawful_cipher
  let stem : Bytes := [250, 251, 252, 253, 254, 255, 0]
  let body := (sealedPieces k.cipher stem 0 [segment]).flatten ++
    sealedLast k.cipher stem [] 0 [segment]
  let c := version :: (stem ++ body)
  have hlast : (sealedLast k.cipher stem [] 0 [segment]).length = 16 := ha.length_encrypt _ _
  have hfull : ∀ piece ∈ sealedPieces k.cipher stem 0 [segment], piece.length = sealedSize := by
    intro piece hpiece
    rw [List.mem_singleton.1 hpiece, ha.length_encrypt, List.length_replicate]
    rfl
  have hcut : Bytes.IsCut sealedSize body (sealedPieces k.cipher stem 0 [segment])
      (sealedLast k.cipher stem [] 0 [segment]) :=
    ⟨rfl, hfull, by rw [hlast]; decide, by rw [hlast]; decide⟩
  have hholds : Holds k.cipher c [segment] [] := (holds_cons_iff rfl).2 ⟨hcut, by decide⟩
  have hlong : 24 ≤ c.length := by
    show 24 ≤ (version :: (stem ++ body)).length
    rw [List.length_cons, List.length_append, List.length_append, hlast]
    show 24 ≤ 7 + (_ + 16) + 1
    omega
  have hdrawn : (e.draw 12).1.take 7 = (c.drop 1).take 7 := by
    rw [show (c.drop 1).take 7 = stem from List.take_left' rfl]
    decide
  obtain ⟨haccept, -, hagain⟩ := (decrypt_eq_ok_iff_holds k c).2.2 hlong rfl
  have hjoin : [segment].flatten ++ [] = segment := by simp
  refine ⟨c, hlong, rfl, hholds, hdrawn, (haccept segment).2 ⟨[segment], [], hholds, hjoin⟩, ?_⟩
  have hrefused := mt (hagain [segment] [] hholds e hdrawn).1 (by simp)
  rwa [hjoin] at hrefused

end Stream

end Strongbox
