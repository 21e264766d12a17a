import Mathlib.Algebra.Group.Nat.Defs
import Mathlib.Tactic.ByContra
import Strongbox.Cipher.Stream

/-!
# Segments and their nonces

The nonce of a segment says three things: the stem of its ciphertext, its number, and
whether it is the last one.  No two segments agree in all three, so a nonce names at most
one segment.  `openings` lists what `openFrom` tries on the pieces of a ciphertext, and
`sealings` lists the sealed segments of a plaintext with their nonces.  The main
statements are `decrypt_encryptWith`, by which decryption undoes encryption, and
`openings_eq_sealings`, by which pieces that are all among the sealed segments of one
plaintext are these segments, in order and without a gap.
-/

set_option autoImplicit false

namespace Strongbox

namespace Bytes

/-- An octet behind others counts as the last digit to the base 256. -/
theorem toNat_concat (bs : Bytes) (b : UInt8) : toNat (bs ++ [b]) = toNat bs * 256 + b.toNat := by
  unfold toNat
  rw [List.foldl_append]
  rfl

/-- A number is read back from its octets, up to what does not fit the width. -/
theorem toNat_bigEndian (width n : Nat) : toNat (bigEndian width n) = n % 256 ^ width := by
  induction width generalizing n with
  | zero => simp [bigEndian, toNat, Nat.mod_one]
  | succ w ih =>
    have hsplit : n % 256 ^ (w + 1) = n % 256 + 256 * (n / 256 % 256 ^ w) := by
      rw [Nat.pow_succ', Nat.mod_mul]
    have hoctet : (UInt8.ofNat (n % 256)).toNat = n % 256 := by simp
    unfold bigEndian
    rw [toNat_concat, ih, hoctet, hsplit]
    omega

/-- Numbers that fit the width are told apart by their octets. -/
theorem bigEndian_injective {width m n : Nat} (hm : m < 256 ^ width) (hn : n < 256 ^ width)
    (h : bigEndian width m = bigEndian width n) : m = n := by
  have hnat := congrArg toNat h
  rwa [toNat_bigEndian, toNat_bigEndian, Nat.mod_eq_of_lt hm, Nat.mod_eq_of_lt hn] at hnat

/-- The full pieces are shorter than what was cut, unless there was nothing to cut. -/
theorem length_pieces_lt {size : Nat} {bs : Bytes} (h : 0 < bs.length) :
    (pieces size bs).1.length * size < bs.length := by
  fun_induction pieces size bs with
  | case1 bs hcut rest ih =>
    have hrest : rest.1.length * size < (bs.drop size).length :=
      ih (by rw [List.length_drop]; omega)
    rw [List.length_drop] at hrest
    rw [List.length_cons, Nat.add_mul]
    omega
  | case2 bs hcut =>
    rw [List.length_nil]
    omega

/-- The full pieces and one more are as long as what was cut. -/
theorem le_length_pieces {size : Nat} (h : 0 < size) (bs : Bytes) :
    bs.length ≤ ((pieces size bs).1.length + 1) * size := by
  fun_induction pieces size bs with
  | case1 bs hcut rest ih =>
    have hrest : (bs.drop size).length ≤ (rest.1.length + 1) * size := ih
    rw [List.length_drop] at hrest
    rw [List.length_cons, Nat.add_mul]
    omega
  | case2 bs hcut =>
    rw [List.length_nil]
    omega

/-- Every piece but the last is full. -/
theorem length_of_mem_pieces {size : Nat} {bs c : Bytes} (h : c ∈ (pieces size bs).1) :
    c.length = size := by
  fun_induction pieces size bs with
  | case1 bs hcut rest ih =>
    rcases List.mem_cons.1 h with rfl | h
    · rw [List.length_take]
      omega
    · exact ih h
  | case2 bs hcut => exact absurd h List.not_mem_nil

/-- The last piece is no longer than a full one. -/
theorem length_last_pieces_le {size : Nat} (h : 0 < size) (bs : Bytes) :
    (pieces size bs).2.length ≤ size := by
  fun_induction pieces size bs with
  | case1 bs hcut rest ih => exact ih
  | case2 bs hcut =>
    show bs.length ≤ size
    omega

/-- Pieces of one size with a shorter one behind them are cut where they were joined. -/
theorem pieces_flatten {size : Nat} {cs : List Bytes} {last : Bytes}
    (hfull : ∀ c ∈ cs, c.length = size) (hpos : 0 < last.length) (hle : last.length ≤ size) :
    pieces size (cs.flatten ++ last) = (cs, last) := by
  induction cs with
  | nil => exact pieces_of_le hle
  | cons c cs ih =>
    have hc : c.length = size := hfull c List.mem_cons_self
    have hrest := ih fun d hd => hfull d (List.mem_cons_of_mem c hd)
    have hlong : size < ((c :: cs).flatten ++ last).length := by
      simp only [List.flatten_cons, List.length_append, hc]
      omega
    rw [pieces_of_lt (by omega) hlong, List.flatten_cons, List.append_assoc,
      List.take_left' hc, List.drop_left' hc, hrest]

end Bytes

namespace Stream

/-! ## Nonces -/

/-- A nonce says its stem, its number and whether it is the last one. -/
theorem nonce_injective {s t : Bytes} {i j : Nat} {a b : Bool}
    (hs : s.length = stemLength) (ht : t.length = stemLength) (hi : i ≤ maxNumber)
    (hj : j ≤ maxNumber) (h : nonce s i a = nonce t j b) : s = t ∧ i = j ∧ a = b := by
  unfold nonce at h
  obtain ⟨hfront, hmark⟩ := List.append_inj' h rfl
  obtain ⟨hstem, hnumber⟩ := List.append_inj hfront (by rw [hs, ht])
  refine ⟨hstem, ?_, ?_⟩
  · unfold maxNumber at hi hj
    exact Bytes.bigEndian_injective (by omega) (by omega) hnumber
  · cases a <;> cases b <;> simp_all

/-! ## Openings -/

/-- The pieces from number `i` on, each with the nonce under which it is opened. -/
def openings (stem last : Bytes) : (i : Nat) → List Bytes → List (Bytes × Bytes)
  | i, [] => [(nonce stem i true, last)]
  | i, c :: cs => (nonce stem i false, c) :: openings stem last (i + 1) cs

/-- The segments that are opened make up the body of the ciphertext. -/
theorem flatten_openings (stem last : Bytes) (i : Nat) (cs : List Bytes) :
    ((openings stem last i cs).map (·.2)).flatten = cs.flatten ++ last := by
  induction cs generalizing i with
  | nil => simp [openings]
  | cons c cs ih => simp [openings, ih]

/-- The number in the nonce of a piece counts the pieces in front of it. -/
theorem mem_openings {stem last : Bytes} {i : Nat} {cs : List Bytes} {x : Bytes × Bytes}
    (h : x ∈ openings stem last i cs) :
    ∃ j b, i ≤ j ∧ j ≤ i + cs.length ∧ x.1 = nonce stem j b := by
  induction cs generalizing i with
  | nil =>
    simp only [openings, List.mem_singleton] at h
    exact ⟨i, true, Nat.le_refl i, Nat.le_add_right i 0, by rw [h]⟩
  | cons c cs ih =>
    simp only [openings, List.mem_cons] at h
    rcases h with h | h
    · exact ⟨i, false, Nat.le_refl i, Nat.le_add_right i _, by rw [h]⟩
    · obtain ⟨j, b, hlow, hhigh, hx⟩ := ih h
      rw [List.length_cons]
      exact ⟨j, b, by omega, by omega, hx⟩

/-- A ciphertext is accepted only if its pieces can be numbered. -/
theorem length_le_of_openFrom {a : Aead} {stem last p : Bytes} {i : Nat} {cs : List Bytes}
    (hi : i ≤ maxNumber) (h : openFrom a stem last i cs = .ok p) :
    i + cs.length ≤ maxNumber := by
  induction cs generalizing i p with
  | nil => exact hi
  | cons c cs ih =>
    simp only [openFrom] at h
    split at h
    · rename_i hlt
      split at h
      · split at h
        · rename_i hrest
          have hle := ih (by omega) hrest
          rw [List.length_cons]
          omega
        · exact absurd h (by simp)
      · exact absurd h (by simp)
    · exact absurd h (by simp)

/-- A ciphertext is accepted only if every piece opens under its nonce. -/
theorem isSome_of_openFrom {a : Aead} {stem last p : Bytes} {i : Nat} {cs : List Bytes}
    (h : openFrom a stem last i cs = .ok p) :
    ∀ x ∈ openings stem last i cs, (a.decrypt? x.1 x.2).isSome := by
  induction cs generalizing i p with
  | nil =>
    simp only [openFrom] at h
    split at h
    · rename_i hopen
      simp [openings, hopen]
    · exact absurd h (by simp)
  | cons c cs ih =>
    simp only [openFrom] at h
    split at h
    · split at h
      · rename_i hopen
        split at h
        · rename_i hrest
          intro x hx
          simp only [openings, List.mem_cons] at hx
          rcases hx with rfl | hx
          · simp [hopen]
          · exact ih hrest x hx
        · exact absurd h (by simp)
      · exact absurd h (by simp)
    · exact absurd h (by simp)

/-! ## Sealings -/

/-- The sealed forms of the segments from number `i` on that are not the last one. -/
def sealedPieces (a : Aead) (stem : Bytes) : (i : Nat) → List Bytes → List Bytes
  | _, [] => []
  | i, p :: ps => a.encrypt (nonce stem i false) p :: sealedPieces a stem (i + 1) ps

/-- The sealed form of the last segment when `ps` are the others from number `i` on. -/
def sealedLast (a : Aead) (stem last : Bytes) (i : Nat) (ps : List Bytes) : Bytes :=
  a.encrypt (nonce stem (i + ps.length) true) last

/-- The sealed segments from number `i` on, each with its nonce, in order. -/
def sealings (a : Aead) (stem last : Bytes) (i : Nat) (ps : List Bytes) : List (Bytes × Bytes) :=
  openings stem (sealedLast a stem last i ps) i (sealedPieces a stem i ps)

/-- There is a sealed piece for every piece. -/
@[simp]
theorem length_sealedPieces (a : Aead) (stem : Bytes) (i : Nat) (ps : List Bytes) :
    (sealedPieces a stem i ps).length = ps.length := by
  induction ps generalizing i with
  | nil => rfl
  | cons p ps ih => simp [sealedPieces, ih]

/-- The last segment of a longer stream is that of the stream without its first piece. -/
theorem sealedLast_cons (a : Aead) (stem last : Bytes) (i : Nat) (p : Bytes) (ps : List Bytes) :
    sealedLast a stem last i (p :: ps) = sealedLast a stem last (i + 1) ps := by
  unfold sealedLast
  rw [List.length_cons, Nat.add_right_comm, Nat.add_assoc]

/-- Without pieces only the last segment is sealed. -/
theorem sealings_nil (a : Aead) (stem last : Bytes) (i : Nat) :
    sealings a stem last i [] = [(nonce stem i true, a.encrypt (nonce stem i true) last)] :=
  rfl

/-- The first piece is sealed under its number, and the rest as a stream that starts at the next
one. -/
theorem sealings_cons (a : Aead) (stem last : Bytes) (i : Nat) (p : Bytes) (ps : List Bytes) :
    sealings a stem last i (p :: ps) =
      (nonce stem i false, a.encrypt (nonce stem i false) p) ::
        sealings a stem last (i + 1) ps := by
  unfold sealings
  rw [sealedLast_cons]
  rfl

/-- Sealing succeeds as long as the segments can be numbered. -/
theorem sealFrom_eq {a : Aead} {stem last : Bytes} {i : Nat} {ps : List Bytes}
    (h : i + ps.length ≤ maxNumber) :
    sealFrom a stem last i ps =
      .ok ((sealedPieces a stem i ps).flatten ++ sealedLast a stem last i ps) := by
  induction ps generalizing i with
  | nil => rfl
  | cons p ps ih =>
    rw [List.length_cons] at h
    simp only [sealFrom]
    rw [if_pos (by omega), ih (by omega), sealedLast_cons]
    simp [sealedPieces]

/-- Sealing fails when there are more segments than numbers. -/
theorem sealFrom_eq_error {a : Aead} {stem last : Bytes} {i : Nat} {ps : List Bytes}
    (hi : i ≤ maxNumber) (h : maxNumber < i + ps.length) :
    sealFrom a stem last i ps = .error (.encryption refusal) := by
  induction ps generalizing i with
  | nil =>
    rw [List.length_nil] at h
    omega
  | cons p ps ih =>
    rw [List.length_cons] at h
    simp only [sealFrom]
    split
    · rw [ih (by omega) (by omega)]
    · rfl

/-- Sealed segments open to their plaintexts. -/
theorem openFrom_sealed {a : Aead} (ha : a.Lawful) {stem last : Bytes} {i : Nat}
    {ps : List Bytes} (h : i + ps.length ≤ maxNumber) :
    openFrom a stem (sealedLast a stem last i ps) i (sealedPieces a stem i ps) =
      .ok (ps.flatten ++ last) := by
  induction ps generalizing i with
  | nil => simp [openFrom, sealedPieces, sealedLast, ha.decrypt?_encrypt]
  | cons p ps ih =>
    rw [List.length_cons] at h
    have hrest := ih (i := i + 1) (by omega)
    simp only [openFrom, sealedPieces]
    rw [if_pos (by omega), ha.decrypt?_encrypt, sealedLast_cons, hrest]
    simp

/-- A nonce with a smaller number is not among those of later segments. -/
theorem notMem_sealings {a : Aead} {stem last c : Bytes} {i : Nat} {b : Bool} {ps : List Bytes}
    (hstem : stem.length = stemLength) (h : i + 1 + ps.length ≤ maxNumber) :
    (nonce stem i b, c) ∉ sealings a stem last (i + 1) ps := by
  intro hmem
  obtain ⟨j, b', hlow, hhigh, hnonce⟩ := mem_openings hmem
  rw [length_sealedPieces] at hhigh
  have hnumber := (nonce_injective hstem hstem (by omega) (by omega) hnonce).2.1
  omega

/-- Pieces that are all among the sealed segments of one plaintext are these segments, in
order and without a gap. -/
theorem openings_eq_sealings {a : Aead} {stem last final : Bytes} {i : Nat} {cs ps : List Bytes}
    (hstem : stem.length = stemLength) (hcs : i + cs.length ≤ maxNumber)
    (hps : i + ps.length ≤ maxNumber)
    (h : ∀ x ∈ openings stem final i cs, x ∈ sealings a stem last i ps) :
    openings stem final i cs = sealings a stem last i ps := by
  -- A nonce tells the number of its piece and whether it is the last one.
  induction cs generalizing i ps with
  | nil =>
    have hfinal := h (nonce stem i true, final) (by simp [openings])
    cases ps with
    | nil =>
      rw [sealings_nil, List.mem_singleton] at hfinal
      rw [sealings_nil, openings, hfinal]
    | cons p ps =>
      rw [List.length_cons] at hps
      rw [sealings_cons, List.mem_cons] at hfinal
      rcases hfinal with hsame | htail
      · have hmark := nonce_injective hstem hstem (by omega) (by omega) (congrArg Prod.fst hsame)
        exact absurd hmark.2.2 (by simp)
      · exact absurd htail (notMem_sealings hstem (by omega))
  | cons c cs ih =>
    rw [List.length_cons] at hcs
    have hfirst := h (nonce stem i false, c) (by simp [openings])
    cases ps with
    | nil =>
      rw [sealings_nil, List.mem_singleton] at hfirst
      have hmark := nonce_injective hstem hstem (by omega) (by omega) (congrArg Prod.fst hfirst)
      exact absurd hmark.2.2 (by simp)
    | cons p ps =>
      rw [List.length_cons] at hps
      have hhead : (nonce stem i false, c) =
          (nonce stem i false, a.encrypt (nonce stem i false) p) := by
        rw [sealings_cons, List.mem_cons] at hfirst
        exact hfirst.resolve_right (notMem_sealings hstem (by omega))
      have hrest : ∀ x ∈ openings stem final (i + 1) cs, x ∈ sealings a stem last (i + 1) ps := by
        intro x hx
        have hmem := h x (by simp [openings, hx])
        rw [sealings_cons, List.mem_cons] at hmem
        refine hmem.resolve_left ?_
        intro hsame
        obtain ⟨j, b, hlow, hhigh, hnonce⟩ := mem_openings hx
        rw [hsame] at hnonce
        have hnumber := (nonce_injective hstem hstem (by omega) (by omega) hnonce).2.1
        omega
      rw [sealings_cons, ← hhead, openings, ih (by omega) (by omega) hrest]

/-! ## Whole ciphertexts -/

/-- Whether the segments of a plaintext can be numbered. -/
def Fits (plaintext : Bytes) : Prop := plaintext.length ≤ segmentSize * (maxNumber + 1)

instance (plaintext : Bytes) : Decidable (Fits plaintext) :=
  inferInstanceAs (Decidable (plaintext.length ≤ _))

/-- The segments of a plaintext can be numbered when it is short enough. -/
theorem length_pieces_le_iff (plaintext : Bytes) :
    (Bytes.pieces segmentSize plaintext).1.length ≤ maxNumber ↔ Fits plaintext := by
  have hlong := Bytes.le_length_pieces (show 0 < segmentSize by decide) plaintext
  unfold Fits
  rcases Nat.eq_zero_or_pos plaintext.length with hzero | hpos
  · rw [Bytes.pieces_of_le (by omega), hzero]
    simp
  · have hshort : (Bytes.pieces segmentSize plaintext).1.length * segmentSize <
        plaintext.length := Bytes.length_pieces_lt hpos
    unfold segmentSize maxNumber at *
    omega

/-- The sealed pieces of a plaintext, full ones first. -/
def sealedCut (a : Aead) (stem plaintext : Bytes) : List Bytes × Bytes :=
  let cut := Bytes.pieces segmentSize plaintext
  (sealedPieces a stem 0 cut.1, sealedLast a stem cut.2 0 cut.1)

/-- The ciphertext of a plaintext whose segments can be numbered. -/
theorem encryptWith_eq {a : Aead} {stem plaintext : Bytes} (h : Fits plaintext) :
    encryptWith a stem plaintext =
      .ok (version :: (stem ++
        ((sealedCut a stem plaintext).1.flatten ++ (sealedCut a stem plaintext).2))) := by
  unfold encryptWith
  dsimp only
  rw [sealFrom_eq (by rw [Nat.zero_add]; exact (length_pieces_le_iff plaintext).2 h)]
  rfl

/-- There is no ciphertext of a plaintext with too many segments. -/
theorem encryptWith_eq_error {a : Aead} {stem plaintext : Bytes} (h : ¬ Fits plaintext) :
    encryptWith a stem plaintext = .error (.encryption refusal) := by
  have hmany : maxNumber < 0 + (Bytes.pieces segmentSize plaintext).1.length := by
    rw [Nat.zero_add]
    exact Nat.lt_of_not_le fun hle => h ((length_pieces_le_iff plaintext).1 hle)
  unfold encryptWith
  dsimp only
  rw [sealFrom_eq_error (Nat.zero_le _) hmany]

/-- A plaintext with a ciphertext is short enough. -/
theorem fits_of_encryptWith {a : Aead} {stem plaintext c : Bytes}
    (h : encryptWith a stem plaintext = .ok c) : Fits plaintext := by
  by_contra hnot
  rw [encryptWith_eq_error hnot] at h
  exact absurd h (by simp)

/-- The sealed pieces in front of the last one are full. -/
theorem length_of_mem_sealedPieces {a : Aead} (ha : a.Lawful) {stem : Bytes} {i size : Nat}
    {ps : List Bytes} (hps : ∀ p ∈ ps, p.length = size) {c : Bytes}
    (h : c ∈ sealedPieces a stem i ps) : c.length = size + Aead.tagLength := by
  induction ps generalizing i with
  | nil => exact absurd h List.not_mem_nil
  | cons p ps ih =>
    simp only [sealedPieces, List.mem_cons] at h
    rcases h with rfl | h
    · rw [ha.length_encrypt, hps p List.mem_cons_self]
    · exact ih (fun q hq => hps q (List.mem_cons_of_mem p hq)) h

/-- The body of a ciphertext is cut where its sealed segments were joined. -/
theorem pieces_sealedCut {a : Aead} (ha : a.Lawful) (stem plaintext : Bytes) :
    Bytes.pieces sealedSize
        ((sealedCut a stem plaintext).1.flatten ++ (sealedCut a stem plaintext).2) =
      sealedCut a stem plaintext := by
  have hlast := Bytes.length_last_pieces_le (show 0 < segmentSize by decide) plaintext
  have hlength : (sealedCut a stem plaintext).2.length =
      (Bytes.pieces segmentSize plaintext).2.length + Aead.tagLength :=
    ha.length_encrypt _ _
  apply Bytes.pieces_flatten
  · intro c hc
    exact length_of_mem_sealedPieces ha (fun p hp => Bytes.length_of_mem_pieces hp) hc
  · rw [hlength]
    unfold Aead.tagLength
    omega
  · rw [hlength]
    unfold sealedSize
    omega

/-- A ciphertext with its header is opened piece by piece. -/
theorem decrypt_cons {a : Aead} {stem body : Bytes} (hstem : stem.length = stemLength)
    (hbody : Aead.tagLength ≤ body.length) :
    decrypt a (version :: (stem ++ body)) =
      openFrom a stem (Bytes.pieces sealedSize body).2 0 (Bytes.pieces sealedSize body).1 := by
  have hlong : ¬ (version :: (stem ++ body)).length < minLength := by
    rw [List.length_cons, List.length_append, hstem]
    unfold minLength headerLength
    omega
  unfold decrypt
  rw [if_neg hlong]
  simp only [ne_eq, not_true_eq_false, if_false]
  rw [List.take_left' hstem, List.drop_left' hstem]

/-- An accepted ciphertext has a header, and its pieces open. -/
theorem exists_of_decrypt {a : Aead} {c p : Bytes} (h : decrypt a c = .ok p) :
    ∃ stem body, c = version :: (stem ++ body) ∧ stem.length = stemLength ∧
      Aead.tagLength ≤ body.length ∧
      openFrom a stem (Bytes.pieces sealedSize body).2 0 (Bytes.pieces sealedSize body).1 =
        .ok p := by
  unfold decrypt at h
  split at h
  · exact absurd h (by simp)
  · rename_i hlong
    cases c with
    | nil => exact absurd h (by simp)
    | cons v rest =>
      simp only at h
      split at h
      · exact absurd h (by simp)
      · rename_i hversion
        rw [List.length_cons] at hlong
        unfold minLength headerLength at hlong
        refine ⟨rest.take stemLength, rest.drop stemLength, ?_, ?_, ?_, h⟩
        · rw [List.take_append_drop, Decidable.not_not.1 hversion]
        · rw [List.length_take]
          omega
        · rw [List.length_drop]
          omega

/-- Decryption undoes encryption. -/
theorem decrypt_encryptWith {a : Aead} (ha : a.Lawful) {stem plaintext c : Bytes}
    (hstem : stem.length = stemLength) (h : encryptWith a stem plaintext = .ok c) :
    decrypt a c = .ok plaintext := by
  have hfits := fits_of_encryptWith h
  have hlast : Aead.tagLength ≤ (sealedCut a stem plaintext).2.length := by
    show _ ≤ (sealedLast a stem _ 0 _).length
    unfold sealedLast
    rw [ha.length_encrypt]
    omega
  rw [encryptWith_eq hfits] at h
  injection h with h
  subst h
  rw [decrypt_cons hstem (by rw [List.length_append]; omega), pieces_sealedCut ha]
  unfold sealedCut
  rw [openFrom_sealed ha (by rw [Nat.zero_add]; exact (length_pieces_le_iff plaintext).2 hfits),
    Bytes.flatten_pieces]

end Stream

end Strongbox
