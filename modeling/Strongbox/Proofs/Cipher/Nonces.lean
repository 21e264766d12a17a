import Mathlib.Data.List.Nodup
import Mathlib.Data.List.Range
import Strongbox.Proofs.Cipher.Acceptance
import Strongbox.Proofs.Cipher.Splicing

/-!
# No nonce is used twice

The nonces of an encryption are its stem with the numbers of its segments behind it, and a mark
for the last one.  A cipher seals the segments under these nonces, one by one:
`Call.ciphertext_eq_zipWith` says so for every cipher at once.  The numbers count up and fit four
octets, so the nonces of one encryption differ, and those of two differ in their stems.  The main
statement is `nodup_nonces`.
-/

set_option autoImplicit false

namespace Strongbox.Stream

/-- The nonces of segments, from number `i` on, of which `n` stand in front of the last one. -/
def noncesFrom (stem : Bytes) (i n : Nat) : List Bytes :=
  (List.range' i n).map (fun j => nonce stem j false) ++ [nonce stem (i + n) true]

/-- The nonces of a stream are that of its first segment and those of the rest. -/
theorem noncesFrom_succ (stem : Bytes) (i n : Nat) :
    noncesFrom stem i (n + 1) = nonce stem i false :: noncesFrom stem (i + 1) n := by
  unfold noncesFrom
  rw [List.range'_succ, List.map_cons, List.cons_append, Nat.add_assoc, Nat.add_comm 1]

/-- There is a nonce for every piece and one for the last segment. -/
theorem length_noncesFrom (stem : Bytes) (i n : Nat) : (noncesFrom stem i n).length = n + 1 := by
  simp [noncesFrom]

/-- Every nonce of a stream has its stem, a number of the stream and a mark. -/
theorem mem_noncesFrom {stem : Bytes} {i n : Nat} {x : Bytes} (h : x ∈ noncesFrom stem i n) :
    ∃ j b, j ≤ i + n ∧ x = nonce stem j b := by
  rcases List.mem_append.1 h with h | h
  · obtain ⟨j, hj, rfl⟩ := List.mem_map.1 h
    have hlt := (List.mem_range'_1.1 hj).2
    exact ⟨j, false, Nat.le_of_lt hlt, rfl⟩
  · exact ⟨i + n, true, Nat.le_refl _, List.mem_singleton.1 h⟩

/-- Numbered segments have different nonces. -/
theorem nodup_noncesFrom {stem : Bytes} (hstem : stem.length = stemLength) {i n : Nat}
    (h : i + n ≤ maxNumber) : (noncesFrom stem i n).Nodup := by
  have hnumber : ∀ j ∈ List.range' i n, j ≤ maxNumber := fun j hj => by
    have hlt := (List.mem_range'_1.1 hj).2
    omega
  refine List.nodup_append.2 ⟨?_, List.nodup_singleton _, ?_⟩
  · refine List.Nodup.map_on (fun j hj l hl hsame => ?_) List.nodup_range'
    exact (nonce_injective hstem hstem (hnumber j hj) (hnumber l hl) hsame).2.1
  · intro x hx y hy hsame
    obtain ⟨j, hj, rfl⟩ := List.mem_map.1 hx
    rw [List.mem_singleton.1 hy] at hsame
    have hmark := (nonce_injective hstem hstem (hnumber j hj) h hsame).2.2
    exact absurd hmark (by decide)

/-- Segments are sealed one by one under these nonces, whatever the cipher is. -/
theorem sealFrom_eq_zipWith (a : Aead) {stem last : Bytes} {i : Nat} {ps : List Bytes}
    (h : i + ps.length ≤ maxNumber) :
    sealFrom a stem last i ps =
      .ok (List.zipWith a.encrypt (noncesFrom stem i ps.length) (ps ++ [last])).flatten := by
  induction ps generalizing i with
  | nil => simp [sealFrom, noncesFrom]
  | cons p ps ih =>
    rw [List.length_cons] at h
    rw [sealFrom, if_pos (by omega), ih (by omega), List.length_cons, noncesFrom_succ]
    simp

namespace Call

/-- The segments of the plaintext, the last one included. -/
def segments (x : Call) : List Bytes :=
  (Bytes.pieces segmentSize x.plaintext).1 ++ [(Bytes.pieces segmentSize x.plaintext).2]

/-- The nonces of the segments. -/
def nonces (x : Call) : List Bytes :=
  noncesFrom x.stem 0 (Bytes.pieces segmentSize x.plaintext).1.length

/-- The segments of a call make up its plaintext. -/
theorem flatten_segments (x : Call) : x.segments.flatten = x.plaintext := by
  have hjoin := Bytes.flatten_pieces segmentSize x.plaintext
  simpa [segments] using hjoin

/-- A call uses a nonce for every segment. -/
theorem length_nonces (x : Call) : x.nonces.length = x.segments.length := by
  simp [nonces, segments, length_noncesFrom]

/-- The numbers of a call's segments fit their field. -/
theorem length_pieces_le (x : Call) :
    0 + (Bytes.pieces segmentSize x.plaintext).1.length ≤ maxNumber := by
  rw [Nat.zero_add]
  exact (length_pieces_le_iff x.plaintext).2 x.fits

/-- Every nonce of a call has its stem and a number that fits the field. -/
theorem exists_of_mem_nonces {x : Call} {n : Bytes} (h : n ∈ x.nonces) :
    ∃ j b, j ≤ maxNumber ∧ n = nonce x.stem j b := by
  obtain ⟨j, b, hj, rfl⟩ := mem_noncesFrom h
  exact ⟨j, b, Nat.le_trans hj x.length_pieces_le, rfl⟩

/-- A nonce has twelve octets. -/
theorem length_of_mem_nonces {x : Call} {n : Bytes} (h : n ∈ x.nonces) : n.length = 12 := by
  obtain ⟨j, b, -, rfl⟩ := exists_of_mem_nonces h
  have hstem := x.length_stem
  unfold stemLength at hstem
  simp [nonce, Bytes.length_bigEndian, hstem]

/-- A ciphertext is its header and the segments, sealed one by one under the nonces. -/
theorem ciphertext_eq_zipWith (a : Aead) (x : Call) :
    x.ciphertext a =
      .ok (version :: (x.stem ++ (List.zipWith a.encrypt x.nonces x.segments).flatten)) := by
  show encryptWith a x.stem x.plaintext = _
  unfold encryptWith
  dsimp only
  rw [sealFrom_eq_zipWith a x.length_pieces_le]
  rfl

/-- Encryptions with different stems have no nonce in common. -/
theorem disjoint_nonces {x y : Call} (h : x.stem ≠ y.stem) : List.Disjoint x.nonces y.nonces := by
  intro n hx hy
  obtain ⟨i, b, hi, hn⟩ := exists_of_mem_nonces hx
  obtain ⟨j, b', hj, hn'⟩ := exists_of_mem_nonces hy
  rw [hn] at hn'
  exact h (nonce_injective x.length_stem y.length_stem hi hj hn').1

end Call

/-- All nonces of a history differ if its stems do.  They are twelve octets each, and every cipher
seals the segments of a plaintext under them, one by one. -/
theorem nodup_nonces (history : List Call) (hstems : (history.map Call.stem).Nodup) :
    (history.flatMap Call.nonces).Nodup ∧
    ∀ x ∈ history, x.segments.flatten = x.plaintext ∧ x.nonces.length = x.segments.length ∧
      (∀ n ∈ x.nonces, n.length = 12) ∧
      ∀ a : Aead, x.ciphertext a =
        .ok (version :: (x.stem ++ (List.zipWith a.encrypt x.nonces x.segments).flatten)) := by
  have hapart : history.Pairwise fun x y => x.stem ≠ y.stem := List.pairwise_map.1 hstems
  refine ⟨List.nodup_flatMap.2 ⟨fun x _ => ?_, hapart.imp Call.disjoint_nonces⟩, fun x _ => ?_⟩
  · exact nodup_noncesFrom x.length_stem x.length_pieces_le
  · exact ⟨x.flatten_segments, x.length_nonces, fun _ => Call.length_of_mem_nonces,
      fun a => x.ciphertext_eq_zipWith a⟩

/-- The nonces of two encryptions, the first one of two segments. -/
theorem nonces_of_two_calls :
    let e : Entropy := ⟨UInt8.ofNat, 0⟩
    let x : Call := ⟨e, List.replicate 65537 3, by rw [Fits, List.length_replicate]; decide⟩
    let y : Call := ⟨(e.draw drawLength).2, [4], by decide⟩
    ([x, y].map Call.stem).Nodup ∧
      [x, y].flatMap Call.nonces =
        [[0, 1, 2, 3, 4, 5, 6, 0, 0, 0, 0, 0], [0, 1, 2, 3, 4, 5, 6, 0, 0, 0, 1, 1],
          [12, 13, 14, 15, 16, 17, 18, 0, 0, 0, 0, 1]] ∧
      ([x, y].flatMap Call.nonces).Nodup := by
  intro e x y
  have hstems : ([x, y].map Call.stem).Nodup := by decide
  refine ⟨hstems, ?_, (nodup_nonces [x, y] hstems).1⟩
  have hcount := Bytes.length_pieces_add_one (show 0 < segmentSize by decide) x.plaintext
  have hlength : x.plaintext.length = 65537 := List.length_replicate
  rw [hlength, show max 1 ((65537 + segmentSize - 1) / segmentSize) = 2 by decide] at hcount
  have hfirst : x.nonces = noncesFrom x.stem 0 1 := by
    unfold Call.nonces
    rw [Nat.succ_injective hcount]
  have hsecond : y.nonces = noncesFrom y.stem 0 0 := by
    unfold Call.nonces
    rw [Bytes.pieces_of_le (show y.plaintext.length ≤ segmentSize by decide)]
    rfl
  rw [List.flatMap_cons, List.flatMap_cons, List.flatMap_nil, hfirst, hsecond]
  decide

end Strongbox.Stream
