import Strongbox.Text.Utf8

/-!
# UTF-8 reads back what it writes

Every character is written as a sequence of octets that begins no other character, so the
octets of a text are read as that text, and different texts have different octets.  The
main statements are `decode_encode` and `encode_injective`.
-/

set_option autoImplicit false

namespace Strongbox.Utf8

/-- The number of a character is below the surrogates or above them. -/
theorem toNat_char_bounds (c : Char) :
    c.toNat < 0xD800 ∨ (0xDFFF < c.toNat ∧ c.toNat < 0x110000) := by
  rcases c.valid with h | h
  · exact .inl h
  · exact .inr h

/-- An octet has the number that it was made of. -/
theorem toNat_octet {n : Nat} (h : n < 256) : (UInt8.ofNat n).toNat = n := by
  rw [UInt8.toNat_ofNat']
  omega

/-- Six bits with the mark of a further octet make one. -/
theorem isTail_octet (n : Nat) : isTail (UInt8.ofNat (0x80 + n % 64)) = true := by
  unfold isTail
  rw [toNat_octet (by omega)]
  simp only [Bool.and_eq_true, decide_eq_true_eq]
  omega

/-- One octet is read as its character. -/
theorem head_of_one {c : Char} (h : c.toNat < 0x80) (rest : Bytes) :
    head (UInt8.ofNat c.toNat) rest = .char c rest := by
  unfold head
  rw [toNat_octet (by omega), if_pos h, Char.ofNat_toNat]

/-- Two octets are read as their character. -/
theorem head_of_two {c : Char} (hlow : 0x80 ≤ c.toNat) (hhigh : c.toNat < 0x800) (rest : Bytes) :
    head (UInt8.ofNat (0xC0 + c.toNat / 64)) (UInt8.ofNat (0x80 + c.toNat % 64) :: rest) =
      .char c rest := by
  have hnumber : (0xC0 + c.toNat / 64 - 0xC0) * 64 + (0x80 + c.toNat % 64 - 0x80) = c.toNat := by
    omega
  unfold head
  rw [toNat_octet (by omega), if_neg (by omega), if_neg (by omega), if_pos (by omega)]
  unfold headOfTwo
  dsimp only
  rw [if_pos (isTail_octet _), toNat_octet (by omega), toNat_octet (by omega), hnumber,
    Char.ofNat_toNat]

/-- Three octets are read as their character. -/
theorem head_of_three {c : Char} (hlow : 0x800 ≤ c.toNat) (hhigh : c.toNat < 0x10000)
    (rest : Bytes) :
    head (UInt8.ofNat (0xE0 + c.toNat / 4096)) (UInt8.ofNat (0x80 + c.toNat / 64 % 64) ::
      UInt8.ofNat (0x80 + c.toNat % 64) :: rest) = .char c rest := by
  have hbounds := toNat_char_bounds c
  have hnumber : (0xE0 + c.toNat / 4096 - 0xE0) * 4096 + (0x80 + c.toNat / 64 % 64 - 0x80) * 64 +
      (0x80 + c.toNat % 64 - 0x80) = c.toNat := by omega
  have hsecond : isSecondOfThree (UInt8.ofNat (0xE0 + c.toNat / 4096))
      (UInt8.ofNat (0x80 + c.toNat / 64 % 64)) = true := by
    unfold isSecondOfThree
    rw [isTail_octet, toNat_octet (by omega), toNat_octet (by omega)]
    simp only [Bool.true_and, Bool.and_eq_true, Bool.or_eq_true, bne_iff_ne, ne_eq,
      decide_eq_true_eq]
    omega
  unfold head
  rw [toNat_octet (by omega), if_neg (by omega), if_neg (by omega), if_neg (by omega),
    if_pos (by omega)]
  unfold headOfThree
  dsimp only
  rw [hsecond, if_neg (by simp), if_pos (isTail_octet _), toNat_octet (by omega),
    toNat_octet (by omega), toNat_octet (by omega), hnumber, Char.ofNat_toNat]

/-- Four octets are read as their character. -/
theorem head_of_four {c : Char} (hlow : 0x10000 ≤ c.toNat) (rest : Bytes) :
    head (UInt8.ofNat (0xF0 + c.toNat / 262144)) (UInt8.ofNat (0x80 + c.toNat / 4096 % 64) ::
      UInt8.ofNat (0x80 + c.toNat / 64 % 64) :: UInt8.ofNat (0x80 + c.toNat % 64) :: rest) =
      .char c rest := by
  have hbounds := toNat_char_bounds c
  have hnumber : (0xF0 + c.toNat / 262144 - 0xF0) * 262144 +
      (0x80 + c.toNat / 4096 % 64 - 0x80) * 4096 + (0x80 + c.toNat / 64 % 64 - 0x80) * 64 +
      (0x80 + c.toNat % 64 - 0x80) = c.toNat := by omega
  have hsecond : isSecondOfFour (UInt8.ofNat (0xF0 + c.toNat / 262144))
      (UInt8.ofNat (0x80 + c.toNat / 4096 % 64)) = true := by
    unfold isSecondOfFour
    rw [isTail_octet, toNat_octet (by omega), toNat_octet (by omega)]
    simp only [Bool.true_and, Bool.and_eq_true, Bool.or_eq_true, bne_iff_ne, ne_eq,
      decide_eq_true_eq]
    omega
  unfold head
  rw [toNat_octet (by omega), if_neg (by omega), if_neg (by omega), if_neg (by omega),
    if_neg (by omega), if_pos (by omega)]
  unfold headOfFour
  dsimp only
  rw [hsecond, isTail_octet, if_neg (by simp), if_neg (by simp), if_pos (isTail_octet _),
    toNat_octet (by omega), toNat_octet (by omega), toNat_octet (by omega),
    toNat_octet (by omega), hnumber, Char.ofNat_toNat]

/-- The octets of a character are read as that character, whatever follows them. -/
theorem exists_head_encodeChar (c : Char) (rest : Bytes) :
    ∃ a tail, encodeChar c ++ rest = a :: tail ∧ head a tail = .char c rest := by
  unfold encodeChar
  dsimp only
  split
  · exact ⟨_, _, rfl, head_of_one (by omega) rest⟩
  · split
    · exact ⟨_, _, rfl, head_of_two (by omega) (by omega) rest⟩
    · split
      · exact ⟨_, _, rfl, head_of_three (by omega) (by omega) rest⟩
      · exact ⟨_, _, rfl, head_of_four (by omega) rest⟩

/-- Characters that were written are read again in order. -/
theorem decodeFrom_encodeChars (index : Nat) (done cs : List Char) :
    decodeFrom index done (encodeChars cs) = .ok (done.reverse ++ cs) := by
  induction cs generalizing index done with
  | nil =>
    unfold encodeChars
    rw [List.flatMap_nil, decodeFrom, List.append_nil]
  | cons c cs ih =>
    obtain ⟨a, tail, hbytes, hhead⟩ := exists_head_encodeChar c (encodeChars cs)
    have hcons : encodeChars (c :: cs) = a :: tail := by
      rw [← hbytes]
      rfl
    rw [hcons, decodeFrom]
    split
    · rename_i d r hd
      rw [hhead] at hd
      injection hd with hc hr
      subst hc hr
      rw [ih, List.reverse_cons, List.append_assoc]
      rfl
    · rename_i hd
      rw [hhead] at hd
      exact absurd hd (by simp)
    · rename_i hd
      rw [hhead] at hd
      exact absurd hd (by simp)

/-- The octets of a list of characters are read as these characters. -/
theorem decodeChars_encodeChars (cs : List Char) : decodeChars (encodeChars cs) = .ok cs :=
  decodeFrom_encodeChars 0 [] cs

/-- The octets of a text are read as that text. -/
theorem decode_encode (s : String) : decode (encode s) = .ok s := by
  unfold decode encode
  rw [decodeChars_encodeChars]
  show Except.ok (String.ofList s.toList) = .ok s
  rw [String.ofList_toList]

/-- The octets of characters that were joined are joined. -/
theorem encodeChars_append (cs ds : List Char) :
    encodeChars (cs ++ ds) = encodeChars cs ++ encodeChars ds := by
  unfold encodeChars
  rw [List.flatMap_append]

/-- A text is encoded character by character. -/
theorem encodeChars_cons (c : Char) (cs : List Char) :
    encodeChars (c :: cs) = encodeChar c ++ encodeChars cs := rfl

/-- Different texts have different octets. -/
theorem encode_injective {s t : String} (h : encode s = encode t) : s = t := by
  have hdecode := congrArg decode h
  rw [decode_encode, decode_encode] at hdecode
  injection hdecode

/-- An ASCII character is written as one octet. -/
theorem encodeChar_of_lt {c : Char} (h : c.toNat < 0x80) :
    encodeChar c = [UInt8.ofNat c.toNat] := by
  unfold encodeChar
  rw [if_pos h]

/-- ASCII characters are written as one octet each. -/
theorem encodeChars_of_ascii {cs : List Char} (h : ∀ c ∈ cs, c.toNat < 0x80) :
    encodeChars cs = cs.map fun c => UInt8.ofNat c.toNat := by
  induction cs with
  | nil => rfl
  | cons c cs ih =>
    rw [encodeChars_cons, encodeChar_of_lt (h c List.mem_cons_self),
      ih fun d hd => h d (List.mem_cons_of_mem c hd)]
    rfl

end Strongbox.Utf8
