import Strongbox.Json.Parser
import Strongbox.Json.Printer
import Strongbox.Proofs.Text.Utf8

/-!
# Strings in a text

Every string is read back from its escaped form, whatever follows it.
-/

set_option autoImplicit false

namespace Strongbox.Json

/-- An escape stands for its octets. -/
theorem octetsFrom_escape {done bs out rest : Bytes} (h : escapeTail bs = .ok (out, rest)) :
    octetsFrom done (92 :: bs) = octetsFrom (out.reverse ++ done) rest := by
  rw [octetsFrom, if_neg (by decide), if_pos rfl]
  split
  · rename_i hstep
    rw [h] at hstep
    exact absurd hstep (by simp)
  · rename_i hstep
    rw [h] at hstep
    injection hstep with hstep
    injection hstep with hout hrest
    rw [hout, hrest]

/-- Octets that are neither special nor control characters stand for themselves. -/
theorem octetsFrom_plain {done bs : Bytes} (tail : Bytes)
    (h : ∀ b ∈ bs, b ≠ 34 ∧ b ≠ 92 ∧ ¬ b < 32) :
    octetsFrom done (bs ++ tail) = octetsFrom (bs.reverse ++ done) tail := by
  induction bs generalizing done with
  | nil => rfl
  | cons b bs ih =>
    obtain ⟨hquote, hslash, hcontrol⟩ := h b List.mem_cons_self
    rw [List.cons_append, octetsFrom, if_neg hquote, if_neg hslash, if_neg hcontrol,
      ih fun c hc => h c (List.mem_cons_of_mem b hc), List.reverse_cons, List.append_assoc]
    rfl

/-- The octets of a character beyond ASCII are beyond ASCII. -/
theorem le_of_mem_encodeChar {c : Char} (h : 0x80 ≤ c.toNat) {b : UInt8}
    (hb : b ∈ Utf8.encodeChar c) : 0x80 ≤ b.toNat := by
  have hbounds := Utf8.toNat_char_bounds c
  unfold Utf8.encodeChar at hb
  dsimp only at hb
  rw [if_neg (by omega)] at hb
  split at hb
  · simp only [List.mem_cons, List.not_mem_nil, or_false] at hb
    rcases hb with rfl | rfl <;> rw [Utf8.toNat_octet (by omega)] <;> omega
  · split at hb
    · simp only [List.mem_cons, List.not_mem_nil, or_false] at hb
      rcases hb with rfl | rfl | rfl <;> rw [Utf8.toNat_octet (by omega)] <;> omega
    · simp only [List.mem_cons, List.not_mem_nil, or_false] at hb
      rcases hb with rfl | rfl | rfl | rfl <;> rw [Utf8.toNat_octet (by omega)] <;> omega

/-- The octets of a character that needs no escape stand for themselves. -/
theorem octetsFrom_encodeChar {c : Char} (hquote : c ≠ '"') (hslash : c ≠ '\\')
    (hcontrol : ¬ c.toNat < 0x20) (done tail : Bytes) :
    octetsFrom done (Utf8.encodeChar c ++ tail) =
      octetsFrom ((Utf8.encodeChar c).reverse ++ done) tail := by
  refine octetsFrom_plain tail fun b hb => ?_
  have hbounds : b.toNat ≠ 34 ∧ b.toNat ≠ 92 ∧ ¬ b.toNat < 32 := by
    rcases Nat.lt_or_ge c.toNat 0x80 with hascii | hbeyond
    · rw [Utf8.encodeChar_of_lt hascii, List.mem_singleton] at hb
      have hnat (d : Char) (hd : c ≠ d) : c.toNat ≠ d.toNat := by
        intro hsame
        rw [← Char.ofNat_toNat c, hsame, Char.ofNat_toNat] at hd
        exact hd rfl
      rw [hb, Utf8.toNat_octet (by omega)]
      exact ⟨hnat '"' hquote, hnat '\\' hslash, hcontrol⟩
    · have hle := le_of_mem_encodeChar hbeyond hb
      omega
  refine ⟨?_, ?_, ?_⟩
  · rintro rfl
    exact hbounds.1 rfl
  · rintro rfl
    exact hbounds.2.1 rfl
  · intro hlt
    exact hbounds.2.2 (UInt8.lt_iff_toNat_lt.1 hlt)

/-- Every octet is read back from its two hexadecimal digits, as far as control characters
need it. -/
theorem hex4?_control : ∀ n < 0x20,
    hex4? 48 48 (UInt8.ofNat (Bytes.hexDigit (n / 16)).toNat)
      (UInt8.ofNat (Bytes.hexDigit (n % 16)).toNat) = some n := by
  decide

/-- The hexadecimal digits are ASCII. -/
theorem toNat_hexDigit_lt : ∀ n < 16, (Bytes.hexDigit n).toNat < 0x80 := by
  decide

/-- A control character is read back from the escape of its number. -/
theorem octetsFrom_control {c : Char} (h : c.toNat < 0x20) (done tail : Bytes) :
    octetsFrom done
        (Utf8.encodeChars ['\\', 'u', '0', '0', Bytes.hexDigit (c.toNat / 16),
          Bytes.hexDigit (c.toNat % 16)] ++ tail) =
      octetsFrom ((Utf8.encodeChar c).reverse ++ done) tail := by
  have hbytes : Utf8.encodeChars ['\\', 'u', '0', '0', Bytes.hexDigit (c.toNat / 16),
      Bytes.hexDigit (c.toNat % 16)] =
        [92, 117, 48, 48, UInt8.ofNat (Bytes.hexDigit (c.toNat / 16)).toNat,
          UInt8.ofNat (Bytes.hexDigit (c.toNat % 16)).toNat] := by
    rw [Utf8.encodeChars_of_ascii]
    · rfl
    · simp only [List.mem_cons, List.not_mem_nil, or_false]
      rintro d (rfl | rfl | rfl | rfl | rfl | rfl)
      · decide
      · decide
      · decide
      · decide
      · exact toNat_hexDigit_lt _ (by omega)
      · exact toNat_hexDigit_lt _ (by omega)
  have hunit : codeUnit (48 :: 48 :: UInt8.ofNat (Bytes.hexDigit (c.toNat / 16)).toNat ::
      UInt8.ofNat (Bytes.hexDigit (c.toNat % 16)).toNat :: tail) = .ok (c.toNat, tail) := by
    unfold codeUnit
    dsimp only
    rw [hex4?_control _ h]
  have hsmall : isLowSurrogate c.toNat = false ∧ isHighSurrogate c.toNat = false := by
    unfold isLowSurrogate isHighSurrogate
    simp only [Bool.and_eq_false_iff, decide_eq_false_iff_not]
    omega
  rw [hbytes]
  refine octetsFrom_escape ?_
  show escapeTail (117 :: 48 :: 48 :: _ :: _ :: tail) = _
  unfold escapeTail
  dsimp only
  rw [if_neg (by decide), if_neg (by decide), if_neg (by decide), if_neg (by decide),
    if_neg (by decide), if_neg (by decide), if_pos rfl, hunit]
  dsimp only
  rw [hsmall.1, hsmall.2, if_neg Bool.false_ne_true, if_neg Bool.false_ne_true]
  unfold encodeNumber
  rw [Char.ofNat_toNat]

/-- A character is read back from its escaped form. -/
theorem octetsFrom_escapeChar (c : Char) (done tail : Bytes) :
    octetsFrom done (Utf8.encodeChars (escape c) ++ tail) =
      octetsFrom ((Utf8.encodeChar c).reverse ++ done) tail := by
  unfold escape
  split
  · rename_i h
    subst h
    exact octetsFrom_escape rfl
  split
  · rename_i h
    subst h
    exact octetsFrom_escape rfl
  split
  · rename_i h
    subst h
    exact octetsFrom_escape rfl
  split
  · rename_i h
    subst h
    exact octetsFrom_escape rfl
  split
  · rename_i h
    subst h
    exact octetsFrom_escape rfl
  split
  · rename_i h
    subst h
    exact octetsFrom_escape rfl
  split
  · rename_i h
    subst h
    exact octetsFrom_escape rfl
  split
  · exact octetsFrom_control ‹_› done tail
  · rename_i hquote hslash _ _ _ _ _ hcontrol
    have hone : Utf8.encodeChars [c] = Utf8.encodeChar c := by
      unfold Utf8.encodeChars
      rw [List.flatMap_singleton]
    rw [hone]
    exact octetsFrom_encodeChar hquote hslash hcontrol done tail

/-- The characters of a string are read back up to its closing quotation mark. -/
theorem octetsFrom_escaped (cs : List Char) (done rest : Bytes) :
    octetsFrom done (Utf8.encodeChars (cs.flatMap escape) ++ 34 :: rest) =
      .ok (done.reverse ++ Utf8.encodeChars cs, rest) := by
  induction cs generalizing done with
  | nil =>
    show octetsFrom done (34 :: rest) = .ok (done.reverse ++ [], rest)
    rw [octetsFrom, if_pos rfl, List.append_nil]
  | cons c cs ih =>
    rw [List.flatMap_cons, Utf8.encodeChars_append, List.append_assoc, octetsFrom_escapeChar, ih,
      List.reverse_append, List.reverse_reverse, List.append_assoc]
    rfl

/-- A string is read back whatever follows it. -/
theorem string_escaped (s : String) (rest : Bytes) :
    string (Utf8.encodeChars (s.toList.flatMap escape) ++ 34 :: rest) = .ok (s, rest) := by
  have hdecode := Utf8.decode_encode s
  unfold Utf8.encode at hdecode
  unfold string
  rw [octetsFrom_escaped]
  dsimp only [List.reverse_nil, List.nil_append]
  rw [hdecode]

/-- A string in quotation marks is its opening mark, its escaped form and its closing
mark. -/
theorem encodeChars_quoted (s : String) (rest : Bytes) :
    Utf8.encodeChars (quoted s) ++ rest =
      34 :: (Utf8.encodeChars (s.toList.flatMap escape) ++ 34 :: rest) := by
  unfold quoted
  rw [Utf8.encodeChars_cons, Utf8.encodeChars_append, List.append_assoc, List.append_assoc]
  rfl

end Strongbox.Json
