import Mathlib.Tactic.SplitIfs
import Strongbox.Engine.Range
import Strongbox.Proofs.Text.Utf8

/-!
# The order of keys

Engines compare keys octet by octet, and the rest of the program compares them character by
character.  Both orders are the same, and the keys that begin with a stem stand together in
it, from the stem on.
-/

set_option autoImplicit false

namespace Strongbox.Utf8

/-! ## Octets of a text that was read -/

/-- A code point that is no surrogate is the one of its character. -/
theorem toNat_ofNat_char {n : Nat} (h : n < 0xD800 ∨ (0xDFFF < n ∧ n < 0x110000)) :
    (Char.ofNat n).toNat = n := by
  have hvalid : n.isValidChar := h
  rw [Char.ofNat, dif_pos hvalid]
  rfl

/-- An octet is made of its own number. -/
theorem octet_eq {n : Nat} {a : UInt8} (h : n = a.toNat) : UInt8.ofNat n = a := by
  rw [h, UInt8.ofNat_toNat]

/-- The octets behind the first lie between 0x80 and 0xBF. -/
theorem isTail_iff {b : UInt8} : isTail b = true ↔ 0x80 ≤ b.toNat ∧ b.toNat ≤ 0xBF := by
  simp [isTail]

/-- A character of two octets is encoded as the octets that it was read from. -/
theorem encodeChar_of_headOfTwo {a : UInt8} {bs rest : Bytes} {c : Char}
    (hlow : 0xC2 ≤ a.toNat) (hhigh : a.toNat < 0xE0) (h : headOfTwo a bs = .char c rest) :
    encodeChar c ++ rest = a :: bs := by
  cases bs with
  | nil => simp [headOfTwo] at h
  | cons b bs =>
    simp only [headOfTwo] at h
    split at h
    · rename_i hb
      have hb := isTail_iff.1 hb
      obtain ⟨hc, hrest⟩ := Head.char.inj h
      have hn : c.toNat = (a.toNat - 0xC0) * 64 + (b.toNat - 0x80) := by
        rw [← hc, toNat_ofNat_char (by omega)]
      unfold encodeChar
      rw [if_neg (by omega), if_pos (by omega), octet_eq (a := a) (by omega),
        octet_eq (a := b) (by omega), hrest]
      rfl
    · simp at h

/-- So is a character of three octets. -/
theorem encodeChar_of_headOfThree {a : UInt8} {bs rest : Bytes} {c : Char}
    (hlow : 0xE0 ≤ a.toNat) (hhigh : a.toNat < 0xF0) (h : headOfThree a bs = .char c rest) :
    encodeChar c ++ rest = a :: bs := by
  match bs with
  | [] => simp [headOfThree] at h
  | [b] =>
    simp only [headOfThree] at h
    split at h <;> simp at h
  | b :: d :: bs =>
    simp only [headOfThree] at h
    split at h
    · simp at h
    · rename_i hb
      split at h
      · rename_i hd
        have hd := isTail_iff.1 hd
        simp only [isSecondOfThree, isTail, Bool.not_eq_true, Bool.not_eq_false',
          Bool.and_eq_true, Bool.or_eq_true, bne_iff_ne, decide_eq_true_eq] at hb
        obtain ⟨hc, hrest⟩ := Head.char.inj h
        have hn : c.toNat =
            (a.toNat - 0xE0) * 4096 + (b.toNat - 0x80) * 64 + (d.toNat - 0x80) := by
          rw [← hc, toNat_ofNat_char (by omega)]
        unfold encodeChar
        rw [if_neg (by omega), if_neg (by omega), if_pos (by omega),
          octet_eq (a := a) (by omega), octet_eq (a := b) (by omega),
          octet_eq (a := d) (by omega), hrest]
        rfl
      · simp at h

/-- So is a character of four octets. -/
theorem encodeChar_of_headOfFour {a : UInt8} {bs rest : Bytes} {c : Char}
    (hlow : 0xF0 ≤ a.toNat) (hhigh : a.toNat < 0xF5) (h : headOfFour a bs = .char c rest) :
    encodeChar c ++ rest = a :: bs := by
  match bs with
  | [] => simp [headOfFour] at h
  | [b] =>
    simp only [headOfFour] at h
    split at h <;> simp at h
  | [b, d] =>
    simp only [headOfFour] at h
    split at h
    · simp at h
    · split at h <;> simp at h
  | b :: d :: e :: bs =>
    simp only [headOfFour] at h
    split at h
    · simp at h
    · rename_i hb
      split at h
      · simp at h
      · rename_i hd
        split at h
        · rename_i he
          have he := isTail_iff.1 he
          simp only [isSecondOfFour, isTail, Bool.not_eq_true, Bool.not_eq_false',
            Bool.and_eq_true, Bool.or_eq_true, bne_iff_ne, decide_eq_true_eq] at hb hd
          obtain ⟨hc, hrest⟩ := Head.char.inj h
          have hn : c.toNat = (a.toNat - 0xF0) * 262144 + (b.toNat - 0x80) * 4096 +
              (d.toNat - 0x80) * 64 + (e.toNat - 0x80) := by
            rw [← hc, toNat_ofNat_char (by omega)]
          unfold encodeChar
          rw [if_neg (by omega), if_neg (by omega), if_neg (by omega),
            octet_eq (a := a) (by omega), octet_eq (a := b) (by omega),
            octet_eq (a := d) (by omega), octet_eq (a := e) (by omega), hrest]
          rfl
        · simp at h

/-- A character that was read is written with the octets that were read. -/
theorem encodeChar_of_head {a : UInt8} {bs rest : Bytes} {c : Char}
    (h : head a bs = .char c rest) : encodeChar c ++ rest = a :: bs := by
  unfold head at h
  split at h
  · rename_i ha
    obtain ⟨hc, hrest⟩ := Head.char.inj h
    have hn : c.toNat = a.toNat := by
      rw [← hc, toNat_ofNat_char (by omega)]
    rw [encodeChar_of_lt (by omega), hn, UInt8.ofNat_toNat, hrest]
    rfl
  · split at h
    · simp at h
    · split at h
      · exact encodeChar_of_headOfTwo (by omega) (by omega) h
      · split at h
        · exact encodeChar_of_headOfThree (by omega) (by omega) h
        · split at h
          · exact encodeChar_of_headOfFour (by omega) (by omega) h
          · simp at h

/-- What is decoded is encoded as the octets that were decoded. -/
theorem encodeChars_of_decodeFrom {index : Nat} {done cs : List Char} {bs : Bytes}
    (h : decodeFrom index done bs = .ok cs) :
    encodeChars cs = encodeChars done.reverse ++ bs := by
  fun_induction decodeFrom index done bs with
  | case1 index done =>
    injection h with h
    rw [← h, List.append_nil]
  | case2 index done a rest c r hhead ih =>
    have hcs := ih h
    rw [List.reverse_cons, encodeChars_append, List.append_assoc] at hcs
    rw [hcs, ← encodeChar_of_head hhead]
    simp [encodeChars]
  | case3 => simp at h
  | case4 => simp at h

/-- A text that was read is written with the octets that were read. -/
theorem encode_of_decode {raw : Bytes} {key : String} (h : decode raw = .ok key) :
    encode key = raw := by
  unfold decode decodeChars at h
  cases hchars : decodeFrom 0 [] raw with
  | error fault =>
    rw [hchars] at h
    simp [Except.map] at h
  | ok cs =>
    rw [hchars] at h
    injection h with h
    have hcs := encodeChars_of_decodeFrom hchars
    rw [← h]
    simpa [encode, encodeChars] using hcs

/-! ## Octets and characters are in the same order -/

/-- Octets are ordered as their numbers are. -/
theorem octet_lt_iff {m n : Nat} (hm : m < 256) (hn : n < 256) :
    UInt8.ofNat m < UInt8.ofNat n ↔ m < n := by
  rw [UInt8.lt_iff_toNat_lt, toNat_octet hm, toNat_octet hn]

/-- Octets are equal if their numbers are. -/
theorem octet_inj {m n : Nat} (hm : m < 256) (hn : n < 256) :
    UInt8.ofNat m = UInt8.ofNat n ↔ m = n := by
  rw [← UInt8.toNat_inj, toNat_octet hm, toNat_octet hn]

/-- The lesser of two characters has the lesser octets, whatever follows. -/
theorem encodeChar_append_lt {c d : Char} (h : c < d) (xs ys : Bytes) :
    encodeChar c ++ xs < encodeChar d ++ ys := by
  have hlt : c.toNat < d.toNat := h
  have hc := toNat_char_bounds c
  have hd := toNat_char_bounds d
  unfold encodeChar
  dsimp only
  split_ifs <;>
    simp only [List.cons_append, List.nil_append, List.cons_lt_cons_iff] <;>
    simp (disch := omega) only [octet_lt_iff, octet_inj] <;>
    omega

/-- The encoding keeps the order of texts. -/
theorem encodeChars_lt {cs ds : List Char} (h : cs < ds) : encodeChars cs < encodeChars ds := by
  induction cs generalizing ds with
  | nil =>
    cases ds with
    | nil => simp at h
    | cons d ds =>
      obtain ⟨a, tail, hbytes, -⟩ := exists_head_encodeChar d (encodeChars ds)
      rw [encodeChars_cons, hbytes]
      exact List.nil_lt_cons a tail
  | cons c cs ih =>
    cases ds with
    | nil => simp at h
    | cons d ds =>
      rw [encodeChars_cons, encodeChars_cons]
      rcases List.cons_lt_cons_iff.1 h with hlt | ⟨rfl, hlt⟩
      · exact encodeChar_append_lt hlt _ _
      · exact List.append_left_lt (ih hlt)

/-- The order of texts is the order of their octets. -/
theorem encode_lt_encode {s t : String} : encode s < encode t ↔ s < t := by
  constructor
  · intro h
    rcases Std.lt_trichotomy s t with hlt | rfl | hlt
    · exact hlt
    · exact absurd h Std.lt_irrefl
    · exact absurd (Std.lt_trans h (encodeChars_lt (String.lt_iff.1 hlt))) Std.lt_irrefl
  · intro h
    exact encodeChars_lt (String.lt_iff.1 h)

end Strongbox.Utf8

/-! ## Keys that begin with a stem -/

namespace Strongbox.Range

/-- A key belongs to a range if it begins with the stem. -/
theorem begins_iff {stem key : String} : begins stem key = true ↔ stem.toList <+: key.toList := by
  unfold begins
  exact List.isPrefixOf_iff_prefix

/-- No text comes before its beginnings. -/
theorem not_lt_of_prefix {cs ds : List Char} (h : cs <+: ds) : ¬ ds < cs := by
  induction cs generalizing ds with
  | nil => simp
  | cons c cs ih =>
    obtain ⟨rest, rfl⟩ := h
    intro hlt
    rcases List.cons_lt_cons_iff.1 hlt with hc | ⟨-, hrest⟩
    · exact Std.lt_irrefl hc
    · exact ih (List.prefix_append cs rest) hrest

/-- A text between a stem and one that continues it continues the stem as well. -/
theorem prefix_of_between {cs ds es : List Char} (hlow : ¬ ds < cs) (hhigh : ¬ es < ds)
    (h : cs <+: es) : cs <+: ds := by
  induction cs generalizing ds es with
  | nil => exact List.nil_prefix
  | cons c cs ih =>
    obtain ⟨rest, rfl⟩ := h
    cases ds with
    | nil => exact absurd (List.nil_lt_cons c cs) hlow
    | cons d ds =>
      rw [List.cons_lt_cons_iff] at hlow
      rw [List.cons_append, List.cons_lt_cons_iff] at hhigh
      have hd : d = c := by
        rcases Std.lt_trichotomy d c with hlt | heq | hlt
        · exact absurd (.inl hlt) hlow
        · exact heq
        · exact absurd (.inl hlt) hhigh
      subst hd
      have hrest : cs <+: ds := by
        refine ih ?_ ?_ (List.prefix_append cs rest)
        · exact fun hlt => hlow (.inr ⟨rfl, hlt⟩)
        · exact fun hlt => hhigh (.inr ⟨rfl, hlt⟩)
      exact List.cons_prefix_cons.2 ⟨rfl, hrest⟩

/-- A key that begins with a stem does not lie below it. -/
theorem not_lt_of_begins {stem key : String} (h : begins stem key = true) : ¬ key < stem := by
  rw [String.lt_iff]
  exact not_lt_of_prefix (begins_iff.1 h)

/-- The keys from a stem up to one that begins with it begin with it. -/
theorem begins_of_between {stem key other : String} (hlow : ¬ key < stem) (hhigh : ¬ other < key)
    (h : begins stem other = true) : begins stem key = true := by
  rw [String.lt_iff] at hlow hhigh
  exact begins_iff.2 (prefix_of_between hlow hhigh (begins_iff.1 h))

end Strongbox.Range
