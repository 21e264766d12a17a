import Strongbox.Proofs.Cipher.Segments
import Strongbox.Proofs.Counter

/-!
# How long the bytes of a counter are

A record is encrypted only if its bytes are few enough.  The bytes of a counter's record are few
unless its path is long, and its times take so few of them that they matter only for paths of
hundreds of terabytes.  The main statement is `Counter.fitsAlike_of_length`.
-/

set_option autoImplicit false

namespace Strongbox

/-- Pieces of bounded length make a list of bounded length. -/
theorem length_flatMap_le {α β : Type} {f : α → List β} {k : Nat}
    (h : ∀ x, (f x).length ≤ k) (xs : List α) : (xs.flatMap f).length ≤ k * xs.length := by
  induction xs with
  | nil => exact Nat.zero_le _
  | cons x xs ih =>
    have hx := h x
    rw [List.flatMap_cons, List.length_append, List.length_cons, Nat.mul_succ]
    omega

/-! ## Texts -/

/-- A character takes four octets at most. -/
theorem Utf8.length_encodeChars_le (cs : List Char) : (encodeChars cs).length ≤ 4 * cs.length := by
  refine length_flatMap_le (fun c => ?_) cs
  unfold encodeChar
  dsimp only
  split_ifs <;> simp

/-- An escaped character takes six at most. -/
theorem Json.length_escape_le (c : Char) : (escape c).length ≤ 6 := by
  unfold escape
  split_ifs <;> simp

/-- A quoted text takes six characters for each of its own, and the quotation marks. -/
theorem Json.length_quoted_le (s : String) : (quoted s).length ≤ 6 * s.length + 2 := by
  have hescaped := length_flatMap_le Json.length_escape_le s.toList
  rw [String.length_toList] at hescaped
  unfold quoted
  rw [List.length_cons, List.length_append, List.length_singleton]
  omega

namespace Time

/-- A number below a power of ten has no more digits than the exponent. -/
theorem length_digitsOf_le {n k : Nat} (hk : 0 < k) (h : n < 10 ^ k) :
    (Decimal.digitsOf n).length ≤ k :=
  (Nat.length_toDigits_le_iff (by decide) hk).2 h

/-- Padding makes it no longer than its width. -/
theorem length_padded_le {width n k : Nat} (hk : 0 < k) (hwidth : width ≤ k) (h : n < 10 ^ k) :
    (padded width n).length ≤ k := by
  have hdigits := length_digitsOf_le hk h
  unfold padded
  rw [List.length_append, List.length_replicate]
  omega

/-- A time stamp is short, whatever its year. -/
theorem Instant.length_stamp_le {t : Instant} (h : t.IsValid) : t.stamp.length ≤ 40 := by
  have hdate := isDate_ofDays h.isRepresentable
  obtain ⟨hmonth, hday⟩ := Date.lt_of_isValid hdate
  have hnanos := h.nanos_lt
  have hyear : (writeYear (Date.ofDays (t.seconds / 86400)).year).length ≤ 7 := by
    unfold Date.isValid at hdate
    simp only [Bool.and_eq_true, decide_eq_true_eq] at hdate
    obtain ⟨⟨⟨⟨⟨hmin, hmax⟩, -⟩, -⟩, -⟩, -⟩ := hdate
    unfold Date.minYear at hmin
    unfold Date.maxYear at hmax
    unfold writeYear
    split
    · exact Nat.le_trans (length_padded_le (k := 6) (by decide) (by decide) (by omega)) (by decide)
    · exact Nat.succ_le_succ (length_padded_le (by decide) (by decide) (by omega))
  have hfraction : (writeFraction (t.nanos % 1000000000)).length ≤ 10 := by
    unfold writeFraction
    split_ifs
    · exact Nat.zero_le _
    · exact Nat.succ_le_succ (length_padded_le (by decide) (by decide) (by omega))
    · exact Nat.succ_le_succ (length_padded_le (by decide) (by decide) (by omega))
    · exact Nat.succ_le_succ (length_padded_le (by decide) (by decide) (by omega))
  have hpart : ∀ n < 100, (padded 2 n).length ≤ 2 := fun n hn =>
    length_padded_le (by decide) (by decide) hn
  have hmonth' := hpart _ hmonth
  have hday' := hpart _ hday
  have hhour := hpart ((t.seconds % 86400).toNat / 3600) (by omega)
  have hminute := hpart ((t.seconds % 86400).toNat / 60 % 60) (by omega)
  have hsecond := hpart ((t.seconds % 86400).toNat % 60 + t.nanos / 1000000000) (by omega)
  unfold stamp stampChars
  dsimp only
  rw [String.length_ofList]
  simp only [List.length_append, List.length_cons, List.length_nil]
  omega

end Time

/-! ## Counters -/

namespace Counter

/-- Whether the record of a counter at the path is short enough to be encrypted does not hang on
its times. -/
def FitsAlike (path : String) : Prop :=
  ∀ next < Cursor.wordLimit, ∀ t u t' u' : Time.Instant,
    t.IsValid → u.IsValid → t'.IsValid → u'.IsValid →
      (Stream.Fits (Record.toBytes ⟨path, fieldsFor next, t, u⟩) ↔
        Stream.Fits (Record.toBytes ⟨path, fieldsFor next, t', u'⟩))

/-- The length of a counter's record is bounded by that of its path. -/
theorem length_toBytes_le {path : String} {next : Nat} (hnext : next < Cursor.wordLimit)
    {t u : Time.Instant} (ht : t.IsValid) (hu : u.IsValid) :
    (Record.toBytes ⟨path, fieldsFor next, t, u⟩).length ≤ 24 * path.length + 4000 := by
  have hpath := Json.length_quoted_le path
  have hcreated := Json.length_quoted_le t.stamp
  have hupdated := Json.length_quoted_le u.stamp
  have hstamp := Time.Instant.length_stamp_le ht
  have hstamp' := Time.Instant.length_stamp_le hu
  have hdigits : (Decimal.digitsOfInt next).length ≤ 20 := by
    unfold Decimal.digitsOfInt
    rw [if_neg (by omega), Int.toNat_natCast]
    refine Time.length_digitsOf_le (by decide) ?_
    unfold Cursor.wordLimit at hnext
    omega
  have hname : (Json.quoted "path").length = 6 ∧ (Json.quoted "values").length = 8 ∧
      (Json.quoted field).length = 9 ∧ (Json.quoted "created_at").length = 12 ∧
      (Json.quoted "updated_at").length = 12 := by
    decide
  have htext := Utf8.length_encodeChars_le
    (Record.toJson ⟨path, fieldsFor next, t, u⟩).text
  refine Nat.le_trans htext ?_
  unfold Record.toJson fieldsFor
  simp only [Json.Value.text, Json.Value.textOfMembers, Json.Number.text, List.length_append,
    List.length_cons, List.length_nil, hname]
  omega

/-- Every record of a counter at the path is short enough to be encrypted. -/
def Fits (path : String) : Prop :=
  ∀ next < Cursor.wordLimit, ∀ t u : Time.Instant, t.IsValid → u.IsValid →
    Stream.Fits (Record.toBytes ⟨path, fieldsFor next, t, u⟩)

/-- So they are for any path of at most 2 ^ 43 characters. -/
theorem fits_of_length {path : String} (h : path.length ≤ 2 ^ 43) : Fits path := by
  intro next hnext t u ht hu
  have hlength : (Record.toBytes ⟨path, fieldsFor next, t, u⟩).length ≤ _ :=
    length_toBytes_le hnext ht hu
  unfold Stream.Fits Stream.segmentSize Stream.maxNumber
  omega

/-- The times do not matter for any path of at most 2 ^ 43 characters. -/
theorem fitsAlike_of_length {path : String} (h : path.length ≤ 2 ^ 43) : FitsAlike path := by
  intro next hnext t u t' u' ht hu ht' hu'
  have hfits := fits_of_length h next hnext
  exact iff_of_true (hfits t u ht hu) (hfits t' u' ht' hu')

end Counter

end Strongbox
