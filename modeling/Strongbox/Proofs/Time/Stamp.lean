import Mathlib.Algebra.Group.Nat.Defs
import Mathlib.Data.List.Induction
import Mathlib.Data.List.TakeWhile
import Strongbox.Clock
import Strongbox.Time.Stamp
import Strongbox.Proofs.Decimal.Digits
import Strongbox.Proofs.Time.Calendar

/-!
# Time stamps read back

An instant is read back from its time stamp, whatever its year, and with a leap second
where one may stand.  What is read from a time stamp has a leap second nowhere else.
-/

set_option autoImplicit false

namespace Strongbox.Time

/-- The instant has a date, and its nanoseconds count a leap second only behind the last
second of a minute. -/
def Instant.IsProper (t : Instant) : Prop :=
  t.isRepresentable = true ∧
    (t.nanos < 1000000000 ∨ (t.nanos < 2000000000 ∧ t.seconds % 60 = 59))

/-- The instant has a date, and its nanoseconds count at most one leap second, wherever it
stands. -/
structure Instant.IsValid (t : Instant) : Prop where
  isRepresentable : t.isRepresentable = true
  nanos_lt : t.nanos < 2000000000

/-- A proper instant is valid. -/
theorem Instant.IsProper.isValid {t : Instant} (h : t.IsProper) : t.IsValid := by
  obtain ⟨hdate, hnanos⟩ := h
  exact ⟨hdate, by omega⟩

/-! ## Digits -/

/-- The digits are the ten characters from 48 to 57. -/
theorem isDigit_iff (c : Char) : isDigit c = true ↔ 48 ≤ c.toNat ∧ c.toNat ≤ 57 := by
  unfold isDigit
  rw [Bool.and_eq_true, decide_eq_true_eq, decide_eq_true_eq]
  exact Iff.rfl

/-- No digit is white space. -/
theorem isBlank_of_isDigit {c : Char} (h : isDigit c = true) : Text.isBlank c = false := by
  have hbounds := (isDigit_iff c).1 h
  unfold Text.isBlank
  simp only [Bool.or_eq_false_iff, Bool.and_eq_false_iff, decide_eq_false_iff_not,
    beq_eq_false_iff_ne]
  omega

/-- A padded number consists of digits. -/
theorem isDigit_of_mem_padded {width n : Nat} {c : Char} (h : c ∈ padded width n) :
    isDigit c = true := by
  rcases List.mem_append.1 h with h | h
  · rw [List.eq_of_mem_replicate h]
    decide
  · exact (isDigit_iff c).2 (Decimal.toNat_of_mem_digitsOf h)

/-- A padded number is not empty. -/
theorem padded_ne_nil (width n : Nat) : padded width n ≠ [] :=
  List.append_ne_nil_of_right_ne_nil _ (Decimal.digitsOf_ne_nil n)

/-- Zeros in front change nothing. -/
theorem digitsValue_padded (width n : Nat) : digitsValue (padded width n) = n := by
  have hzeros : ∀ k : Nat,
      (List.replicate k '0').foldl (fun n c => n * 10 + (c.toNat - 48)) 0 = 0 := by
    intro k
    induction k with
    | zero => rfl
    | succ k ih =>
      rw [List.replicate_succ, List.foldl_cons]
      exact ih
  unfold digitsValue padded
  rw [List.foldl_append, hzeros]
  exact Decimal.foldl_digitsOf n

/-- A number below a power of ten fills its width. -/
theorem length_padded {width n : Nat} (hwidth : 0 < width) (h : n < 10 ^ width) :
    (padded width n).length = width := by
  have hle : (Decimal.digitsOf n).length ≤ width :=
    (Nat.length_toDigits_le_iff (by decide) hwidth).2 h
  unfold padded
  rw [List.length_append, List.length_replicate]
  omega

/-- What follows a number begins with no digit. -/
def EndsDigits (rest : List Char) : Prop := ∀ c ∈ rest.head?, isDigit c = false

/-- Digits end in front of any other character. -/
theorem endsDigits_cons {c : Char} {rest : List Char} (h : isDigit c = false) :
    EndsDigits (c :: rest) := by
  intro d hd
  rw [List.head?_cons, Option.mem_some_iff] at hd
  exact hd ▸ h

/-- The digits at the front are taken up to their end. -/
theorem takeWhile_digits {ds rest : List Char} (hds : ∀ c ∈ ds, isDigit c = true)
    (hrest : EndsDigits rest) : (ds ++ rest).takeWhile isDigit = ds := by
  rw [List.takeWhile_append_of_pos hds]
  cases rest with
  | nil => rw [List.takeWhile_nil, List.append_nil]
  | cons c rest =>
    rw [List.takeWhile_cons_of_neg (by rw [hrest c rfl]; decide), List.append_nil]

/-- A number that is as wide as it may be is read whatever follows it. -/
theorem readNumber_some {ds rest : List Char} {width : Nat}
    (hds : ∀ c ∈ ds, isDigit c = true) (hne : ds ≠ []) (hlength : ds.length = width) :
    readNumber (some width) (ds ++ rest) = some (digitsValue ds, rest) := by
  have htake : ((ds ++ rest).takeWhile isDigit).take width = ds := by
    rw [List.takeWhile_append_of_pos hds, List.take_left' hlength]
  unfold readNumber
  dsimp only
  rw [htake, if_neg (by rwa [List.isEmpty_iff]), List.drop_left]

/-- A number that is narrower than it may be is read up to the last of its digits. -/
theorem readNumber_of_ends {ds rest : List Char} {width : Option Nat}
    (hds : ∀ c ∈ ds, isDigit c = true) (hne : ds ≠ []) (hrest : EndsDigits rest)
    (hlength : ∀ w ∈ width, ds.length ≤ w) :
    readNumber width (ds ++ rest) = some (digitsValue ds, rest) := by
  unfold readNumber
  dsimp only
  rw [takeWhile_digits hds hrest]
  cases width with
  | none =>
    dsimp only
    rw [if_neg (by rwa [List.isEmpty_iff]), List.drop_left]
  | some w =>
    simp only [List.take_of_length_le (hlength w rfl)]
    rw [if_neg (by rwa [List.isEmpty_iff]), List.drop_left]

/-! ## The parts of a stamp -/

/-- No white space is skipped where there is none. -/
theorem skipBlanks_cons {c : Char} (h : Text.isBlank c = false) (cs : List Char) :
    skipBlanks (c :: cs) = c :: cs := by
  unfold skipBlanks
  rw [List.dropWhile_cons_of_neg (by rw [h]; decide)]

/-- No white space stands in front of a number. -/
theorem skipBlanks_padded (width n : Nat) (rest : List Char) :
    skipBlanks (padded width n ++ rest) = padded width n ++ rest := by
  cases hdigits : padded width n with
  | nil => exact absurd hdigits (padded_ne_nil width n)
  | cons c cs =>
    have hmem : c ∈ padded width n := by
      rw [hdigits]
      exact List.mem_cons_self
    have hc : isDigit c = true := isDigit_of_mem_padded hmem
    exact skipBlanks_cons (isBlank_of_isDigit hc) _

/-- A part of two digits is read as its number. -/
theorem readPart_padded {n : Nat} (h : n < 100) (rest : List Char) :
    readPart (padded 2 n ++ rest) = some (n, rest) := by
  unfold readPart
  rw [skipBlanks_padded, readNumber_some (fun c hc => isDigit_of_mem_padded hc)
    (padded_ne_nil 2 n) (length_padded (by decide) h), digitsValue_padded]

/-- A mark is read where it stands. -/
theorem readSeparator_cons {mark : Char} (h : Text.isBlank mark = false) (rest : List Char) :
    readSeparator mark (mark :: rest) = some rest := by
  unfold readSeparator
  rw [skipBlanks_cons h]
  dsimp only
  rw [if_pos rfl]

/-- The mark between date and time is read. -/
theorem readMark_t (rest : List Char) : readMark ('T' :: rest) = some rest := by
  unfold readMark
  dsimp only
  rw [if_pos (.inl rfl)]

/-- A year is read back in front of a hyphen. -/
theorem readYear_writeYear (year : Int) (rest : List Char) :
    readYear (writeYear year ++ '-' :: rest) = some (year, '-' :: rest) := by
  have hends : EndsDigits ('-' :: rest) := endsDigits_cons (by decide)
  have hdigits (n : Nat) : ∀ c ∈ padded 4 n, isDigit c = true :=
    fun c hc => isDigit_of_mem_padded hc
  unfold writeYear
  split
  · rename_i hyear
    have hlength : (padded 4 year.toNat).length = 4 := length_padded (by decide) (by omega)
    have hread : readNumber (some 4) (padded 4 year.toNat ++ '-' :: rest) =
        some (year.toNat, '-' :: rest) := by
      rw [readNumber_some (hdigits year.toNat) (padded_ne_nil 4 year.toNat) hlength,
        digitsValue_padded]
    unfold readYear
    rw [skipBlanks_padded]
    cases hcs : padded 4 year.toNat with
    | nil => exact absurd hcs (padded_ne_nil 4 year.toNat)
    | cons c cs =>
      have hc : isDigit c = true := hdigits year.toNat c (by rw [hcs]; exact List.mem_cons_self)
      rw [hcs] at hread
      split
      · rename_i hsign
        obtain ⟨rfl, -⟩ := List.cons.inj hsign
        exact absurd hc (by decide)
      · rename_i hsign
        obtain ⟨rfl, -⟩ := List.cons.inj hsign
        exact absurd hc (by decide)
      · have hsame : (year.toNat : Int) = year := by omega
        rw [hread]
        show some ((year.toNat : Int), _) = _
        rw [hsame]
  · rename_i hyear
    have hread : readNumber none (padded 4 year.natAbs ++ '-' :: rest) =
        some (year.natAbs, '-' :: rest) := by
      rw [readNumber_of_ends (hdigits year.natAbs) (padded_ne_nil 4 year.natAbs) hends (by simp),
        digitsValue_padded]
    split
    · have hsame : -(year.natAbs : Int) = year := by omega
      unfold readYear
      rw [List.cons_append, skipBlanks_cons (by decide)]
      show (readNumber none (padded 4 year.natAbs ++ '-' :: rest)).map _ = _
      rw [hread]
      show some (-(year.natAbs : Int), _) = _
      rw [hsame]
    · have hsame : (year.natAbs : Int) = year := by omega
      unfold readYear
      rw [List.cons_append, skipBlanks_cons (by decide)]
      show (readNumber none (padded 4 year.natAbs ++ '-' :: rest)).map _ = _
      rw [hread]
      show some ((year.natAbs : Int), _) = _
      rw [hsame]

/-- The digits of a fraction count as many nanoseconds as their places say. -/
theorem readFraction_padded {width n : Nat} (hwidth : 0 < width) (hle : width ≤ 9)
    (h : n < 10 ^ width) :
    readFraction ('.' :: padded width n ++ ['Z']) = some (n * 10 ^ (9 - width), ['Z']) := by
  have hlength := length_padded hwidth h
  have hread : readNumber (some 9) (padded width n ++ ['Z']) = some (n, ['Z']) := by
    rw [readNumber_of_ends (fun c hc => isDigit_of_mem_padded hc) (padded_ne_nil width n)
      (endsDigits_cons (by decide)) (by rintro w ⟨⟩; omega), digitsValue_padded]
  have hused : (padded width n ++ ['Z']).length - 1 = width := by
    rw [List.length_append, hlength, List.length_singleton, Nat.add_sub_cancel]
  show (readNumber (some 9) (padded width n ++ ['Z'])).bind _ = _
  rw [hread]
  show some (n * 10 ^ (9 - ((padded width n ++ ['Z']).length - 1)), ['Z']) = _
  rw [hused]

/-- The fraction of a second is read back. -/
theorem readFraction_writeFraction {nanos : Nat} (h : nanos < 1000000000) :
    readFraction (writeFraction nanos ++ ['Z']) = some (nanos, ['Z']) := by
  unfold writeFraction
  split
  · rename_i hzero
    rw [hzero]
    rfl
  split
  · have hsame : nanos / 1000000 * 10 ^ (9 - 3) = nanos := by omega
    rw [readFraction_padded (by decide) (by decide) (by omega), hsame]
  split
  · have hsame : nanos / 1000 * 10 ^ (9 - 6) = nanos := by omega
    rw [readFraction_padded (by decide) (by decide) (by omega), hsame]
  · rw [readFraction_padded (by decide) (by decide) h, Nat.sub_self, Nat.pow_zero, Nat.mul_one]

/-! ## Whole stamps -/

/-- Month and day of a valid date have two digits. -/
theorem Date.lt_of_isValid {d : Date} (h : d.isValid = true) : d.month < 100 ∧ d.day < 100 := by
  unfold Date.isValid at h
  simp only [Bool.and_eq_true, decide_eq_true_eq] at h
  obtain ⟨⟨⟨-, hmonth⟩, -⟩, hday⟩ := h
  have hlong : daysInMonth d.year d.month ≤ 31 := by
    unfold daysInMonth
    split
    · split <;> decide
    · split <;> decide
  omega

/-- The date of an instant that can be represented is valid. -/
theorem isDate_ofDays {t : Instant} (h : t.isRepresentable = true) :
    (Date.ofDays (t.seconds / 86400)).isValid = true := by
  unfold Instant.isRepresentable at h
  rw [Bool.and_eq_true, decide_eq_true_eq, decide_eq_true_eq] at h
  exact Date.isValid_ofDays h.1 h.2

/-- The date and time of an instant name that instant. -/
theorem ofLocal?_ofDays {t : Instant} (h : t.IsProper) :
    ofLocal? (Date.ofDays (t.seconds / 86400)) ((t.seconds % 86400).toNat / 3600)
      ((t.seconds % 86400).toNat / 60 % 60)
      ((t.seconds % 86400).toNat % 60 + t.nanos / 1000000000) (t.nanos % 1000000000) 0 =
        some t := by
  obtain ⟨hdate, hnanos⟩ := h
  have hsecond : (t.seconds % 86400).toNat % 60 + t.nanos / 1000000000 = 60 ↔
      t.nanos / 1000000000 = 1 := by
    omega
  have hsame : (⟨(Date.ofDays (t.seconds / 86400)).toDays * 86400 +
      (((t.seconds % 86400).toNat / 3600 : Nat) * 3600 +
        ((t.seconds % 86400).toNat / 60 % 60 : Nat) * 60 +
        ((t.seconds % 86400).toNat % 60 + t.nanos / 1000000000 -
          t.nanos / 1000000000 : Nat)) - 0,
      t.nanos % 1000000000 + t.nanos / 1000000000 * 1000000000⟩ : Instant) = t := by
    rw [Date.toDays_ofDays]
    obtain ⟨seconds, nanos⟩ := t
    dsimp only
    congr 1
    · omega
    · omega
  have hleap : (if (t.seconds % 86400).toNat % 60 + t.nanos / 1000000000 = 60 then 1 else 0) =
      t.nanos / 1000000000 := by
    split
    · exact (hsecond.1 ‹_›).symm
    · omega
  unfold ofLocal?
  rw [if_pos ⟨isDate_ofDays hdate, by omega, by omega, by omega, by decide⟩]
  dsimp only
  rw [hleap, hsame, if_pos hdate]

/-- A time stamp is read as the date and time that it shows. -/
theorem Instant.ofStamp?_eq {t : Instant} (h : t.IsValid) :
    ofStamp? t.stamp =
      ofLocal? (Date.ofDays (t.seconds / 86400)) ((t.seconds % 86400).toNat / 3600)
        ((t.seconds % 86400).toNat / 60 % 60)
        ((t.seconds % 86400).toNat % 60 + t.nanos / 1000000000) (t.nanos % 1000000000) 0 := by
  obtain ⟨hmonth, hday⟩ := Date.lt_of_isValid (isDate_ofDays h.isRepresentable)
  have hnanos := h.nanos_lt
  unfold ofStamp? stamp stampChars
  dsimp only
  rw [String.toList_ofList]
  simp only [List.append_assoc, List.cons_append]
  unfold readStampChars
  rw [readYear_writeYear]
  dsimp only [Option.bind_eq_bind, Option.bind_some]
  rw [readSeparator_cons (by decide)]
  dsimp only [Option.bind_some]
  rw [readPart_padded hmonth]
  dsimp only [Option.bind_some]
  rw [readSeparator_cons (by decide)]
  dsimp only [Option.bind_some]
  rw [readPart_padded hday]
  dsimp only [Option.bind_some]
  rw [readMark_t]
  dsimp only [Option.bind_some]
  rw [readPart_padded (by omega)]
  dsimp only [Option.bind_some]
  rw [readSeparator_cons (by decide)]
  dsimp only [Option.bind_some]
  rw [readPart_padded (by omega)]
  dsimp only [Option.bind_some]
  rw [readSeparator_cons (by decide)]
  dsimp only [Option.bind_some]
  rw [readPart_padded (by omega)]
  dsimp only [Option.bind_some]
  rw [readFraction_writeFraction (by omega)]
  rfl

/-- Every instant is read back from its time stamp. -/
theorem Instant.ofStamp?_stamp {t : Instant} (h : t.IsProper) : ofStamp? t.stamp = some t :=
  (ofStamp?_eq h.isValid).trans (ofLocal?_ofDays h)

/-- The instant that the time stamp of a valid one shows: a leap second within a minute shows as
the second that follows. -/
def Instant.shown (t : Instant) : Instant :=
  if 1000000000 ≤ t.nanos ∧ t.seconds % 60 ≠ 59 then ⟨t.seconds + 1, t.nanos - 1000000000⟩
  else t

/-- A proper instant is shown as it is. -/
theorem Instant.shown_eq {t : Instant} (h : t.IsProper) : t.shown = t := by
  obtain ⟨-, hnanos⟩ := h
  unfold shown
  rw [if_neg (by omega)]

/-- What is shown of a valid instant is a proper one. -/
theorem Instant.isProper_shown {t : Instant} (h : t.IsValid) : t.shown.IsProper := by
  have hdate := h.isRepresentable
  have hnanos := h.nanos_lt
  unfold shown
  split
  · -- The day stays the same, since the minute does.
    have hday : (t.seconds + 1) / 86400 = t.seconds / 86400 := by omega
    refine ⟨?_, .inl (by dsimp only; omega)⟩
    unfold isRepresentable at hdate ⊢
    dsimp only
    rw [hday]
    exact hdate
  · exact ⟨hdate, by omega⟩

/-- An instant and what is shown of it have one time stamp. -/
theorem Instant.stamp_shown (t : Instant) : t.shown.stamp = t.stamp := by
  unfold shown
  split
  · have hday : (t.seconds + 1) / 86400 = t.seconds / 86400 := by omega
    have hhour : ((t.seconds + 1) % 86400).toNat / 3600 = (t.seconds % 86400).toNat / 3600 := by
      omega
    have hminute : ((t.seconds + 1) % 86400).toNat / 60 % 60 =
        (t.seconds % 86400).toNat / 60 % 60 := by
      omega
    have hsecond : ((t.seconds + 1) % 86400).toNat % 60 + (t.nanos - 1000000000) / 1000000000 =
        (t.seconds % 86400).toNat % 60 + t.nanos / 1000000000 := by
      omega
    have hfraction : (t.nanos - 1000000000) % 1000000000 = t.nanos % 1000000000 := by omega
    unfold stamp stampChars
    dsimp only
    rw [hday, hhour, hminute, hsecond, hfraction]
  · rfl

/-- Some instant is read from every time stamp. -/
theorem Instant.exists_ofStamp? {t : Instant} (h : t.IsValid) :
    ∃ u, ofStamp? t.stamp = some u :=
  ⟨t.shown, by rw [← stamp_shown, ofStamp?_stamp (isProper_shown h)]⟩

/-! ## What is read -/

/-- Digits make a number below the power of ten of their count. -/
theorem digitsValue_lt {ds : List Char} (h : ∀ c ∈ ds, isDigit c = true) :
    digitsValue ds < 10 ^ ds.length := by
  unfold digitsValue
  induction ds using List.reverseRecOn with
  | nil => decide
  | append_singleton ds c ih =>
    have hfront := ih fun d hd => h d (List.mem_append_left _ hd)
    have hlast := (isDigit_iff c).1 (h c (List.mem_append_right _ List.mem_cons_self))
    rw [List.foldl_append, List.length_append, List.length_singleton, Nat.pow_succ]
    dsimp only [List.foldl_cons, List.foldl_nil]
    omega

/-- At most nine digits behind the point count less than a second. -/
theorem lt_of_readFraction {cs rest : List Char} {nanos : Nat}
    (h : readFraction cs = some (nanos, rest)) : nanos < 1000000000 := by
  unfold readFraction at h
  split at h
  · rename_i digits
    obtain ⟨⟨n, after⟩, hread, hrest⟩ := Option.bind_eq_some_iff.1 h
    injection hrest with hrest
    injection hrest with hnanos _
    unfold readNumber at hread
    dsimp only at hread
    split at hread
    · exact absurd hread (by simp)
    · injection hread with hread
      injection hread with hvalue hafter
      have hdigits : ∀ c ∈ (digits.takeWhile isDigit).take 9, isDigit c = true :=
        fun c hc => List.mem_takeWhile_imp (List.mem_of_mem_take hc)
      have hlt := digitsValue_lt hdigits
      have hshort : ((digits.takeWhile isDigit).take 9).length ≤ 9 := by
        rw [List.length_take]
        exact Nat.min_le_left _ _
      have hwithin : ((digits.takeWhile isDigit).take 9).length ≤ digits.length :=
        ((List.take_prefix _ _).trans (List.takeWhile_prefix _)).length_le
      have hused : digits.length - after.length = ((digits.takeWhile isDigit).take 9).length := by
        rw [← hafter, List.length_drop]
        omega
      rw [hvalue] at hlt
      rw [← hnanos, hused]
      calc n * 10 ^ (9 - ((digits.takeWhile isDigit).take 9).length)
          < 10 ^ ((digits.takeWhile isDigit).take 9).length *
              10 ^ (9 - ((digits.takeWhile isDigit).take 9).length) :=
            Nat.mul_lt_mul_of_pos_right hlt (Nat.pow_pos (by decide))
        _ = 1000000000 := by rw [← Nat.pow_add, Nat.add_sub_cancel' hshort]
  · injection h with h
    injection h with hzero _
    omega

/-- An offset is one of whole minutes. -/
theorem exists_of_readOffsetSize {cs rest : List Char} {n : Nat}
    (h : readOffsetSize cs = some (n, rest)) : ∃ minutes, n = minutes * 60 := by
  obtain ⟨⟨hours, after⟩, -, h⟩ := Option.bind_eq_some_iff.1 h
  obtain ⟨⟨minutes, last⟩, -, h⟩ := Option.bind_eq_some_iff.1 h
  dsimp only at h
  split at h
  · injection h with h
    injection h with hn _
    exact ⟨hours * 60 + minutes, by omega⟩
  · exact absurd h (by simp)

/-- An offset is a number of minutes. -/
theorem exists_of_readOffset {cs rest : List Char} {offset : Int}
    (h : readOffset cs = some (offset, rest)) : ∃ minutes, offset = minutes * 60 := by
  have hutc : ∀ {cs' : List Char}, some ((0 : Int), cs') = some (offset, rest) →
      ∃ minutes, offset = minutes * 60 := by
    intro cs' hsame
    injection hsame with hsame
    injection hsame with hzero _
    exact ⟨0, by omega⟩
  have hsigned : ∀ {cs' : List Char} (sign : Int),
      ((readOffsetSize cs').map fun x => (sign * x.1, x.2)) = some (offset, rest) →
        ∃ minutes, offset = minutes * 60 := by
    intro cs' sign hmap
    obtain ⟨⟨n, after⟩, hsize, hsame⟩ := Option.map_eq_some_iff.1 hmap
    obtain ⟨minutes, hn⟩ := exists_of_readOffsetSize hsize
    injection hsame with hoffset _
    exact ⟨sign * minutes, by rw [← hoffset, hn, Int.mul_assoc]; rfl⟩
  unfold readOffset at h
  split at h
  · exact hutc h
  · exact hutc h
  · exact hsigned 1 (by simpa using h)
  · exact hsigned (-1) (by simpa using h)
  · exact hsigned (-1) (by simpa using h)
  · split at h
    · exact hutc h
    · exact absurd h (by simp)
  · exact absurd h (by simp)

/-- A local time with a fraction below a second is a proper instant. -/
theorem isProper_of_ofLocal? {date : Date} {hour minute second nanos : Nat} {minutes : Int}
    {t : Instant} (hnanos : nanos < 1000000000)
    (h : ofLocal? date hour minute second nanos (minutes * 60) = some t) : t.IsProper := by
  unfold ofLocal? at h
  obtain ⟨hpart, h⟩ := Option.ite_none_right_eq_some.1 h
  dsimp only at h
  obtain ⟨hdate, h⟩ := Option.ite_none_right_eq_some.1 h
  injection h with h
  rw [← h]
  refine ⟨hdate, ?_⟩
  dsimp only
  split
  · exact .inr ⟨by omega, by omega⟩
  · exact .inl (by omega)

/-- What is read from a time stamp is a proper instant. -/
theorem Instant.isProper_of_ofStamp? {s : String} {t : Instant} (h : ofStamp? s = some t) :
    t.IsProper := by
  unfold ofStamp? readStampChars at h
  simp only [Option.bind_eq_bind, Option.bind_eq_some_iff] at h
  obtain ⟨⟨year, _⟩, -, _, -, ⟨month, _⟩, -, _, -, ⟨day, _⟩, -, _, -, ⟨hour, _⟩, -, _, -,
    ⟨minute, _⟩, -, _, -, ⟨second, _⟩, -, ⟨nanos, _⟩, hfraction, ⟨offset, _⟩, hoffset, h⟩ := h
  obtain ⟨minutes, rfl⟩ := exists_of_readOffset hoffset
  dsimp only at h
  split at h
  · exact isProper_of_ofLocal? (lt_of_readFraction hfraction) h
  · exact absurd h (by simp)

/-- The later of two proper instants is one of them. -/
theorem Instant.isProper_later {s t : Instant} (hs : s.IsProper) (ht : t.IsProper) :
    (later s t).IsProper := by
  unfold later
  split
  · exact ht
  · exact hs

/-- The epoch is a proper instant. -/
theorem Instant.isProper_epoch : epoch.IsProper := by
  refine ⟨?_, .inl (by decide)⟩
  unfold isRepresentable
  rw [Date.minDays_eq, Date.maxDays_eq]
  decide

/-- An instant of whole milliseconds is proper. -/
theorem Instant.isProper_of_millis {millis : Int} {t : Instant} (h : ofMillis? millis = some t) :
    t.IsProper := by
  unfold ofMillis? at h
  dsimp only at h
  split at h
  · rename_i hdate
    injection h with h
    rw [← h]
    exact ⟨hdate, .inl (by dsimp only; omega)⟩
  · exact absurd h (by simp)

end Strongbox.Time

namespace Strongbox

/-- Every reading of the clock is a proper instant. -/
def Clock.IsProper (c : Clock) : Prop := ∀ i, (c.readings i).IsProper

/-- Every reading of the clock is a valid instant. -/
def Clock.IsValid (c : Clock) : Prop := ∀ i, (c.readings i).IsValid

/-- A clock with proper readings has valid ones. -/
theorem Clock.IsProper.isValid {c : Clock} (h : c.IsProper) : c.IsValid := fun i => (h i).isValid

/-- The ticking clock reads proper instants only. -/
theorem Clock.isProper_ticking (start : Int) : (ticking start).IsProper := by
  intro i
  unfold ticking
  dsimp only
  cases h : Time.Instant.ofMillis? (wrap (start + i)) with
  | none => exact Time.Instant.isProper_epoch
  | some t => exact Time.Instant.isProper_of_millis h

/-- A scripted clock has proper readings if those of the script are. -/
theorem Clock.isProper_scripted {readings : List Time.Instant}
    (h : ∀ t ∈ readings, t.IsProper) : (scripted readings).IsProper := by
  intro i
  unfold scripted
  dsimp only
  rw [Array.getD_eq_getD_getElem?]
  cases hget : readings.toArray[min i (readings.toArray.size - 1)]? with
  | none => exact Time.Instant.isProper_epoch
  | some t =>
    apply h
    exact List.mem_of_getElem? (List.getElem?_toArray ▸ hget)

end Strongbox
