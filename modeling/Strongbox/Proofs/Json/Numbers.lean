import Mathlib.Data.List.Basic
import Mathlib.Data.List.TakeWhile
import Strongbox.Json.Parser
import Strongbox.Json.Printer
import Strongbox.Proofs.Decimal.Digits
import Strongbox.Proofs.Text.Utf8

/-!
# Numbers in a text

A number is read in the same way whatever follows it, as long as that cannot continue a
number.  So a number reads back in every text if it reads back alone, and the integers of
64 bits, signed or unsigned, all do.
-/

set_option autoImplicit false

namespace Strongbox.Json

/-- What may follow a value in a text without white space: nothing, a comma or a closing
bracket. -/
def Ends (rest : Bytes) : Prop := ∀ b ∈ rest.head?, b = 44 ∨ b = 93 ∨ b = 125

/-- A number ends in front of a comma or a closing bracket. -/
theorem ends_cons {b : UInt8} {rest : Bytes} (h : b = 44 ∨ b = 93 ∨ b = 125) :
    Ends (b :: rest) := by
  intro c hc
  rw [List.head?_cons, Option.mem_some_iff] at hc
  exact hc ▸ h

/-! ## What follows a number -/

section Follow

variable {rest : Bytes} (hrest : Ends rest)

include hrest

/-- The digits at the front are the same, whatever follows a number. -/
theorem takeWhile_isDigit_append (bs : Bytes) :
    (bs ++ rest).takeWhile isDigit = bs.takeWhile isDigit := by
  induction bs with
  | nil =>
    cases rest with
    | nil => rfl
    | cons b tail =>
      have hb : isDigit b = false := by
        rcases hrest b rfl with rfl | rfl | rfl <;> decide
      rw [List.nil_append, List.takeWhile_cons_of_neg (by rw [hb]; decide)]
      rfl
  | cons c bs ih =>
    rw [List.cons_append, List.takeWhile_cons, List.takeWhile_cons, ih]

/-- What follows them is the rest of the number and what stands behind it. -/
theorem dropWhile_isDigit_append (bs : Bytes) :
    (bs ++ rest).dropWhile isDigit = bs.dropWhile isDigit ++ rest := by
  induction bs with
  | nil =>
    cases rest with
    | nil => rfl
    | cons b tail =>
      have hb : isDigit b = false := by
        rcases hrest b rfl with rfl | rfl | rfl <;> decide
      rw [List.nil_append, List.dropWhile_cons_of_neg (by rw [hb]; decide)]
      rfl
  | cons c bs ih =>
    rw [List.cons_append, List.dropWhile_cons, List.dropWhile_cons, ih]
    split <;> rfl

omit hrest in
/-- A number is scaled the same, whatever follows. -/
theorem scaled_append {neg : Bool} {sig : Nat} {e : Int} {bs r : Bytes} {n : Number}
    (h : scaled neg sig e bs = .ok (n, r)) :
    scaled neg sig e (bs ++ rest) = .ok (n, r ++ rest) := by
  unfold scaled at h ⊢
  cases hscale : scale (UInt64.ofNat sig).toFloat e with
  | none =>
    rw [hscale] at h
    exact absurd h (by simp [halt])
  | some x =>
    rw [hscale] at h
    injection h with h
    injection h with hn hr
    show Except.ok (signed neg x, bs ++ rest) = .ok (n, r ++ rest)
    rw [hn, hr]

omit hrest in
/-- The digits of an exponent with more octets behind. -/
def ExponentDigits.append (more : Bytes) : ExponentDigits → ExponentDigits
  | .value n bs => .value n (bs ++ more)
  | .huge bs => .huge (bs ++ more)

/-- The digits of an exponent are read the same, whatever follows. -/
theorem exponentDigits_append (n : Nat) (bs : Bytes) :
    exponentDigits n (bs ++ rest) = (exponentDigits n bs).append rest := by
  induction bs generalizing n with
  | nil =>
    cases rest with
    | nil => rfl
    | cons b tail =>
      have hb : isDigit b = false := by
        rcases hrest b rfl with rfl | rfl | rfl <;> decide
      unfold exponentDigits
      dsimp only [List.nil_append]
      rw [hb, if_neg Bool.false_ne_true]
      rfl
  | cons c bs ih =>
    rw [List.cons_append]
    unfold exponentDigits
    dsimp only
    split
    · split
      · exact ih _
      · rfl
    · rfl

omit hrest in
/-- The sign of an exponent is read the same, whatever follows. -/
theorem exponentSign_cons (b : UInt8) (bs : Bytes) :
    exponentSign (b :: bs ++ rest) =
      ((exponentSign (b :: bs)).1, (exponentSign (b :: bs)).2 ++ rest) := by
  by_cases hplus : b = 43
  · subst hplus
    rfl
  · by_cases hminus : b = 45
    · subst hminus
      rfl
    · have hother (tail : Bytes) : exponentSign (b :: tail) = (false, b :: tail) := by
        unfold exponentSign
        split
        · rename_i h
          exact absurd (List.cons.inj h).1 hplus
        · rename_i h
          exact absurd (List.cons.inj h).1 hminus
        · rfl
      rw [List.cons_append, hother, hother]
      rfl

/-- An exponent is read the same, whatever follows. -/
theorem exponentTail_append {neg : Bool} {sig : Nat} {e : Int} {bs r : Bytes} {n : Number}
    (h : exponentTail neg sig e bs = .ok (n, r)) :
    exponentTail neg sig e (bs ++ rest) = .ok (n, r ++ rest) := by
  cases bs with
  | nil => exact absurd h (by simp [exponentTail, exponentSign, halt])
  | cons b bs =>
    unfold exponentTail at h ⊢
    rw [exponentSign_cons]
    generalize exponentSign (b :: bs) = s at h ⊢
    obtain ⟨down, tail⟩ := s
    dsimp only at h ⊢
    cases tail with
    | nil => exact absurd h (by simp [halt])
    | cons c tail =>
      rw [List.cons_append]
      dsimp only at h ⊢
      split at h
      · exact absurd h (by simp [halt])
      · rename_i hdigit
        rw [if_neg hdigit, exponentDigits_append hrest]
        cases hdigits : exponentDigits (digitValue c) tail with
        | value m after =>
          rw [hdigits] at h
          exact scaled_append h
        | huge after =>
          rw [hdigits] at h
          dsimp only at h
          show (if _ then _ else _) = _
          split at h
          · exact absurd h (by simp [halt])
          · rename_i hsmall
            rw [if_neg hsmall, dropWhile_isDigit_append hrest]
            injection h with h
            injection h with hn hr
            rw [hn, hr]

/-- What may follow a value begins no exponent. -/
theorem isExponentLetter_of_ends {b : UInt8} {tail : Bytes} (h : rest = b :: tail) :
    isExponentLetter b = false := by
  rcases hrest b (by rw [h]; rfl) with rfl | rfl | rfl <;> decide

/-- A fraction is completed the same, whatever follows. -/
theorem fractionEnd_append {neg : Bool} {sig : Nat} {e : Int} {bs r : Bytes} {n : Number}
    (h : fractionEnd neg sig e bs = .ok (n, r)) :
    fractionEnd neg sig e (bs ++ rest) = .ok (n, r ++ rest) := by
  cases bs with
  | nil =>
    have hscaled : scaled neg sig e ([] ++ rest) = .ok (n, r ++ rest) := scaled_append h
    cases hr : rest with
    | nil => rw [hr] at hscaled; exact hscaled
    | cons b tail =>
      rw [List.nil_append, fractionEnd, isExponentLetter_of_ends hrest hr,
        if_neg Bool.false_ne_true, ← hr]
      exact hscaled
  | cons b bs =>
    rw [List.cons_append]
    unfold fractionEnd at h ⊢
    dsimp only at h ⊢
    split at h
    · rename_i hletter
      rw [if_pos hletter]
      exact exponentTail_append hrest h
    · rename_i hletter
      rw [if_neg hletter]
      exact scaled_append h

/-- A fraction is read the same, whatever follows. -/
theorem fractionTail_append {neg : Bool} {sig : Nat} {e : Int} {bs r : Bytes} {n : Number}
    (h : fractionTail neg sig e bs = .ok (n, r)) :
    fractionTail neg sig e (bs ++ rest) = .ok (n, r ++ rest) := by
  unfold fractionTail at h ⊢
  dsimp only at h ⊢
  rw [takeWhile_isDigit_append hrest, dropWhile_isDigit_append hrest]
  split at h
  · split at h <;> exact absurd h (by simp [halt])
  · rename_i hdigits
    rw [if_neg hdigits]
    exact fractionEnd_append hrest h

/-- An integer is completed the same, whatever follows. -/
theorem integerEnd_append {neg : Bool} {digits bs r : Bytes} {n : Number}
    (h : integerEnd neg digits bs = .ok (n, r)) :
    integerEnd neg digits (bs ++ rest) = .ok (n, r ++ rest) := by
  unfold integerEnd at h ⊢
  generalize accumulate 0 digits = acc at h ⊢
  obtain ⟨sig, left⟩ := acc
  cases bs with
  | nil =>
    dsimp only [List.nil_append] at h ⊢
    -- The number ends where the text did, and what follows cannot continue it.
    have hend : (if left = 0 then Except.ok (wholeNumber neg sig, rest)
        else scaled neg sig left rest) = .ok (n, r ++ rest) := by
      split at h
      · injection h with h
        injection h with hn hr
        rw [if_pos ‹_›, hn, ← hr]
        rfl
      · rw [if_neg ‹_›]
        exact scaled_append h
    cases hr : rest with
    | nil => rw [hr] at hend; exact hend
    | cons b tail =>
      have hpoint : b ≠ 46 := by
        rcases hrest b (by rw [hr]; rfl) with rfl | rfl | rfl <;> decide
      dsimp only
      rw [if_neg hpoint, isExponentLetter_of_ends hrest hr, if_neg Bool.false_ne_true, ← hr]
      exact hend
  | cons b bs =>
    rw [List.cons_append]
    dsimp only at h ⊢
    split at h
    · rw [if_pos ‹_›]
      exact fractionTail_append hrest h
    · rw [if_neg ‹_›]
      split at h
      · rw [if_pos ‹_›]
        exact exponentTail_append hrest h
      · rw [if_neg ‹_›]
        split at h
        · rw [if_pos ‹_›]
          injection h with h
          injection h with hn hr
          rw [hn, ← hr]
          rfl
        · rw [if_neg ‹_›]
          exact scaled_append h

/-- A number is read in the same way whatever follows it. -/
theorem number_append {neg : Bool} {bs r : Bytes} {n : Number} (h : number neg bs = .ok (n, r)) :
    number neg (bs ++ rest) = .ok (n, r ++ rest) := by
  cases bs with
  | nil => exact absurd h (by simp [number, halt])
  | cons b bs =>
    rw [List.cons_append]
    unfold number at h ⊢
    dsimp only at h ⊢
    split at h
    · rw [if_pos ‹_›]
      cases bs with
      | nil =>
        have hend : integerEnd neg [b] ([] ++ rest) = .ok (n, r ++ rest) :=
          integerEnd_append hrest h
        cases hr : rest with
        | nil => rw [hr] at hend; exact hend
        | cons c tail =>
          have hc : isDigit c = false := by
            rcases hrest c (by rw [hr]; rfl) with rfl | rfl | rfl <;> decide
          dsimp only [List.nil_append]
          rw [hc, if_neg Bool.false_ne_true, ← hr]
          exact hend
      | cons c bs =>
        rw [List.cons_append]
        dsimp only at h ⊢
        split at h
        · exact absurd h (by simp [halt])
        · rw [if_neg ‹_›]
          exact integerEnd_append hrest h
    · rw [if_neg ‹_›]
      split at h
      · rw [if_pos ‹_›, takeWhile_isDigit_append hrest, dropWhile_isDigit_append hrest]
        exact integerEnd_append hrest h
      · exact absurd h (by simp [halt])

end Follow

/-! ## Numbers that read back -/

/-- The number's text is read as that number again. -/
def Number.ReadsBack (n : Number) : Prop :=
  value 0 (Value.number n).toBytes = .ok (.number n, [])

/-- Reading skips white space only in front. -/
theorem skipBlanks_append {bs tail : Bytes} {b : UInt8} (rest : Bytes)
    (h : skipBlanks bs = b :: tail) : skipBlanks (bs ++ rest) = b :: (tail ++ rest) := by
  induction bs with
  | nil => exact absurd h (by simp [skipBlanks])
  | cons c bs ih =>
    unfold skipBlanks at h ih ⊢
    rw [List.cons_append, List.dropWhile_cons] at *
    split at h
    · rw [if_pos ‹_›]
      exact ih h
    · rw [if_neg ‹_›]
      rw [List.cons.injEq] at h
      rw [h.1, h.2]

/-- A number that reads back alone reads back in front of whatever ends a value, however
deep it stands. -/
theorem value_number {n : Number} (h : n.ReadsBack) {rest : Bytes} (hrest : Ends rest)
    (levels : Nat) : value levels ((Value.number n).toBytes ++ rest) = .ok (.number n, rest) := by
  unfold Number.ReadsBack value at h
  cases hskip : skipBlanks (Value.number n).toBytes with
  | nil =>
    rw [hskip] at h
    exact absurd h (by simp [halt])
  | cons b tail =>
    rw [hskip] at h
    unfold value
    rw [skipBlanks_append rest hskip]
    dsimp only at h ⊢
    have hother {α : Type} {r : Except Fault α} {f : α → Value × Bytes}
        (hf : ∀ a, (f a).1 ≠ .number n) : r.map f ≠ .ok (.number n, []) := by
      intro hr
      cases r with
      | error e => exact absurd hr (by simp [Except.map])
      | ok a =>
        injection hr with hr
        exact hf a (by rw [hr])
    have hnumber {neg : Bool} {bs : Bytes}
        (hr : (number neg bs).map (fun x => (Value.number x.1, x.2)) = .ok (.number n, [])) :
        (number neg (bs ++ rest)).map (fun x => (Value.number x.1, x.2)) =
          .ok (.number n, rest) := by
      cases hread : number neg bs with
      | error e =>
        rw [hread] at hr
        exact absurd hr (by simp [Except.map])
      | ok x =>
        rw [hread] at hr
        injection hr with hr
        injection hr with hn hrest'
        injection hn with hn
        rw [number_append hrest (n := n) (r := []) (by rw [hread, ← hn, ← hrest'])]
        rfl
    -- The first octet decides: a number begins with a minus or a digit.
    split at h
    · exact absurd h (hother fun a => by simp)
    rw [if_neg ‹_›]
    split at h
    · exact absurd h (hother fun a => by simp)
    rw [if_neg ‹_›]
    split at h
    · exact absurd h (hother fun a => by simp)
    rw [if_neg ‹_›]
    split at h
    · rw [if_pos ‹_›]
      exact hnumber h
    rw [if_neg ‹_›]
    split at h
    · rw [if_pos ‹_›]
      exact hnumber h
    split at h
    · exact absurd h (hother fun a => by simp)
    split at h
    · exact absurd h (by simp [halt])
    split at h
    · exact absurd h (by simp [halt])
    · exact absurd h (by simp [halt])

/-! ## Integers -/

/-- The digits of a number as octets. -/
def digitOctets (n : Nat) : Bytes :=
  (Decimal.digitsOf n).map fun c => UInt8.ofNat c.toNat

/-- The digits of a number are encoded as one octet each. -/
theorem encodeChars_digitsOf (n : Nat) : Utf8.encodeChars (Decimal.digitsOf n) = digitOctets n := by
  refine Utf8.encodeChars_of_ascii fun c hc => ?_
  have hbounds := Decimal.toNat_of_mem_digitsOf hc
  omega

/-- Each of these octets is a digit. -/
theorem isDigit_of_mem_digitOctets {n : Nat} {b : UInt8} (h : b ∈ digitOctets n) :
    isDigit b = true := by
  obtain ⟨c, hc, rfl⟩ := List.mem_map.1 h
  have hbounds := Decimal.toNat_of_mem_digitsOf hc
  unfold isDigit
  simp only [Bool.and_eq_true, decide_eq_true_eq, UInt8.le_iff_toNat_le,
    Utf8.toNat_octet (show c.toNat < 256 by omega)]
  exact hbounds

/-- Further digits make a number no smaller. -/
theorem le_foldl_digitValue (sig : Nat) (ds : Bytes) :
    sig ≤ ds.foldl (fun m d => m * 10 + digitValue d) sig := by
  induction ds generalizing sig with
  | nil => exact Nat.le_refl sig
  | cons d ds ih =>
    have hstep : sig ≤ sig * 10 + digitValue d := by omega
    exact Nat.le_trans hstep (ih _)

/-- No digit of a number that fits a word is left over. -/
theorem accumulate_eq {sig : Nat} {ds : Bytes}
    (h : ds.foldl (fun m d => m * 10 + digitValue d) sig ≤ maxWord) :
    accumulate sig ds = (ds.foldl (fun m d => m * 10 + digitValue d) sig, 0) := by
  induction ds generalizing sig with
  | nil => rfl
  | cons d ds ih =>
    have hnext : sig * 10 + digitValue d ≤ maxWord := Nat.le_trans (le_foldl_digitValue _ ds) h
    unfold accumulate
    dsimp only
    rw [if_pos hnext, ih h]
    rfl

/-- The number that the digits stand for is the one that was written. -/
theorem foldl_digitOctets (n : Nat) :
    (digitOctets n).foldl (fun m d => m * 10 + digitValue d) 0 = n := by
  unfold digitOctets
  rw [List.foldl_map]
  refine Eq.trans (List.foldl_ext _ _ 0 fun m c hc => ?_) (Decimal.foldl_digitsOf n)
  have hbounds := Decimal.toNat_of_mem_digitsOf hc
  show m * 10 + ((UInt8.ofNat c.toNat).toNat - 48) = _
  rw [Utf8.toNat_octet (by omega)]

/-- A number begins with a digit, which is no zero if the number is none. -/
theorem exists_digitOctets (n : Nat) :
    ∃ b bs, digitOctets n = b :: bs ∧ isDigit b = true ∧ (0 < n → b ≠ 48) := by
  cases hdigits : Decimal.digitsOf n with
  | nil => exact absurd hdigits (Decimal.digitsOf_ne_nil n)
  | cons c cs =>
    have hoctets : digitOctets n = UInt8.ofNat c.toNat :: cs.map fun c => UInt8.ofNat c.toNat := by
      unfold digitOctets
      rw [hdigits, List.map_cons]
    refine ⟨_, _, hoctets, isDigit_of_mem_digitOctets (n := n) ?_, ?_⟩
    · rw [hoctets]
      exact List.mem_cons_self
    · intro hpos hzero
      have hbounds := Decimal.toNat_of_mem_digitsOf (n := n) (c := c)
        (by rw [hdigits]; exact List.mem_cons_self)
      have hchar : c.toNat = 48 := by
        rw [← Utf8.toNat_octet (show c.toNat < 256 by omega), hzero]
        rfl
      have hhead := Decimal.head?_digitsOf_ne hpos
      rw [hdigits, List.head?_cons] at hhead
      refine hhead (congrArg some ?_)
      rw [← Char.ofNat_toNat c, hchar]

/-- The digits of a number that fits a word are read as that number. -/
theorem number_digitOctets (neg : Bool) {n : Nat} (h : n ≤ maxWord) :
    number neg (digitOctets n) = .ok (wholeNumber neg n, []) := by
  obtain ⟨b, bs, hoctets, hb, hlead⟩ := exists_digitOctets n
  have hfold := foldl_digitOctets n
  have hacc : accumulate 0 (digitOctets n) = (n, 0) := by
    rw [accumulate_eq (by rw [hfold]; exact h), hfold]
  have hall : ∀ d ∈ digitOctets n, isDigit d = true := fun d hd => isDigit_of_mem_digitOctets hd
  have hend : integerEnd neg (digitOctets n) [] = .ok (wholeNumber neg n, []) := by
    unfold integerEnd
    rw [hacc]
    rfl
  rcases Nat.eq_zero_or_pos n with rfl | hpos
  · exact hend
  · rw [hoctets] at hall hend ⊢
    unfold number
    dsimp only
    have hbs : ∀ d ∈ bs, isDigit d = true := fun d hd => hall d (List.mem_cons_of_mem b hd)
    rw [if_neg (hlead hpos), if_pos hb, List.takeWhile_eq_self_iff.2 hbs,
      List.dropWhile_eq_nil_iff.2 hbs]
    exact hend

/-- No white space is skipped where there is none. -/
theorem skipBlanks_cons {b : UInt8} {bs : Bytes} (h : isBlank b = false) :
    skipBlanks (b :: bs) = b :: bs := by
  unfold skipBlanks
  rw [List.dropWhile_cons_of_neg (by rw [h]; decide)]

/-- A text that begins with a digit is read as a number. -/
theorem value_of_isDigit {b : UInt8} (h : isDigit b = true) (levels : Nat) (bs : Bytes) :
    value levels (b :: bs) = (number false (b :: bs)).map fun x => (.number x.1, x.2) := by
  have hne (c : UInt8) (hc : isDigit c = false) : b ≠ c := by
    rintro rfl
    rw [h] at hc
    exact absurd hc (by decide)
  have hblank : isBlank b = false := by
    unfold isBlank
    simp only [Bool.or_eq_false_iff, beq_eq_false_iff_ne]
    exact ⟨⟨⟨hne _ (by decide), hne _ (by decide)⟩, hne _ (by decide)⟩, hne _ (by decide)⟩
  unfold value
  rw [skipBlanks_cons hblank]
  dsimp only
  rw [if_neg (hne _ (by decide)), if_neg (hne _ (by decide)), if_neg (hne _ (by decide)),
    if_neg (hne _ (by decide)), if_pos h]

/-- The integers of 64 bits, signed or unsigned, read back. -/
theorem readsBack_integer {n : Int} (hlow : -9223372036854775808 ≤ n)
    (hhigh : n < 18446744073709551616) : (Number.integer n).ReadsBack := by
  have hword : n.natAbs ≤ maxWord := by
    unfold maxWord
    omega
  unfold Number.ReadsBack Value.toBytes Value.text Number.text Decimal.digitsOfInt
  dsimp only
  split
  · rename_i hneg
    have hbytes : Utf8.encodeChars ('-' :: Decimal.digitsOf n.natAbs) =
        45 :: digitOctets n.natAbs := by
      rw [Utf8.encodeChars_cons, encodeChars_digitsOf]
      rfl
    have hwhole : wholeNumber true n.natAbs = .integer n := by
      unfold wholeNumber
      rw [if_neg (by decide), if_pos (by omega)]
      congr 1
      omega
    rw [hbytes]
    show (number true (digitOctets n.natAbs)).map _ = _
    rw [number_digitOctets true hword, hwhole]
    rfl
  · rename_i hpos
    obtain ⟨b, bs, hoctets, hb, -⟩ := exists_digitOctets n.toNat
    have hwhole : wholeNumber false n.toNat = .integer n := by
      unfold wholeNumber
      rw [if_pos (by decide)]
      congr 1
      omega
    rw [encodeChars_digitsOf, hoctets, value_of_isDigit hb, ← hoctets,
      number_digitOctets false (by omega), hwhole]
    rfl

end Strongbox.Json
