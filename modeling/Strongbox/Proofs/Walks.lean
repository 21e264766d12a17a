import Strongbox.Proofs.OrderedMap

/-!
# Walks over keys that are not text

A log directory may hold keys that other programs wrote and that are no text.  A walk decodes a
key before it looks whether the key still belongs to its range, so that such a key can fail the
read of a range it does not belong to.  It fails a walk if the walk comes to it: if nothing that
stands before it in the order of the walk has ended the walk.  A walk that comes to no such key
answers as if there were none.  The main statement is `LogDirectory.walks_fail_iff`.
-/

set_option autoImplicit false

namespace Strongbox

namespace LogDirectory

/-! ## Raw keys and text -/

/-- Whether a raw key is text. -/
def isText (raw : Bytes) : Bool := (Utf8.decode raw).isOk

/-- The log directory without the keys that are not text. -/
def textOnly (d : LogDirectory) : LogDirectory :=
  { d with
    entries := ⟨d.entries.entries.filter fun b => isText b.1, d.entries.ascending.filter _⟩ }

/-- The raw keys in ascending order. -/
def rawKeys (d : LogDirectory) : List Bytes := d.entries.entries.map (·.1)

/-- The keys that are text, in ascending order. -/
def textKeys (d : LogDirectory) : List String := (legible d.entries.entries).map (·.1)

/-- A key that cannot be shown is reported as invalid. -/
theorem kind_of_meet {b : Bytes × Bytes} {e : StorageError} (h : meet b = .error e) :
    e.kind = .invalidKey := by
  unfold meet at h
  split at h
  · simp at h
  · injection h with h
    rw [← h]

/-- A key that is no text cannot be shown. -/
theorem meet_of_not_isText {b : Bytes × Bytes} (h : isText b.1 = false) :
    ∃ e, meet b = .error e := by
  cases hkey : Utf8.decode b.1 with
  | ok key => simp [isText, hkey, Except.isOk, Except.toBool] at h
  | error fault => exact ⟨⟨.invalidKey, "", some fault.message⟩, by simp [meet, hkey]⟩

/-- A key that is text can. -/
theorem meet_of_isText {b : Bytes × Bytes} (h : isText b.1 = true) : ∃ e, meet b = .ok e := by
  cases hkey : Utf8.decode b.1 with
  | ok key => exact ⟨(key, b.2), by simp [meet, hkey]⟩
  | error fault => simp [isText, hkey, Except.isOk, Except.toBool] at h

/-- The octets of a text are text. -/
theorem isText_encode (key : String) : isText (Utf8.encode key) = true := by
  simp [isText, Utf8.decode_encode, Except.isOk, Except.toBool]

/-- What is no text is left out of what is legible. -/
theorem legible_cons_of_not_isText {b : Bytes × Bytes} {bs : List (Bytes × Bytes)}
    (h : isText b.1 = false) : legible (b :: bs) = legible bs := by
  obtain ⟨e, hmeet⟩ := meet_of_not_isText h
  simp [legible, hmeet, Except.toOption]

variable {stem : String} {after : Option String} {limit taken : Nat} {bs : List (Bytes × Bytes)}

/-! ## Upwards -/

/-- A page that already holds `taken` entries and is read from an ascending list comes to the
raw key `u`, which is no text. -/
structure ClimbsTo (stem : String) (after : Option String) (limit taken : Nat)
    (bs : List (Bytes × Bytes)) (u : Bytes) : Prop where
  mem : u ∈ bs.map (·.1)
  not_isText : isText u = false
  begins : ∀ e ∈ legible bs, Utf8.encode e.1 < u → Range.begins stem e.1 = true
  hasRoom : limit = 0 ∨
    taken + ((legible bs).filter fun e => Utf8.encode e.1 < u && !isSeen after e.1).length < limit

/-- A page comes to a key that is no text and stands first, unless it is full. -/
theorem climbsTo_head {b : Bytes × Bytes} (hbs : (b :: bs).Pairwise fun a b => a.1 < b.1)
    (hb : isText b.1 = false) (hroom : ¬ (limit ≠ 0 ∧ limit ≤ taken)) :
    ClimbsTo stem after limit taken (b :: bs) b.1 := by
  have habove : ∀ e ∈ legible (b :: bs), ¬ Utf8.encode e.1 < b.1 := by
    intro e he
    rw [legible_cons_of_not_isText hb] at he
    exact Std.not_gt_of_lt ((List.pairwise_cons.1 hbs).1 _ (mem_legible.1 he))
  refine ⟨by simp, hb, fun e he hlt => absurd hlt (habove e he), ?_⟩
  have hnone : ((legible (b :: bs)).filter
      fun e => Utf8.encode e.1 < b.1 && !isSeen after e.1) = [] := by
    rw [List.filter_eq_nil_iff]
    intro e he
    simp [habove e he]
  rw [hnone, List.length_nil]
  omega

/-- A page comes to a key behind an entry of the range exactly if it does so after it has dealt
with that entry. -/
theorem climbsTo_cons {b : Bytes × Bytes} {key : String} {value u : Bytes}
    (hbs : (b :: bs).Pairwise fun a b => a.1 < b.1) (hmeet : meet b = .ok (key, value)) :
    ClimbsTo stem after limit taken (b :: bs) u ↔
      Range.begins stem key = true ∧
        ClimbsTo stem after limit (if isSeen after key then taken else taken + 1) bs u := by
  have hb : b.1 = Utf8.encode key := by rw [meet_iff.1 hmeet]
  have hmem : isText u = false → (u ∈ (b :: bs).map (·.1) ↔ u ∈ bs.map (·.1)) := by
    intro hu
    have hne : u ≠ b.1 := by
      rintro rfl
      simp [hb, isText_encode] at hu
    simp [hne]
  have hlt : u ∈ bs.map (·.1) → Utf8.encode key < u := by
    intro hu
    obtain ⟨c, hc, rfl⟩ := List.mem_map.1 hu
    rw [← hb]
    exact (List.pairwise_cons.1 hbs).1 c hc
  -- The entry of `b` takes room on the page unless it was seen before.
  have hcount : u ∈ bs.map (·.1) →
      taken + ((legible (b :: bs)).filter
        fun e => Utf8.encode e.1 < u && !isSeen after e.1).length =
      (if isSeen after key then taken else taken + 1) + ((legible bs).filter
        fun e => Utf8.encode e.1 < u && !isSeen after e.1).length := by
    intro hu
    rw [legible_cons_of_ok hmeet]
    cases hseen : isSeen after key with
    | true => simp [hseen]
    | false =>
      simp only [List.filter_cons, hlt hu, hseen]
      simp
      omega
  constructor
  · intro h
    have hu := (hmem h.not_isText).1 h.mem
    have hbegins := h.begins
    have hroom := h.hasRoom
    rw [hcount hu] at hroom
    simp only [legible_cons_of_ok hmeet, List.forall_mem_cons] at hbegins
    exact ⟨hbegins.1 (hlt hu), hu, h.not_isText, hbegins.2, hroom⟩
  · rintro ⟨hkey, h⟩
    refine ⟨(hmem h.not_isText).2 h.mem, h.not_isText, ?_, ?_⟩
    · rw [legible_cons_of_ok hmeet, List.forall_mem_cons]
      exact ⟨fun _ => hkey, h.begins⟩
    · rw [hcount h.mem]
      exact h.hasRoom

/-- A page fails only at an invalid key. -/
theorem kind_of_page {e : StorageError} (h : page stem after limit taken bs = .error e) :
    e.kind = .invalidKey := by
  induction bs generalizing taken with
  | nil => simp [page] at h
  | cons b bs ih =>
    unfold page at h
    split at h
    · simp at h
    · cases hmeet : meet b with
      | error fault =>
        simp only [hmeet] at h
        injection h with h
        rw [← h]
        exact kind_of_meet hmeet
      | ok d =>
        simp only [hmeet] at h
        split_ifs at h with hbegins hseen
        · exact ih h
        · split at h
          · rename_i fault hpage
            injection h with h
            exact ih (h ▸ hpage)
          · simp at h

/-- A page fails exactly if it comes to a key that is no text. -/
theorem page_fails_iff (hbs : bs.Pairwise fun a b => a.1 < b.1) :
    (∃ e, page stem after limit taken bs = .error e) ↔
      ∃ u, ClimbsTo stem after limit taken bs u := by
  induction bs generalizing taken with
  | nil =>
    constructor
    · rintro ⟨e, he⟩
      simp [page] at he
    · rintro ⟨u, hu⟩
      exact absurd hu.mem List.not_mem_nil
  | cons b bs ih =>
    have hbehind := (List.pairwise_cons.1 hbs).2
    unfold page
    by_cases hfull : limit ≠ 0 ∧ limit ≤ taken
    · rw [if_pos hfull]
      constructor
      · rintro ⟨e, he⟩
        simp at he
      · rintro ⟨u, hu⟩
        have hroom := hu.hasRoom
        omega
    · rw [if_neg hfull]
      cases htext : isText b.1 with
      | false =>
        obtain ⟨e, hmeet⟩ := meet_of_not_isText htext
        simp only [hmeet]
        exact iff_of_true ⟨e, rfl⟩ ⟨_, climbsTo_head hbs htext hfull⟩
      | true =>
        obtain ⟨⟨key, value⟩, hmeet⟩ := meet_of_isText htext
        simp only [hmeet, climbsTo_cons hbs hmeet]
        cases hbegins : Range.begins stem key with
        | false => simp
        | true =>
          cases hseen : isSeen after key with
          | true =>
            have hrest := @ih taken hbehind
            simpa using hrest
          | false =>
            have hrest := @ih (taken + 1) hbehind
            cases hpage : page stem after limit (taken + 1) bs with
            | error e =>
              rw [hpage] at hrest
              simpa using hrest
            | ok rest =>
              rw [hpage] at hrest
              simpa using hrest

/-- A full page takes nothing more. -/
theorem page_of_full (hfull : limit ≠ 0 ∧ limit ≤ taken) :
    page stem after limit taken bs = .ok [] := by
  cases bs with
  | nil => rfl
  | cons b bs => simp [page, hfull]

/-- A page that is answered holds what it would hold without the keys that are no text. -/
theorem page_filter_isText {es : List Entry} (h : page stem after limit taken bs = .ok es) :
    page stem after limit taken (bs.filter fun b => isText b.1) = .ok es := by
  induction bs generalizing taken es with
  | nil => exact h
  | cons b bs ih =>
    by_cases hfull : limit ≠ 0 ∧ limit ≤ taken
    · rw [page_of_full hfull] at h ⊢
      exact h
    · cases htext : isText b.1 with
      | false =>
        obtain ⟨e, hmeet⟩ := meet_of_not_isText htext
        simp [page, hfull, hmeet] at h
      | true =>
        obtain ⟨⟨key, value⟩, hmeet⟩ := meet_of_isText htext
        rw [List.filter_cons_of_pos (by simpa using htext)]
        unfold page at h ⊢
        rw [if_neg hfull] at h ⊢
        simp only [hmeet] at h ⊢
        cases hbegins : Range.begins stem key with
        | false => simpa [hbegins] using h
        | true =>
          cases hseen : isSeen after key with
          | true =>
            simp only [hbegins, hseen, Bool.not_true, Bool.false_eq_true, if_false,
              if_true] at h ⊢
            exact ih h
          | false =>
            simp only [hbegins, hseen, Bool.not_true, Bool.false_eq_true, if_false] at h ⊢
            cases hpage : page stem after limit (taken + 1) bs with
            | error e => simp [hpage] at h
            | ok rest =>
              rw [hpage] at h
              rw [ih hpage]
              exact h

/-! ## Downwards -/

/-- A walk down a descending list in search of the range comes to the raw key `u`, which is no
text. -/
structure SinksTo (stem : String) (bs : List (Bytes × Bytes)) (u : Bytes) : Prop where
  mem : u ∈ bs.map (·.1)
  not_isText : isText u = false
  passes : ∀ e ∈ legible bs, u < Utf8.encode e.1 → stem ≤ e.1 ∧ Range.begins stem e.1 = false

/-- The walk down comes to its first key, whatever that is. -/
theorem sinksTo_head {b : Bytes × Bytes} (hbs : (b :: bs).Pairwise fun a b => b.1 < a.1)
    (hb : isText b.1 = false) : SinksTo stem (b :: bs) b.1 := by
  refine ⟨by simp, hb, ?_⟩
  intro e he hlt
  rw [legible_cons_of_not_isText hb] at he
  exact absurd hlt (Std.not_gt_of_lt ((List.pairwise_cons.1 hbs).1 _ (mem_legible.1 he)))

/-- It comes to a key behind a text exactly if that continues the walk. -/
theorem sinksTo_cons {b : Bytes × Bytes} {e : Entry} {u : Bytes}
    (hbs : (b :: bs).Pairwise fun a b => b.1 < a.1) (hmeet : meet b = .ok e) :
    SinksTo stem (b :: bs) u ↔
      (stem ≤ e.1 ∧ Range.begins stem e.1 = false) ∧ SinksTo stem bs u := by
  have hb : b.1 = Utf8.encode e.1 := by rw [meet_iff.1 hmeet]
  constructor
  · intro h
    have hne : u ≠ b.1 := by
      rintro rfl
      have hu := h.not_isText
      simp [hb, isText_encode] at hu
    have hmem : u ∈ bs.map (·.1) := by simpa [hne] using h.mem
    obtain ⟨c, hc, rfl⟩ := List.mem_map.1 hmem
    have hlt := (List.pairwise_cons.1 hbs).1 c hc
    have hpasses := h.passes
    simp only [legible_cons_of_ok hmeet, List.forall_mem_cons, ← hb] at hpasses
    exact ⟨hpasses.1 hlt, hmem, h.not_isText, hpasses.2⟩
  · rintro ⟨hpass, h⟩
    refine ⟨List.mem_cons_of_mem _ h.mem, h.not_isText, ?_⟩
    rw [legible_cons_of_ok hmeet, List.forall_mem_cons]
    exact ⟨fun _ => hpass, h.passes⟩

/-- The walk down fails only at an invalid key. -/
theorem kind_of_descend {e : StorageError} (h : descend stem bs = .error e) :
    e.kind = .invalidKey := by
  induction bs with
  | nil => simp [descend] at h
  | cons b bs ih =>
    unfold descend at h
    cases hmeet : meet b with
    | error fault =>
      simp only [hmeet] at h
      injection h with h
      rw [← h]
      exact kind_of_meet hmeet
    | ok d =>
      simp only [hmeet] at h
      split_ifs at h
      exact ih h

/-- A walk downwards fails exactly if it comes to a key that is no text. -/
theorem descend_fails_iff (hbs : bs.Pairwise fun a b => b.1 < a.1) :
    (∃ e, descend stem bs = .error e) ↔ ∃ u, SinksTo stem bs u := by
  induction bs with
  | nil =>
    constructor
    · rintro ⟨e, he⟩
      simp [descend] at he
    · rintro ⟨u, hu⟩
      exact absurd hu.mem List.not_mem_nil
  | cons b bs ih =>
    have hrest := ih (List.pairwise_cons.1 hbs).2
    unfold descend
    cases htext : isText b.1 with
    | false =>
      obtain ⟨e, hmeet⟩ := meet_of_not_isText htext
      simp only [hmeet]
      exact iff_of_true ⟨e, rfl⟩ ⟨_, sinksTo_head hbs htext⟩
    | true =>
      obtain ⟨⟨key, value⟩, hmeet⟩ := meet_of_isText htext
      simp only [hmeet, sinksTo_cons hbs hmeet]
      cases hbegins : Range.begins stem key with
      | true => simp
      | false =>
        by_cases hbelow : key < stem
        · simp [hbelow]
        · have hle : stem ≤ key := Std.not_lt.1 hbelow
          simpa [hbelow, hle] using hrest

/-- A walk downwards that is answered is answered alike without the keys that are no text. -/
theorem descend_filter_isText {x : Option Entry} (h : descend stem bs = .ok x) :
    descend stem (bs.filter fun b => isText b.1) = .ok x := by
  induction bs with
  | nil => exact h
  | cons b bs ih =>
    cases htext : isText b.1 with
    | false =>
      obtain ⟨e, hmeet⟩ := meet_of_not_isText htext
      simp [descend, hmeet] at h
    | true =>
      obtain ⟨⟨key, value⟩, hmeet⟩ := meet_of_isText htext
      rw [List.filter_cons_of_pos (by simpa using htext)]
      unfold descend at h ⊢
      simp only [hmeet] at h ⊢
      split_ifs at h ⊢ with hbegins hbelow
      · exact h
      · exact h
      · exact ih h

/-! ## The walks of a log directory -/

variable {d : LogDirectory}

/-- The raw key `u` is no text and fails a scan: every key of text from the start of the scan up
to it is of the range, and those after the key `after` do not fill the page. -/
structure FailsScan (d : LogDirectory) (stem : String) (after : Option String) (limit : Nat)
    (u : Bytes) : Prop where
  mem : u ∈ d.rawKeys
  not_isText : isText u = false
  start_le : Utf8.encode (Range.start stem after) ≤ u
  begins : ∀ key ∈ d.textKeys, Range.start stem after ≤ key → Utf8.encode key < u →
    stem.toList <+: key.toList
  hasRoom : limit = 0 ∨ (d.textKeys.filter fun key => Range.start stem after ≤ key &&
    Utf8.encode key < u && after.all fun a => a < key).length < limit

/-- The raw key `u` is no text and fails the search for the last entry of a range: it is not past
the successor of the stem, and every key of text from there down to it lies above the range. -/
structure FailsLast (d : LogDirectory) (stem : String) (u : Bytes) : Prop where
  mem : u ∈ d.rawKeys
  not_isText : isText u = false
  le_upper : ∀ upper ∈ Range.successor? stem, u ≤ Utf8.encode upper
  passes : ∀ key ∈ d.textKeys, u < Utf8.encode key →
    (∀ upper ∈ Range.successor? stem, key ≤ upper) →
      stem ≤ key ∧ ¬ stem.toList <+: key.toList

/-- A key was not seen if it is behind the one from which the walk goes on. -/
theorem not_isSeen_eq (after : Option String) (key : String) :
    (!isSeen after key) = after.all fun a => a < key := by
  cases after with
  | none => rfl
  | some a =>
    rw [Bool.eq_iff_iff]
    simp [isSeen]

/-- A key is among those that satisfy a condition if it does and is a key. -/
theorem mem_rawKeys_filter {p : Bytes → Bool} {u : Bytes} :
    u ∈ (d.entries.entries.filter fun b => p b.1).map (·.1) ↔ u ∈ d.rawKeys ∧ p u = true := by
  unfold rawKeys
  simp only [List.mem_map, List.mem_filter]
  constructor
  · rintro ⟨b, ⟨hb, hp⟩, rfl⟩
    exact ⟨⟨b, hb, rfl⟩, hp⟩
  · rintro ⟨⟨b, hb, rfl⟩, hp⟩
    exact ⟨b, ⟨hb, hp⟩, rfl⟩

/-- As many texts satisfy a condition as entries with them. -/
theorem length_filter_textKeys (p : String → Bool) :
    (d.textKeys.filter p).length = ((legible d.entries.entries).filter fun e => p e.1).length := by
  unfold textKeys
  rw [List.filter_map, List.length_map]
  rfl

/-- The keys that the walk of a scan meets are those from its start on. -/
theorem climbsTo_iff_failsScan {u : Bytes} :
    ClimbsTo stem after limit 0
        (d.entries.entries.dropWhile fun b => b.1 < Utf8.encode (Range.start stem after)) u ↔
      d.FailsScan stem after limit u := by
  have hlegible : legible (d.entries.entries.filter
      fun b => !decide (b.1 < Utf8.encode (Range.start stem after))) =
      (legible d.entries.entries).filter fun e => Range.start stem after ≤ e.1 := by
    rw [legible_filter fun raw => !decide (raw < Utf8.encode (Range.start stem after))]
    refine List.filter_congr ?_
    intro e _
    rw [Bool.eq_iff_iff]
    rw [Bool.not_eq_true', decide_eq_false_iff_not, decide_eq_true_eq, Utf8.encode_lt_encode,
      String.not_lt]
  have hmem := @mem_rawKeys_filter d
    (fun raw => !decide (raw < Utf8.encode (Range.start stem after))) u
  have hcount : (((legible d.entries.entries).filter fun e => Range.start stem after ≤ e.1).filter
      fun e => Utf8.encode e.1 < u && !isSeen after e.1).length =
      (d.textKeys.filter fun key => Range.start stem after ≤ key &&
        Utf8.encode key < u && after.all fun a => a < key).length := by
    rw [length_filter_textKeys, List.filter_filter]
    refine congrArg List.length (List.filter_congr ?_)
    intro e _
    rw [not_isSeen_eq, Bool.and_comm, Bool.and_assoc]
  rw [dropWhile_below]
  constructor
  · rintro ⟨hu, htext, hbegins, hroom⟩
    rw [hlegible] at hbegins hroom
    rw [hcount, Nat.zero_add] at hroom
    obtain ⟨hraw, hstart⟩ := hmem.1 hu
    refine ⟨hraw, htext, by simpa using hstart, ?_, hroom⟩
    intro key hkey hle hlt
    obtain ⟨e, he, rfl⟩ := List.mem_map.1 hkey
    exact Range.begins_iff.1 (hbegins e (List.mem_filter.2 ⟨he, by simpa using hle⟩) hlt)
  · rintro ⟨hraw, htext, hstart, hbegins, hroom⟩
    refine ⟨hmem.2 ⟨hraw, by simpa using hstart⟩, htext, ?_, ?_⟩
    · rw [hlegible]
      intro e he hlt
      obtain ⟨hmem, hle⟩ := List.mem_filter.1 he
      exact Range.begins_iff.2
        (hbegins e.1 (List.mem_map_of_mem hmem) (by simpa using hle) hlt)
    · rw [hlegible, hcount, Nat.zero_add]
      exact hroom

/-- What is walked down is what is at most the bound, from the greatest key on. -/
theorem downFrom_eq (d : LogDirectory) (upper : Option String) :
    d.downFrom upper = (d.entries.entries.filter
      fun b => upper.all fun u => !decide (Utf8.encode u < b.1)).reverse := by
  cases upper with
  | none => simp [downFrom]
  | some u =>
    unfold downFrom
    dsimp only
    rw [dropWhile_eq_filter, List.filter_reverse]
    · rfl
    · refine List.pairwise_reverse.2 (d.entries.ascending.imp ?_)
      intro a b hab ha
      simp only [decide_eq_true_eq] at ha ⊢
      exact Std.lt_trans ha hab

/-- The keys that the walk of a search meets are those up to the successor of the stem. -/
theorem sinksTo_iff_failsLast {u : Bytes} :
    SinksTo stem (d.downFrom (Range.successor? stem)) u ↔ d.FailsLast stem u := by
  rw [downFrom_eq]
  have hupTo : ∀ raw : Bytes, ((Range.successor? stem).all
      fun upper => !decide (Utf8.encode upper < raw)) = true ↔
      ∀ upper ∈ Range.successor? stem, raw ≤ Utf8.encode upper := by
    intro raw
    cases Range.successor? stem <;> simp
  have hmem := @mem_rawKeys_filter d
    (fun raw => (Range.successor? stem).all fun upper => !decide (Utf8.encode upper < raw)) u
  have hlegible : ∀ e : Entry, e ∈ legible ((d.entries.entries.filter fun b =>
      (Range.successor? stem).all fun upper => !decide (Utf8.encode upper < b.1)).reverse) ↔
      e ∈ legible d.entries.entries ∧ ∀ upper ∈ Range.successor? stem, e.1 ≤ upper := by
    intro e
    rw [legible_reverse, List.mem_reverse, legible_filter fun raw =>
      (Range.successor? stem).all fun upper => !decide (Utf8.encode upper < raw),
      List.mem_filter, hupTo]
    simp only [Utf8.encode_le_encode]
  constructor
  · rintro ⟨hu, htext, hpasses⟩
    rw [List.map_reverse, List.mem_reverse, hmem, hupTo] at hu
    refine ⟨hu.1, htext, hu.2, ?_⟩
    intro key hkey hlt hle
    obtain ⟨e, he, rfl⟩ := List.mem_map.1 hkey
    obtain ⟨hstem, hout⟩ := hpasses e ((hlegible e).2 ⟨he, hle⟩) hlt
    refine ⟨hstem, fun hbegins => ?_⟩
    simp [Range.begins_iff.2 hbegins] at hout
  · rintro ⟨hraw, htext, hle, hpasses⟩
    refine ⟨?_, htext, ?_⟩
    · rw [List.map_reverse, List.mem_reverse, hmem, hupTo]
      exact ⟨hraw, hle⟩
    · intro e he hlt
      obtain ⟨hmem, hupper⟩ := (hlegible e).1 he
      obtain ⟨hstem, hout⟩ := hpasses e.1 (List.mem_map_of_mem hmem) hlt hupper
      exact ⟨hstem, Bool.eq_false_iff.2 fun hbegins => hout (Range.begins_iff.1 hbegins)⟩

/-- Without damage, a scan fails exactly if a key that is no text fails it. -/
theorem scan_fails_iff (h : (Contents.logDirectory d).IsWhole) :
    (∃ e, d.scan stem after limit = .error e) ↔ ∃ u, d.FailsScan stem after limit u := by
  have hbs : (d.entries.entries.dropWhile
      fun b => b.1 < Utf8.encode (Range.start stem after)).Pairwise fun a b => a.1 < b.1 :=
    d.entries.ascending.sublist (List.dropWhile_sublist _)
  unfold scan
  dsimp only
  rw [isBlockedFrom_of_isWhole h, if_neg Bool.false_ne_true, page_fails_iff hbs]
  simp only [climbsTo_iff_failsScan]

/-- Without damage, a search fails exactly if a key that is no text fails it. -/
theorem last_fails_iff (h : (Contents.logDirectory d).IsWhole) :
    (∃ e, d.last? stem = .error e) ↔ ∃ u, d.FailsLast stem u := by
  have hbs : (d.downFrom (Range.successor? stem)).Pairwise fun a b => b.1 < a.1 := by
    rw [downFrom_eq]
    exact List.pairwise_reverse.2 (d.entries.ascending.filter _)
  unfold last?
  rw [isBlockedDown_of_isWhole h, if_neg Bool.false_ne_true, descend_fails_iff hbs]
  simp only [sinksTo_iff_failsLast]

/-- Without damage a scan fails only at an invalid key. -/
theorem kind_of_scan (h : (Contents.logDirectory d).IsWhole) {e : StorageError}
    (hscan : d.scan stem after limit = .error e) : e.kind = .invalidKey := by
  unfold scan at hscan
  dsimp only at hscan
  rw [isBlockedFrom_of_isWhole h, if_neg Bool.false_ne_true] at hscan
  exact kind_of_page hscan

/-- So does the search for the last entry. -/
theorem kind_of_last (h : (Contents.logDirectory d).IsWhole) {e : StorageError}
    (hlast : d.last? stem = .error e) : e.kind = .invalidKey := by
  unfold last? at hlast
  rw [isBlockedDown_of_isWhole h, if_neg Bool.false_ne_true] at hlast
  exact kind_of_descend hlast

/-- A scan that is answered is answered alike without the keys that are no text. -/
theorem scan_textOnly {es : List Entry} (h : d.scan stem after limit = .ok es) :
    d.textOnly.scan stem after limit = .ok es := by
  unfold scan at h ⊢
  dsimp only at h ⊢
  have hblocked : d.textOnly.isBlockedFrom (Utf8.encode (Range.start stem after)) =
      d.isBlockedFrom (Utf8.encode (Range.start stem after)) := rfl
  rw [hblocked]
  split_ifs at h ⊢
  rw [dropWhile_below] at h ⊢
  have hpage := page_filter_isText h
  rw [List.filter_filter] at hpage
  unfold textOnly
  rw [List.filter_filter]
  simpa only [Bool.and_comm] using hpage

/-- A search that is answered is answered alike without the keys that are no text. -/
theorem last_textOnly {x : Option Entry} (h : d.last? stem = .ok x) :
    d.textOnly.last? stem = .ok x := by
  unfold last? at h ⊢
  have hblocked : d.textOnly.isBlockedDown = d.isBlockedDown := rfl
  rw [hblocked]
  split_ifs at h ⊢
  rw [downFrom_eq] at h ⊢
  have hdescend := descend_filter_isText h
  rw [List.filter_reverse, List.filter_filter] at hdescend
  unfold textOnly
  rw [List.filter_filter]
  simpa only [Bool.and_comm] using hdescend

/-- Without damage, the walks of a log directory fail exactly if they come to a key that is no
text, and else answer as if no such key were there. -/
theorem walks_fail_iff (h : (Contents.logDirectory d).IsWhole) (stem : String) :
    (∀ after limit,
      ((∃ e, d.scan stem after limit = .error e ∧ e.kind = .invalidKey) ↔
        ∃ u, d.FailsScan stem after limit u) ∧
      ((¬ ∃ u, d.FailsScan stem after limit u) →
        d.scan stem after limit = d.textOnly.scan stem after limit)) ∧
    ((∃ e, d.last? stem = .error e ∧ e.kind = .invalidKey) ↔ ∃ u, d.FailsLast stem u) ∧
    ((¬ ∃ u, d.FailsLast stem u) → d.last? stem = d.textOnly.last? stem) := by
  refine ⟨fun after limit => ⟨?_, ?_⟩, ?_, ?_⟩
  · rw [← scan_fails_iff h]
    constructor
    · rintro ⟨e, hscan, -⟩
      exact ⟨e, hscan⟩
    · rintro ⟨e, hscan⟩
      exact ⟨e, hscan, kind_of_scan h hscan⟩
  · rw [← scan_fails_iff h]
    intro hok
    cases hscan : d.scan stem after limit with
    | error e => exact absurd ⟨e, hscan⟩ hok
    | ok es => exact (scan_textOnly hscan).symm
  · rw [← last_fails_iff h]
    constructor
    · rintro ⟨e, hlast, -⟩
      exact ⟨e, hlast⟩
    · rintro ⟨e, hlast⟩
      exact ⟨e, hlast, kind_of_last h hlast⟩
  · rw [← last_fails_iff h]
    intro hok
    cases hlast : d.last? stem with
    | error e => exact absurd ⟨e, hlast⟩ hok
    | ok x => exact (last_textOnly hlast).symm

/-- A key of another program stands right behind a range of one key.  It fails the scan of the
range, though not a page of one entry, and the search for its last entry; the range before it is
not touched. -/
theorem walks_beside_foreign_key :
    let d : LogDirectory := { entries := ⟨[(Utf8.encode "/a", [1]), (Utf8.encode "/b", [2]),
      (Utf8.encode "/b" ++ [255], [3])], by decide⟩ }
    (Contents.logDirectory d).IsWhole ∧
      (∃ u, d.FailsScan "/b" none 0 u) ∧
      d.scan "/b" none 1 = d.textOnly.scan "/b" none 1 ∧
      (∃ u, d.FailsLast "/b" u) ∧
      d.last? "/a" = d.textOnly.last? "/a" := by
  intro d
  have hwhole : (Contents.logDirectory d).IsWhole := fun r hr => absurd hr List.not_mem_nil
  have hfault : ∃ e, d.scan "/b" none 0 = .error e ∧ e.kind = .invalidKey :=
    ⟨⟨.invalidKey, "", some "invalid utf-8 sequence of 1 bytes from index 2"⟩,
      by decide +kernel, rfl⟩
  have hpage : d.scan "/b" none 1 = .ok [("/b", [2])] := by decide +kernel
  have hseek : ∃ e, d.last? "/b" = .error e ∧ e.kind = .invalidKey :=
    ⟨⟨.invalidKey, "", some "invalid utf-8 sequence of 1 bytes from index 2"⟩,
      by decide +kernel, rfl⟩
  have hlast : d.last? "/a" = .ok (some ("/a", [1])) := by decide +kernel
  obtain ⟨hscans, hfails, -⟩ := walks_fail_iff hwhole "/b"
  obtain ⟨-, hfails', hanswers⟩ := walks_fail_iff hwhole "/a"
  refine ⟨hwhole, (hscans none 0).1.1 hfault, ?_, hfails.1 hseek, ?_⟩
  · apply (hscans none 1).2
    rw [← (hscans none 1).1]
    simp [hpage]
  · apply hanswers
    rw [← hfails']
    simp [hlast]

end LogDirectory

end Strongbox
