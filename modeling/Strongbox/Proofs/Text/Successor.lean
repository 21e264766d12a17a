import Strongbox.Proofs.Text.Order

/-!
# The end of a range

The keys that begin with a stem are those from the stem up to its successor, and all from the
stem on where the stem has no successor, since it is made of last characters only.  It makes no
difference whether keys are read as characters or as octets.  The main statement is
`Range.isExact_successor`.
-/

set_option autoImplicit false

namespace Strongbox.Range

/-! ## The next character -/

/-- Only the greatest character has none behind it. -/
theorem toNat_eq_of_nextChar?_eq_none {c : Char} (h : nextChar? c = none) : c.toNat = 0x10FFFF := by
  unfold nextChar? at h
  split_ifs at h with hlast
  exact hlast

/-- The next character has the next code point that is no surrogate. -/
theorem toNat_of_nextChar? {c d : Char} (h : nextChar? c = some d) :
    d.toNat = if c.toNat = 0xD7FF then 0xE000 else c.toNat + 1 := by
  have hc := Utf8.toNat_char_bounds c
  unfold nextChar? at h
  split_ifs at h ⊢ with hlast hgap
  · injection h with h
    rw [← h]
    rfl
  · injection h with h
    rw [← h, Utf8.toNat_ofNat_char (by omega)]

/-- No character stands between a character and the next one. -/
theorem lt_iff_of_nextChar? {c d k : Char} (h : nextChar? c = some d) : k < d ↔ ¬ c < k := by
  have hd := toNat_of_nextChar? h
  have hk := Utf8.toNat_char_bounds k
  have hlt : k < d ↔ k.toNat < d.toNat := Iff.rfl
  have hgt : c < k ↔ c.toNat < k.toNat := Iff.rfl
  rw [hlt, hgt, hd]
  split_ifs with hgap <;> omega

/-- Nothing is greater than a character with none behind it. -/
theorem not_lt_of_nextChar?_eq_none {c k : Char} (h : nextChar? c = none) : ¬ c < k := by
  have hc := toNat_eq_of_nextChar?_eq_none h
  have hk := Utf8.toNat_char_bounds k
  have hgt : c < k ↔ c.toNat < k.toNat := Iff.rfl
  rw [hgt]
  omega

/-! ## Stems as lists of characters -/

/-- From a list of last characters on, every list begins with it. -/
theorem prefix_iff_of_last {cs ks : List Char} (h : ∀ c ∈ cs, nextChar? c = none) :
    cs <+: ks ↔ ¬ ks < cs := by
  induction cs generalizing ks with
  | nil => simp
  | cons c cs ih =>
    have hc : ∀ k, ¬ c < k := fun k => not_lt_of_nextChar?_eq_none (h c List.mem_cons_self)
    have hcs : ∀ ks, cs <+: ks ↔ ¬ ks < cs := fun _ =>
      ih fun d hd => h d (List.mem_cons_of_mem _ hd)
    cases ks with
    | nil => simp
    | cons k ks =>
      rw [List.cons_prefix_cons, List.cons_lt_cons_iff, hcs ks]
      constructor
      · rintro ⟨rfl, hnot⟩ (hlt | ⟨-, hlt⟩)
        · exact Std.lt_irrefl hlt
        · exact hnot hlt
      · intro hnot
        have hbelow : ¬ k < c := fun hlt => hnot (.inl hlt)
        have hsame : c = k := Std.le_antisymm (Std.not_lt.1 hbelow) (Std.not_lt.1 (hc k))
        exact ⟨hsame, fun hlt => hnot (.inr ⟨hsame.symm, hlt⟩)⟩

/-- The lists that begin with a stem end where its last character that has a next one is
replaced by that. -/
theorem prefix_iff_of_nextChar {before last ks : List Char} {c d : Char}
    (hnext : nextChar? c = some d) (hlast : ∀ c ∈ last, nextChar? c = none) :
    before ++ c :: last <+: ks ↔ ¬ ks < before ++ c :: last ∧ ks < before ++ [d] := by
  induction before generalizing ks with
  | nil =>
    cases ks with
    | nil => simp
    | cons k ks =>
      have hd : k :: ks < [d] ↔ ¬ c < k := by
        rw [List.cons_lt_cons_iff, lt_iff_of_nextChar? hnext]
        simp
      rw [List.nil_append, List.nil_append, List.cons_prefix_cons, List.cons_lt_cons_iff, hd,
        prefix_iff_of_last hlast]
      constructor
      · rintro ⟨rfl, hnot⟩
        refine ⟨?_, Std.lt_irrefl⟩
        rintro (hlt | ⟨-, hlt⟩)
        · exact Std.lt_irrefl hlt
        · exact hnot hlt
      · rintro ⟨hnot, hle⟩
        have hbelow : ¬ k < c := fun hlt => hnot (.inl hlt)
        have hsame : c = k := Std.le_antisymm (Std.not_lt.1 hbelow) (Std.not_lt.1 hle)
        exact ⟨hsame, fun hlt => hnot (.inr ⟨hsame.symm, hlt⟩)⟩
  | cons b before ih =>
    cases ks with
    | nil => simp
    | cons k ks =>
      simp only [List.cons_append, List.cons_prefix_cons, List.cons_lt_cons_iff, ih]
      constructor
      · rintro ⟨rfl, hnot, hlt⟩
        refine ⟨?_, .inr ⟨rfl, hlt⟩⟩
        rintro (hbelow | ⟨-, hbelow⟩)
        · exact Std.lt_irrefl hbelow
        · exact hnot hbelow
      · rintro ⟨hnot, hlt | ⟨rfl, hlt⟩⟩
        · exact absurd (.inl hlt) hnot
        · exact ⟨rfl, fun hbelow => hnot (.inr ⟨rfl, hbelow⟩), hlt⟩

/-- How a successor comes about. -/
theorem raise_eq_some {cs us : List Char} (h : raise cs = some us) :
    ∃ last c d rest, cs = last ++ c :: rest ∧ (∀ c ∈ last, nextChar? c = none) ∧
      nextChar? c = some d ∧ us = d :: rest := by
  induction cs with
  | nil => simp [raise] at h
  | cons c cs ih =>
    unfold raise at h
    cases hnext : nextChar? c with
    | some d =>
      rw [hnext] at h
      injection h with h
      exact ⟨[], c, d, cs, rfl, by simp, hnext, h.symm⟩
    | none =>
      rw [hnext] at h
      obtain ⟨last, c', d, rest, rfl, hlast, hd, hus⟩ := ih h
      refine ⟨c :: last, c', d, rest, rfl, ?_, hd, hus⟩
      intro x hx
      rcases List.mem_cons.1 hx with rfl | hx
      · exact hnext
      · exact hlast x hx

/-- A text cannot be raised only if none of its characters can. -/
theorem nextChar?_of_raise_eq_none {cs : List Char} (h : raise cs = none) :
    ∀ c ∈ cs, nextChar? c = none := by
  induction cs with
  | nil => simp
  | cons c cs ih =>
    unfold raise at h
    cases hnext : nextChar? c with
    | some d => simp [hnext] at h
    | none =>
      rw [hnext] at h
      intro x hx
      rcases List.mem_cons.1 hx with rfl | hx
      · exact hnext
      · exact ih h x hx

/-! ## Stems as texts -/

/-- The keys that begin with a stem are those from the stem up to its successor. -/
theorem begins_iff_of_successor {stem u key : String} (h : successor? stem = some u) :
    begins stem key = true ↔ stem ≤ key ∧ key < u := by
  unfold successor? at h
  obtain ⟨us, hraise, hu⟩ := Option.map_eq_some_iff.1 h
  obtain ⟨last, c, d, rest, hstem, hlast, hnext, rfl⟩ := raise_eq_some hraise
  have hchars : stem.toList = rest.reverse ++ c :: last.reverse := by
    rw [← List.reverse_reverse stem.toList, hstem]
    simp
  have hupper : u.toList = rest.reverse ++ [d] := by
    rw [← hu, String.toList_ofList]
    simp
  have hlast : ∀ c ∈ last.reverse, nextChar? c = none := fun c hc =>
    hlast c (List.mem_reverse.1 hc)
  rw [begins_iff, ← Std.not_lt, String.lt_iff, String.lt_iff, hchars, hupper]
  exact prefix_iff_of_nextChar hnext hlast

/-- Where a stem has no successor, all keys from it on begin with it. -/
theorem begins_iff_of_no_successor {stem key : String} (h : successor? stem = none) :
    begins stem key = true ↔ stem ≤ key := by
  have hlast : ∀ c ∈ stem.toList, nextChar? c = none := fun c hc =>
    nextChar?_of_raise_eq_none (Option.map_eq_none_iff.1 h) c (List.mem_reverse.2 hc)
  rw [begins_iff, ← Std.not_lt, String.lt_iff]
  exact prefix_iff_of_last hlast

end Strongbox.Range

/-! ## Stems as octets -/

namespace Strongbox.Utf8

/-- No character is written with the first octets of another one. -/
theorem encodeChar_append_inj {c d : Char} {xs ys : Bytes}
    (h : encodeChar c ++ xs = encodeChar d ++ ys) : c = d ∧ xs = ys := by
  obtain ⟨a, tail, hc, hleft⟩ := exists_head_encodeChar c xs
  obtain ⟨b, tail', hd, hright⟩ := exists_head_encodeChar d ys
  rw [hc, hd] at h
  obtain ⟨rfl, rfl⟩ := List.cons.inj h
  rw [hleft] at hright
  exact Head.char.inj hright

/-- One text begins another exactly if its octets do. -/
theorem encodeChars_prefix_iff {cs ds : List Char} :
    encodeChars cs <+: encodeChars ds ↔ cs <+: ds := by
  constructor
  · intro h
    induction cs generalizing ds with
    | nil => exact List.nil_prefix
    | cons c cs ih =>
      obtain ⟨rest, hrest⟩ := h
      rw [encodeChars_cons, List.append_assoc] at hrest
      cases ds with
      | nil =>
        obtain ⟨a, tail, hbytes, -⟩ := exists_head_encodeChar c (encodeChars cs ++ rest)
        rw [hbytes] at hrest
        simp [encodeChars] at hrest
      | cons d ds =>
        rw [encodeChars_cons] at hrest
        obtain ⟨rfl, htail⟩ := encodeChar_append_inj hrest
        exact List.cons_prefix_cons.2 ⟨rfl, ih ⟨rest, htail⟩⟩
  · rintro ⟨rest, rfl⟩
    exact ⟨encodeChars rest, (encodeChars_append cs rest).symm⟩

/-- Octets are in the order of their texts. -/
theorem encode_le_encode {s t : String} : encode s ≤ encode t ↔ s ≤ t := by
  rw [← Std.not_lt, ← Std.not_lt, encode_lt_encode]

end Strongbox.Utf8

namespace Strongbox.Range

open Utf8 (encode)

/-- A key begins with a stem exactly if its octets begin with those of the stem. -/
theorem encode_prefix_iff {stem key : String} :
    encode stem <+: encode key ↔ begins stem key = true :=
  Utf8.encodeChars_prefix_iff.trans begins_iff.symm

/-- Where a stem has a successor, not all its characters are last ones. -/
theorem exists_of_successor {stem u : String} (h : successor? stem = some u) :
    ∃ c ∈ stem.toList, c.toNat ≠ 0x10FFFF := by
  unfold successor? at h
  obtain ⟨us, hraise, -⟩ := Option.map_eq_some_iff.1 h
  obtain ⟨last, c, d, rest, hstem, -, hnext, -⟩ := raise_eq_some hraise
  refine ⟨c, ?_, ?_⟩
  · apply List.mem_reverse.1
    simp [hstem]
  · intro hlast
    simp [nextChar?, hlast] at hnext

/-- The successor of a stem lies above every key that begins with the stem. -/
theorem lt_of_successor {stem u key : String} (h : successor? stem = some u)
    (hkey : begins stem key = true) : key < u :=
  ((begins_iff_of_successor h).1 hkey).2

/-- Any text above every key that begins with a stem lies at or above the stem's successor, since
it would otherwise begin with the stem itself. -/
theorem le_of_successor {stem u t : String} (h : successor? stem = some u)
    (ht : ∀ key, begins stem key = true → key < t) : u ≤ t := by
  have hstem : stem < t := ht stem (begins_iff.2 (List.prefix_refl _))
  apply Std.not_lt.1
  intro hbelow
  have hself : begins stem t = true :=
    (begins_iff_of_successor h).2 ⟨Std.le_of_lt hstem, hbelow⟩
  exact Std.lt_irrefl (ht t hself)

/-- In the order of octets, the successor of a stem is the exact end of the keys that begin with
the stem: they are those from the stem up to the successor, and the successor is the least text
above them all.  Only a stem of last characters has no successor; then they are all the keys from
the stem on. -/
theorem isExact_successor (stem : String) :
    match successor? stem with
    | some u =>
      (∃ c ∈ stem.toList, c.toNat ≠ 0x10FFFF) ∧
      (∀ key, encode stem <+: encode key ↔ encode stem ≤ encode key ∧ encode key < encode u) ∧
      (∀ key, encode stem <+: encode key → encode key < encode u) ∧
      ∀ t, (∀ key, encode stem <+: encode key → encode key < encode t) → encode u ≤ encode t
    | none =>
      (∀ c ∈ stem.toList, c.toNat = 0x10FFFF) ∧
      ∀ key, encode stem <+: encode key ↔ encode stem ≤ encode key := by
  simp only [encode_prefix_iff, Utf8.encode_lt_encode, Utf8.encode_le_encode]
  cases h : successor? stem with
  | some u =>
    refine ⟨exists_of_successor h, ?_, ?_, ?_⟩
    · intro key
      exact begins_iff_of_successor h
    · intro key hkey
      exact lt_of_successor h hkey
    · intro t ht
      exact le_of_successor h ht
  | none =>
    refine ⟨?_, ?_⟩
    · intro c hc
      apply toNat_eq_of_nextChar?_eq_none
      exact nextChar?_of_raise_eq_none (Option.map_eq_none_iff.1 h) c (List.mem_reverse.2 hc)
    · intro key
      exact begins_iff_of_no_successor h

/-- The end is found past a last character and across the surrogates. -/
example : successor? (String.ofList ['a', '\ud7ff', Char.ofNat 0x10FFFF]) = some "a\ue000" := by
  decide +kernel

end Strongbox.Range
