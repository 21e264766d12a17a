/-!
# Sorted lists of bindings

A finite map as a list of keys with their values, in strictly ascending order of the keys.
Binding and erasing keep the order, change one key, and leave the values of all others.
-/

namespace Strongbox

namespace Bindings

variable {κ ν : Type} [LT κ] [DecidableLT κ]

/-- The value bound to a key. -/
def find? (key : κ) : List (κ × ν) → Option ν
  | [] => none
  | (k, v) :: rest =>
    if key < k then none
    else if k < key then find? key rest
    else some v

/-- The bindings with `key` bound to `value`. -/
def insert (key : κ) (value : ν) : List (κ × ν) → List (κ × ν)
  | [] => [(key, value)]
  | (k, v) :: rest =>
    if key < k then (key, value) :: (k, v) :: rest
    else if k < key then (k, v) :: insert key value rest
    else (key, value) :: rest

/-- The bindings without `key`. -/
def erase (key : κ) : List (κ × ν) → List (κ × ν)
  | [] => []
  | (k, v) :: rest =>
    if key < k then (k, v) :: rest
    else if k < key then (k, v) :: erase key rest
    else rest

/-- Every key is less than those after it. -/
def Ascending (bs : List (κ × ν)) : Prop := bs.Pairwise fun a b => a.1 < b.1

/-- A binding after an insertion is the new one or an old one. -/
theorem mem_of_mem_insert {key : κ} {value : ν} {b : κ × ν} {bs : List (κ × ν)}
    (h : b ∈ insert key value bs) : b = (key, value) ∨ b ∈ bs := by
  induction bs with
  | nil => simpa [insert] using h
  | cons c rest ih =>
    obtain ⟨k, v⟩ := c
    simp only [insert] at h
    split at h
    · rcases List.mem_cons.1 h with h | h
      · exact .inl h
      · exact .inr h
    · split at h
      · rcases List.mem_cons.1 h with h | h
        · exact .inr (by simp [h])
        · rcases ih h with h | h
          · exact .inl h
          · exact .inr (List.mem_cons_of_mem _ h)
      · rcases List.mem_cons.1 h with h | h
        · exact .inl h
        · exact .inr (List.mem_cons_of_mem _ h)

/-- A binding after a removal is an old one. -/
theorem mem_of_mem_erase {key : κ} {b : κ × ν} {bs : List (κ × ν)} (h : b ∈ erase key bs) :
    b ∈ bs := by
  induction bs with
  | nil => simp [erase] at h
  | cons c rest ih =>
    obtain ⟨k, v⟩ := c
    simp only [erase] at h
    split at h
    · exact h
    · split at h
      · rcases List.mem_cons.1 h with h | h
        · simp [h]
        · exact List.mem_cons_of_mem _ (ih h)
      · exact List.mem_cons_of_mem _ h

/-- A removal keeps the order. -/
theorem ascending_erase (key : κ) {bs : List (κ × ν)} (h : Ascending bs) :
    Ascending (erase key bs) := by
  induction bs with
  | nil => exact h
  | cons c rest ih =>
    obtain ⟨k, v⟩ := c
    obtain ⟨hlt, hrest⟩ := List.pairwise_cons.1 h
    simp only [erase]
    split
    · exact h
    · split
      · exact List.pairwise_cons.2 ⟨fun b hb => hlt b (mem_of_mem_erase hb), ih hrest⟩
      · exact hrest

variable [LE κ] [Std.IsLinearOrder κ] [Std.LawfulOrderLT κ]

/-- So does an insertion. -/
theorem ascending_insert (key : κ) (value : ν) {bs : List (κ × ν)} (h : Ascending bs) :
    Ascending (insert key value bs) := by
  induction bs with
  | nil => simp [insert, Ascending]
  | cons c rest ih =>
    obtain ⟨k, v⟩ := c
    obtain ⟨hlt, hrest⟩ := List.pairwise_cons.1 h
    simp only [insert]
    split
    · rename_i hk
      refine List.pairwise_cons.2 ⟨fun b hb => ?_, h⟩
      rcases List.mem_cons.1 hb with rfl | hb
      · exact hk
      · exact Std.lt_trans hk (hlt b hb)
    · rename_i hnot
      split
      · rename_i hk
        refine List.pairwise_cons.2 ⟨fun b hb => ?_, ih hrest⟩
        rcases mem_of_mem_insert hb with rfl | hb
        · exact hk
        · exact hlt b hb
      · rename_i hnot'
        refine List.pairwise_cons.2 ⟨fun b hb => ?_, hrest⟩
        have heq : key = k :=
          (Std.lt_trichotomy key k).elim (absurd · hnot) (·.elim id (absurd · hnot'))
        exact heq ▸ hlt b hb

/-- A value that is found is bound. -/
theorem mem_of_find? {key : κ} {value : ν} {bs : List (κ × ν)} (h : find? key bs = some value) :
    (key, value) ∈ bs := by
  induction bs with
  | nil => simp [find?] at h
  | cons c rest ih =>
    obtain ⟨k, v⟩ := c
    simp only [find?] at h
    split at h
    · simp at h
    · rename_i hnot
      split at h
      · exact List.mem_cons_of_mem _ (ih h)
      · rename_i hnot'
        injection h with h
        have heq : key = k :=
          (Std.lt_trichotomy key k).elim (absurd · hnot) (·.elim id (absurd · hnot'))
        rw [heq, h]
        exact List.mem_cons_self

omit [Std.IsLinearOrder κ] in
/-- A key that was just bound is found with its value. -/
theorem find?_insert_self (key : κ) (value : ν) (bs : List (κ × ν)) :
    find? key (insert key value bs) = some value := by
  induction bs with
  | nil => simp [insert, find?, Std.lt_irrefl]
  | cons c rest ih =>
    obtain ⟨k, v⟩ := c
    simp only [insert]
    split
    · simp [find?, Std.lt_irrefl]
    · rename_i hnot
      split
      · rename_i hk
        simp [find?, hnot, hk, ih]
      · simp [find?, Std.lt_irrefl]

/-- Binding a key leaves the values of all others. -/
theorem find?_insert_of_ne {key other : κ} (value : ν) (hne : other ≠ key)
    (bs : List (κ × ν)) : find? other (insert key value bs) = find? other bs := by
  have hcases : other < key ∨ key < other :=
    (Std.lt_trichotomy other key).elim .inl (·.elim (absurd · hne) .inr)
  induction bs with
  | nil => rcases hcases with h | h <;> simp [insert, find?, h]
  | cons c rest ih =>
    obtain ⟨k, v⟩ := c
    simp only [insert]
    split
    · rename_i hk
      rcases hcases with h | h
      · simp [find?, h, Std.lt_trans h hk]
      · simp [find?, h, Std.not_gt_of_lt h]
    · rename_i hnot
      split
      · simp [find?, ih]
      · rename_i hnot'
        have heq : key = k :=
          (Std.lt_trichotomy key k).elim (absurd · hnot) (·.elim id (absurd · hnot'))
        subst heq
        rcases hcases with h | h <;> simp [find?, h, Std.not_gt_of_lt h]

omit [LE κ] [Std.IsLinearOrder κ] [Std.LawfulOrderLT κ] in
/-- A key below all keys of a list is not bound there. -/
theorem find?_eq_none_of_lt {key : κ} {bs : List (κ × ν)} (h : ∀ b ∈ bs, key < b.1) :
    find? key bs = none := by
  cases bs with
  | nil => rfl
  | cons c rest =>
    have hc := h c (by simp)
    simp [find?, hc]

/-- An erased key is not bound. -/
theorem find?_erase_self (key : κ) {bs : List (κ × ν)} (h : Ascending bs) :
    find? key (erase key bs) = none := by
  induction bs with
  | nil => rfl
  | cons c rest ih =>
    obtain ⟨k, v⟩ := c
    obtain ⟨hlt, hrest⟩ := List.pairwise_cons.1 h
    simp only [erase]
    split
    · rename_i hk
      simp [find?, hk]
    · rename_i hnot
      split
      · rename_i hk
        simp [find?, hnot, hk, ih hrest]
      · rename_i hnot'
        have heq : key = k :=
          (Std.lt_trichotomy key k).elim (absurd · hnot) (·.elim id (absurd · hnot'))
        exact find?_eq_none_of_lt fun b hb => heq ▸ hlt b hb

/-- Erasing a key leaves the values of all others. -/
theorem find?_erase_of_ne {key other : κ} (hne : other ≠ key) {bs : List (κ × ν)}
    (h : Ascending bs) : find? other (erase key bs) = find? other bs := by
  induction bs with
  | nil => rfl
  | cons c rest ih =>
    obtain ⟨k, v⟩ := c
    obtain ⟨hlt, hrest⟩ := List.pairwise_cons.1 h
    simp only [erase]
    split
    · rfl
    · rename_i hnot
      split
      · simp [find?, ih hrest]
      · rename_i hnot'
        have heq : key = k :=
          (Std.lt_trichotomy key k).elim (absurd · hnot) (·.elim id (absurd · hnot'))
        subst heq
        rcases Std.lt_trichotomy other key with hlow | hsame | hhigh
        · have hnone : find? other rest = none :=
            find?_eq_none_of_lt fun b hb => Std.lt_trans hlow (hlt b hb)
          simp [find?, hlow, hnone]
        · exact absurd hsame hne
        · simp [find?, hhigh, Std.not_gt_of_lt hhigh]

end Bindings

end Strongbox
