import Mathlib.Data.List.Sort
import Strongbox.Table

/-!
# Bindings in ascending order

A list of bindings in ascending order of its keys is determined by what it finds, so tables that
find the same are the same.
-/

set_option autoImplicit false

namespace Strongbox

namespace Bindings

variable {κ ν : Type} [LT κ] [LE κ] [Std.LawfulOrderLT κ]

/-- A binding of an ascending list is found by its key. -/
theorem find?_of_mem [DecidableLT κ] {bs : List (κ × ν)} {key : κ} {value : ν} (hbs : Ascending bs)
    (h : (key, value) ∈ bs) : find? key bs = some value := by
  induction bs with
  | nil => exact absurd h List.not_mem_nil
  | cons c bs ih =>
    obtain ⟨k, v⟩ := c
    obtain ⟨hlt, hrest⟩ := List.pairwise_cons.1 hbs
    rcases List.mem_cons.1 h with hsame | hmem
    · obtain ⟨rfl, rfl⟩ := Prod.mk.inj hsame
      simp [find?, Std.lt_irrefl]
    · have hk : k < key := hlt _ hmem
      simp [find?, hk, Std.not_gt_of_lt hk, ih hrest hmem]

/-- Bindings in ascending order are determined by which they are. -/
theorem eq_of_mem_iff {bs cs : List (κ × ν)} (hbs : Ascending bs) (hcs : Ascending cs)
    (h : ∀ b, b ∈ bs ↔ b ∈ cs) : bs = cs := by
  have hnodup : ∀ ds : List (κ × ν), Ascending ds → ds.Nodup := fun ds hds =>
    hds.imp fun hlt hsame => absurd (congrArg Prod.fst hsame) (Std.ne_of_lt hlt)
  have hperm : bs.Perm cs :=
    (List.perm_ext_iff_of_nodup (hnodup bs hbs) (hnodup cs hcs)).2 h
  exact hperm.eq_of_pairwise (fun _ _ _ _ hbc hcb => absurd hcb (Std.not_gt_of_lt hbc)) hbs hcs

variable [DecidableLT κ]

/-- A key above all others is bound behind them. -/
theorem insert_of_lt {key : κ} (value : ν) {bs : List (κ × ν)} (h : ∀ b ∈ bs, b.1 < key) :
    insert key value bs = bs ++ [(key, value)] := by
  induction bs with
  | nil => rfl
  | cons b bs ih =>
    obtain ⟨k, v⟩ := b
    have hk : k < key := h (k, v) List.mem_cons_self
    unfold insert
    rw [if_neg (Std.not_gt_of_lt hk), if_pos hk, ih fun b hb => h b (List.mem_cons_of_mem _ hb)]
    rfl

variable [Std.IsLinearOrder κ]

/-- What an ascending list holds is what it finds. -/
theorem mem_iff_find? {bs : List (κ × ν)} (hbs : Ascending bs) {b : κ × ν} :
    b ∈ bs ↔ find? b.1 bs = some b.2 :=
  ⟨find?_of_mem hbs, mem_of_find?⟩

/-- In an ascending list a key is found where it is first bound. -/
theorem find?_eq_lookup [DecidableEq κ] {bs : List (κ × ν)} (hbs : Ascending bs) (key : κ) :
    find? key bs = bs.lookup key := by
  induction bs with
  | nil => rfl
  | cons b rest ih =>
    obtain ⟨k, v⟩ := b
    obtain ⟨hlt, hrest⟩ := List.pairwise_cons.1 hbs
    rcases Std.lt_trichotomy key k with hbelow | rfl | habove
    · have hnone : find? key rest = none :=
        find?_eq_none_of_lt fun b hb => Std.lt_trans hbelow (hlt b hb)
      have hne : (key == k) = false := beq_false_of_ne (Std.ne_of_lt hbelow)
      simp [find?, hbelow, List.lookup_cons, hne, ← ih hrest, hnone]
    · simp [find?, Std.lt_irrefl]
    · have hne : (key == k) = false := beq_false_of_ne (Std.ne_of_lt habove).symm
      simp [find?, Std.not_gt_of_lt habove, habove, List.lookup_cons, hne, ih hrest]

/-- Bindings in ascending order are determined by what is found among them. -/
theorem eq_of_find? {bs cs : List (κ × ν)} (hbs : Ascending bs) (hcs : Ascending cs)
    (h : ∀ key, find? key bs = find? key cs) : bs = cs :=
  eq_of_mem_iff hbs hcs fun b => by rw [mem_iff_find? hbs, mem_iff_find? hcs, h]

/-- To erase a key is to keep the bindings of all others. -/
theorem erase_eq_filter [DecidableEq κ] (key : κ) {bs : List (κ × ν)} (h : Ascending bs) :
    erase key bs = bs.filter fun b => b.1 ≠ key := by
  induction bs with
  | nil => rfl
  | cons b rest ih =>
    obtain ⟨k, v⟩ := b
    obtain ⟨hlt, hrest⟩ := List.pairwise_cons.1 h
    have hkeep : (∀ b ∈ rest, b.1 ≠ key) → rest.filter (fun b => !decide (b.1 = key)) = rest :=
      fun hne => List.filter_eq_self.2 fun b hb => by simp [hne b hb]
    unfold erase
    rcases Std.lt_trichotomy key k with hbelow | rfl | habove
    · have hne : k ≠ key := fun hsame => Std.lt_irrefl (hsame ▸ hbelow)
      have hlater : ∀ b ∈ rest, b.1 ≠ key := fun b hb hsame =>
        Std.lt_irrefl (hsame ▸ Std.lt_trans hbelow (hlt b hb))
      simp [hbelow, hne, hkeep hlater]
    · have hlater : ∀ b ∈ rest, b.1 ≠ key := fun b hb hsame =>
        Std.lt_irrefl (hsame ▸ hlt b hb)
      simp [Std.lt_irrefl, hkeep hlater]
    · have hne : k ≠ key := fun hsame => Std.lt_irrefl (hsame ▸ habove)
      simp [habove, Std.not_gt_of_lt habove, hne, ih hrest]

end Bindings

namespace Table

variable {κ ν : Type} [LT κ] [DecidableLT κ] [LE κ] [Std.IsLinearOrder κ] [Std.LawfulOrderLT κ]
  {t u : Table κ ν}

/-- What a table holds is what it finds. -/
theorem mem_entries {b : κ × ν} : b ∈ t.entries ↔ t.find? b.1 = some b.2 :=
  Bindings.mem_iff_find? t.ascending

/-- A table is what it finds. -/
theorem eq_of_find? (h : ∀ key, t.find? key = u.find? key) : t = u := by
  have hentries : t.entries = u.entries := Bindings.eq_of_find? t.ascending u.ascending h
  cases t
  cases u
  cases hentries
  rfl

end Table

end Strongbox
