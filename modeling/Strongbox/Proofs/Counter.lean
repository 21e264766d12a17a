import Mathlib.Data.List.Nodup
import Strongbox.Counter
import Strongbox.Proofs.Record

/-!
# Identifiers and counters

Identifiers of a fixed width are ordered as the numbers that they denote, and what is stored
for a counter is read again.
-/

set_option autoImplicit false

namespace Strongbox

/-! ## Digits of equal number -/

namespace Time

/-- The number that is read when digits follow a number `n`. -/
def digitsBehind (n : Nat) (ds : List Char) : Nat :=
  ds.foldl (fun n c => n * 10 + (c.toNat - 48)) n

/-- A digit behind others counts as the last one. -/
theorem digitsBehind_cons (n : Nat) (c : Char) (ds : List Char) :
    digitsBehind n (c :: ds) = digitsBehind (n * 10 + (c.toNat - 48)) ds := by
  unfold digitsBehind
  rw [List.foldl_cons]

/-- The number in front decides, whatever the digits. -/
theorem digitsBehind_lt {cs ds : List Char} (hlength : cs.length = ds.length)
    (hcs : ∀ c ∈ cs, isDigit c = true) (hds : ∀ d ∈ ds, isDigit d = true) {m n : Nat}
    (h : m < n) : digitsBehind m cs < digitsBehind n ds := by
  induction cs generalizing ds m n with
  | nil =>
    rw [List.length_nil] at hlength
    rw [List.eq_nil_of_length_eq_zero hlength.symm]
    exact h
  | cons c cs ih =>
    cases ds with
    | nil => exact absurd hlength (by simp)
    | cons d ds =>
      have hc := (isDigit_iff c).1 (hcs c List.mem_cons_self)
      have hd := (isDigit_iff d).1 (hds d List.mem_cons_self)
      rw [digitsBehind_cons, digitsBehind_cons]
      apply ih
      · exact Nat.succ.inj hlength
      · exact fun c hc => hcs c (List.mem_cons_of_mem _ hc)
      · exact fun d hd => hds d (List.mem_cons_of_mem _ hd)
      · omega

/-- As many digits of a smaller number come first in the order of texts. -/
theorem lt_of_digitsBehind_lt {cs ds : List Char} (hlength : cs.length = ds.length)
    (hcs : ∀ c ∈ cs, isDigit c = true) (hds : ∀ d ∈ ds, isDigit d = true) {n : Nat}
    (h : digitsBehind n cs < digitsBehind n ds) : cs < ds := by
  induction cs generalizing ds n with
  | nil =>
    rw [List.length_nil] at hlength
    rw [List.eq_nil_of_length_eq_zero hlength.symm] at h
    exact absurd h (Nat.lt_irrefl _)
  | cons c cs ih =>
    cases ds with
    | nil => exact absurd hlength (by simp)
    | cons d ds =>
      have hc := (isDigit_iff c).1 (hcs c List.mem_cons_self)
      have hd := (isDigit_iff d).1 (hds d List.mem_cons_self)
      have hcs' : ∀ c ∈ cs, isDigit c = true := fun c hc => hcs c (List.mem_cons_of_mem _ hc)
      have hds' : ∀ d ∈ ds, isDigit d = true := fun d hd => hds d (List.mem_cons_of_mem _ hd)
      have hlength' : cs.length = ds.length := Nat.succ.inj hlength
      rw [List.cons_lt_cons_iff]
      rw [digitsBehind_cons, digitsBehind_cons] at h
      rcases Nat.lt_trichotomy c.toNat d.toNat with hlt | heq | hgt
      · exact .inl hlt
      · have hsame : c = d := Char.toNat_inj.1 heq
        rw [hsame] at h
        exact .inr ⟨hsame, ih hlength' hcs' hds' h⟩
      · have hfront : n * 10 + (d.toNat - 48) < n * 10 + (c.toNat - 48) := by omega
        have hback := digitsBehind_lt hlength'.symm hds' hcs' hfront
        omega

end Time

/-! ## Batches -/

/-- A cursor has numbers left exactly if it has not reached its ceiling. -/
theorem Cursor.isSpent_eq_false_iff {c : Cursor} : c.isSpent = false ↔ c.current < c.ceiling := by
  simp [isSpent]

/-- A spent cursor has none. -/
theorem Cursor.not_lt_of_isSpent {c : Cursor} (h : c.isSpent = true) :
    ¬ c.current < c.ceiling := by
  simpa [isSpent] using h

/-- A batch of a thousand numbers is reserved where the next one still fits a word. -/
theorem Cursor.reserve_of_lt {start : Nat} (h : start + 1000 < wordLimit) :
    reserve start = some (⟨start, start + 999⟩, start + 1000) := by
  unfold reserve batchSize
  dsimp only
  rw [if_pos h]
  rfl

/-- Near the greatest word no batch is reserved. -/
theorem Cursor.reserve_of_le {start : Nat} (h : wordLimit ≤ start + 1000) :
    reserve start = none := by
  unfold reserve batchSize
  dsimp only
  rw [if_neg (Nat.not_lt.2 h)]

/-- A reserved batch begins at its start and has a thousand numbers. -/
theorem Cursor.reserve_eq_some {start next : Nat} {cursor : Cursor}
    (h : reserve start = some (cursor, next)) :
    start + 1000 < wordLimit ∧ cursor = ⟨start, start + 999⟩ ∧ next = start + 1000 := by
  unfold reserve at h
  dsimp only at h
  split at h
  · rename_i hlimit
    injection h with h
    injection h with hcursor hnext
    exact ⟨hlimit, hcursor.symm, hnext.symm⟩
  · exact absurd h (by simp)

/-! ## Identifiers -/

namespace Counter

/-- An identifier is its number with leading zeros, as long as fifteen digits suffice. -/
theorem formatId_eq_some_iff {id : Nat} {text : String} :
    formatId id = some text ↔ id ≤ maxId ∧ String.ofList (Time.padded width id) = text := by
  unfold formatId
  split
  · rename_i hle
    rw [Option.some_inj]
    exact ⟨fun h => ⟨hle, h⟩, fun h => h.2⟩
  · rename_i hle
    constructor
    · intro h
      exact absurd h (by simp)
    · intro h
      exact absurd h.1 hle

/-- Greater numbers have no identifier. -/
theorem formatId_eq_none {id : Nat} (h : maxId < id) : formatId id = none := by
  unfold formatId
  rw [if_neg (Nat.not_le_of_gt h)]

/-- Padded to fifteen digits a number up to the greatest has exactly as many. -/
theorem length_padded_width {id : Nat} (h : id ≤ maxId) :
    (Time.padded width id).length = width := by
  apply Time.length_padded
  · decide
  · unfold maxId at h
    unfold width
    omega

/-- Identifiers are ordered as their numbers are. -/
theorem formatId_lt {m n : Nat} {s t : String} (hs : formatId m = some s)
    (ht : formatId n = some t) (h : m < n) : s < t := by
  obtain ⟨hm, rfl⟩ := formatId_eq_some_iff.1 hs
  obtain ⟨hn, rfl⟩ := formatId_eq_some_iff.1 ht
  rw [String.lt_iff, String.toList_ofList, String.toList_ofList]
  have hlength : (Time.padded width m).length = (Time.padded width n).length := by
    rw [length_padded_width hm, length_padded_width hn]
  have hvalues : Time.digitsBehind 0 (Time.padded width m) <
      Time.digitsBehind 0 (Time.padded width n) := by
    have hleft : Time.digitsBehind 0 (Time.padded width m) = m := Time.digitsValue_padded width m
    have hright : Time.digitsBehind 0 (Time.padded width n) = n := Time.digitsValue_padded width n
    rw [hleft, hright]
    exact h
  exact Time.lt_of_digitsBehind_lt hlength (fun _ => Time.isDigit_of_mem_padded)
    (fun _ => Time.isDigit_of_mem_padded) hvalues

/-- Different numbers have different identifiers. -/
theorem formatId_injective {m n : Nat} {s : String} (hm : formatId m = some s)
    (hn : formatId n = some s) : m = n := by
  obtain ⟨-, hm⟩ := formatId_eq_some_iff.1 hm
  obtain ⟨-, hn⟩ := formatId_eq_some_iff.1 hn
  have hsame : Time.padded width m = Time.padded width n :=
    String.ofList_injective (hm.trans hn.symm)
  rw [← Time.digitsValue_padded width m, hsame, Time.digitsValue_padded]

/-! ## Identifiers of drawn numbers -/

/-- The numbers that have identifiers. -/
def identified (ns : List Nat) : List Nat := ns.filter (· ≤ maxId)

/-- Of ascending numbers the first ones have identifiers. -/
theorem identified_prefix {ns : List Nat} (h : ns.Pairwise (· < ·)) : identified ns <+: ns := by
  unfold identified
  induction ns with
  | nil => exact List.nil_prefix
  | cons n ns ih =>
    rw [List.pairwise_cons] at h
    by_cases hn : n ≤ maxId
    · rw [List.filter_cons, if_pos (decide_eq_true hn), List.prefix_cons_inj]
      exact ih h.2
    · have hnone : (n :: ns).filter (· ≤ maxId) = [] := by
        rw [List.filter_eq_nil_iff]
        intro k hk
        rw [decide_eq_true_eq]
        rcases List.mem_cons.1 hk with rfl | hk
        · exact hn
        · have hlt := h.1 k hk
          omega
      rw [hnone]
      exact List.nil_prefix

/-- Numbers that have identifiers are formatted one by one. -/
theorem map_formatId_identified (ns : List Nat) :
    (identified ns).map formatId = (ns.filterMap formatId).map some := by
  unfold identified
  induction ns with
  | nil => rfl
  | cons n ns ih =>
    by_cases hn : n ≤ maxId
    · have hsome : formatId n = some (String.ofList (Time.padded width n)) :=
        formatId_eq_some_iff.2 ⟨hn, rfl⟩
      rw [List.filter_cons, if_pos (decide_eq_true hn), List.filterMap_cons_some hsome,
        List.map_cons, List.map_cons, ih, hsome]
    · have hnone := formatId_eq_none (Nat.lt_of_not_le hn)
      rw [List.filter_cons, if_neg (by rw [decide_eq_true_eq]; exact hn),
        List.filterMap_cons_none hnone]
      exact ih

/-- Different numbers have different identifiers. -/
theorem nodup_filterMap_formatId {ns : List Nat} (h : ns.Nodup) :
    (ns.filterMap formatId).Nodup :=
  List.Nodup.filterMap (fun _ _ _ hm hn => formatId_injective hm hn) h

/-- Ascending numbers have ascending identifiers. -/
theorem ascending_filterMap_formatId {ns : List Nat} (h : ns.Pairwise (· < ·)) :
    (ns.filterMap formatId).Pairwise (· < ·) := by
  rw [List.pairwise_filterMap]
  exact h.imp fun hlt s hs t ht => formatId_lt hs ht hlt

/-! ## What is stored -/

/-- The fields of a counter are read as they were written. -/
theorem readsBack_fieldsFor {next : Nat} (h : next < Cursor.wordLimit) :
    (fieldsFor next).ReadsBack := by
  have hnumber : (Json.Number.integer next).ReadsBack := by
    unfold Cursor.wordLimit at h
    apply Json.readsBack_integer
    · omega
    · omega
  refine ⟨⟨List.pairwise_singleton _ _, hnumber, trivial⟩, ?_⟩
  show 1 ≤ Form.fieldLevels + 1
  omega

/-- The number of a counter is found in its fields. -/
theorem stored?_fieldsFor {next : Nat} (h : next < Cursor.wordLimit) :
    stored? (fieldsFor next) = some next := by
  have hfind : (fieldsFor next).find? field = some (Json.Value.number (.integer next)) := by
    unfold fieldsFor Json.Members.find? Bindings.find?
    rw [if_neg (Std.lt_irrefl), if_neg (Std.lt_irrefl)]
  unfold stored?
  rw [hfind, Option.bind_some]
  unfold Json.Value.toWord?
  unfold Cursor.wordLimit at h
  dsimp only
  rw [if_pos ⟨by omega, by omega⟩, Int.toNat_natCast]

end Counter

end Strongbox
