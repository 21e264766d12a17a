import Strongbox.Proofs.Bindings
import Strongbox.Proofs.Entries
import Strongbox.Proofs.Text.Order

/-!
# What an engine contains

The contents of every engine are one ascending list of entries, those of a log directory without
the keys that are no text.  Binding a key and deleting one change nothing else.
-/

set_option autoImplicit false

namespace Strongbox

/-! ## The legible part of a log directory -/

namespace LogDirectory

/-- The entries whose keys are text. -/
def legible (bs : List (Bytes × Bytes)) : List Entry := bs.filterMap fun b => (meet b).toOption

/-- An entry is met exactly at the octets of its key. -/
theorem meet_iff {b : Bytes × Bytes} {e : Entry} :
    meet b = .ok e ↔ b = (Utf8.encode e.1, e.2) := by
  constructor
  · intro h
    obtain ⟨hkey, hvalue⟩ := Contents.meet_eq_ok h
    rw [Utf8.encode_of_decode hkey, ← hvalue]
  · rintro rfl
    simp [meet, Utf8.decode_encode]

/-- An entry is legible exactly if it stands under the octets of its key. -/
theorem mem_legible {bs : List (Bytes × Bytes)} {e : Entry} :
    e ∈ legible bs ↔ (Utf8.encode e.1, e.2) ∈ bs := by
  unfold legible
  rw [List.mem_filterMap]
  constructor
  · rintro ⟨b, hb, hmeet⟩
    cases hok : meet b with
    | error fault => simp [hok, Except.toOption] at hmeet
    | ok d =>
      have hde : d = e := by simpa [hok, Except.toOption] using hmeet
      rw [← hde, ← meet_iff.1 hok]
      exact hb
  · intro hmem
    exact ⟨_, hmem, by simp [meet_iff.2 rfl, Except.toOption]⟩

/-- A legible entry in front stays in front. -/
theorem legible_cons_of_ok {b : Bytes × Bytes} {e : Entry} {bs : List (Bytes × Bytes)}
    (h : meet b = .ok e) : legible (b :: bs) = e :: legible bs := by
  simp [legible, h, Except.toOption]

/-- A choice by the octets of the keys is one by the keys. -/
theorem legible_filter (p : Bytes → Bool) (bs : List (Bytes × Bytes)) :
    legible (bs.filter fun b => p b.1) = (legible bs).filter fun e => p (Utf8.encode e.1) := by
  induction bs with
  | nil => rfl
  | cons b bs ih =>
    cases hmeet : meet b with
    | error fault =>
      have hskip : ∀ xs : List (Bytes × Bytes), legible (b :: xs) = legible xs := by
        intro xs
        simp [legible, hmeet, Except.toOption]
      rw [hskip, ← ih, List.filter_cons]
      split
      · exact hskip _
      · rfl
    | ok e =>
      have hkey : b.1 = Utf8.encode e.1 := by rw [meet_iff.1 hmeet]
      rw [legible_cons_of_ok hmeet]
      cases hp : p b.1 with
      | true =>
        have htext : p (Utf8.encode e.1) = true := by rw [← hkey, hp]
        simp [hp, htext, legible_cons_of_ok hmeet, ih]
      | false =>
        have htext : p (Utf8.encode e.1) = false := by rw [← hkey, hp]
        simp [hp, htext, ih]

/-- Legible entries stand in the order of their keys. -/
theorem ascending_legible {bs : List (Bytes × Bytes)}
    (h : bs.Pairwise fun a b => a.1 < b.1) : (legible bs).Pairwise fun d e => d.1 < e.1 := by
  unfold legible
  rw [List.pairwise_filterMap]
  refine h.imp ?_
  intro a b hab d hd e he
  have hkey : ∀ {b : Bytes × Bytes} {e : Entry}, (meet b).toOption = some e →
      b.1 = Utf8.encode e.1 := by
    intro b e he
    cases hok : meet b with
    | error fault => simp [hok, Except.toOption] at he
    | ok f =>
      have hfe : f = e := by simpa [hok, Except.toOption] using he
      rw [meet_iff.1 hok, hfe]
  rw [hkey hd, hkey he] at hab
  exact Utf8.encode_lt_encode.1 hab

end LogDirectory

/-! ## The entries of an engine -/

namespace Contents

variable {c : Contents}

/-- The entries in ascending order, without those whose keys are no text. -/
def entries (c : Contents) : List Entry :=
  match c with
  | .volatile t => t.entries
  | .treeFile t => t.entries
  | .logDirectory d => LogDirectory.legible d.entries.entries

/-- Every key is text. -/
def HasTextKeys (c : Contents) : Prop :=
  match c with
  | .volatile _ => True
  | .treeFile _ => True
  | .logDirectory d => ∀ b ∈ d.entries.entries, ∃ key, Utf8.decode b.1 = .ok key

/-- The entries stand in the order of their keys. -/
theorem ascending_entries (c : Contents) : c.entries.Pairwise fun d e => d.1 < e.1 := by
  cases c with
  | volatile t => exact t.ascending
  | treeFile t => exact t.ascending
  | logDirectory d => exact LogDirectory.ascending_legible d.entries.ascending

/-- An entry stands in the list exactly if its key is bound to its value. -/
theorem mem_entries {c : Contents} {e : Entry} : e ∈ c.entries ↔ c.value? e.1 = some e.2 := by
  cases c with
  | volatile t => exact Table.mem_entries
  | treeFile t => exact Table.mem_entries
  | logDirectory d => exact LogDirectory.mem_legible.trans Table.mem_entries

/-- A list holds the entries of the contents, in the order of the octets of their keys. -/
structure IsListedBy (c : Contents) (es : List Entry) : Prop where
  ascending : es.Pairwise fun d e => Utf8.encode d.1 < Utf8.encode e.1
  mem_iff : ∀ e, e ∈ es ↔ c.value? e.1 = some e.2

/-- The entries are such a list. -/
theorem isListedBy_entries (c : Contents) : c.IsListedBy c.entries :=
  ⟨c.ascending_entries.imp Utf8.encode_lt_encode.2, fun _ => mem_entries⟩

/-- There is one such list. -/
theorem IsListedBy.eq_entries {c : Contents} {es : List Entry} (h : c.IsListedBy es) :
    es = c.entries :=
  Bindings.eq_of_mem_iff (h.ascending.imp Utf8.encode_lt_encode.1) c.ascending_entries fun e =>
    (h.mem_iff e).trans mem_entries.symm

/-- There are no more entries than bindings. -/
theorem length_entries_le (c : Contents) : c.entries.length ≤ c.size := by
  cases c with
  | volatile t => exact Nat.le_refl _
  | treeFile t => exact Nat.le_refl _
  | logDirectory d => exact List.length_filterMap_le _ _

/-! ### Keys that are text -/

/-- Binding a text leaves only text keys. -/
theorem HasTextKeys.put (h : c.HasTextKeys) (key : String) (value : Bytes) :
    (c.put key value).HasTextKeys := by
  cases c with
  | volatile t => trivial
  | treeFile t => trivial
  | logDirectory d =>
    intro b hb
    rcases Bindings.mem_of_mem_insert hb with rfl | hb
    · exact ⟨key, Utf8.decode_encode key⟩
    · exact h b hb

/-- So does a deletion. -/
theorem HasTextKeys.delete (h : c.HasTextKeys) {key : String} {found : Bool} {after : Contents}
    (hdelete : c.delete key = .ok (found, after)) : after.HasTextKeys := by
  cases c with
  | volatile t =>
    injection hdelete with hdelete
    injection hdelete with _ hafter
    subst hafter
    trivial
  | treeFile t =>
    injection hdelete with hdelete
    injection hdelete with _ hafter
    subst hafter
    trivial
  | logDirectory d =>
    simp only [Contents.delete, LogDirectory.delete] at hdelete
    cases hlookup : d.lookup .deleting key with
    | error e => simp [hlookup, Except.map] at hdelete
    | ok x =>
      cases x with
      | none =>
        simp only [hlookup, Except.map, Except.ok.injEq, Prod.mk.injEq] at hdelete
        rw [← hdelete.2]
        exact h
      | some old =>
        simp only [hlookup, Except.map, Except.ok.injEq, Prod.mk.injEq] at hdelete
        rw [← hdelete.2]
        intro b hb
        exact h b (Bindings.mem_of_mem_erase hb)

/-- Empty contents have no other keys. -/
theorem hasTextKeys_of_size (h : c.size = 0) : c.HasTextKeys := by
  cases c with
  | volatile t => trivial
  | treeFile t => trivial
  | logDirectory d =>
    have hnil : d.entries.entries = [] := List.length_eq_zero_iff.1 h
    intro b hb
    simp [hnil] at hb

/-- An entry is held exactly if its key is bound to its value. -/
theorem holds_iff {key : String} {value : Bytes} :
    c.Holds key value ↔ c.value? key = some value := by
  refine ⟨fun h => ?_, holds_of_value?⟩
  apply mem_entries.1 (show (key, value) ∈ c.entries from ?_)
  cases c with
  | volatile t => exact h
  | treeFile t => exact h
  | logDirectory d =>
    obtain ⟨raw, hraw, hmem⟩ := h
    rw [← Utf8.encode_of_decode hraw] at hmem
    exact LogDirectory.mem_legible.2 hmem

/-- Binding a key does not change who serves the contents. -/
theorem usesWorkers_put (c : Contents) (key : String) (value : Bytes) :
    (c.put key value).usesWorkers = c.usesWorkers := by
  cases c <;> rfl

/-! ### Everything that is bound -/

/-- Everything that is stored, with the keys as the octets of which they are made. -/
def bindings (c : Contents) : List (Bytes × Bytes) :=
  match c with
  | .volatile t => t.entries.map fun e => (Utf8.encode e.1, e.2)
  | .treeFile t => t.entries.map fun e => (Utf8.encode e.1, e.2)
  | .logDirectory d => d.entries.entries

/-- Everything that is stored under other keys than the given ones. -/
def bindingsWithout (keys : List String) (c : Contents) : List (Bytes × Bytes) :=
  c.bindings.filter fun b => b.1 ∉ keys.map Utf8.encode

/-- Without no key, everything is left. -/
theorem bindingsWithout_nil (c : Contents) : c.bindingsWithout [] = c.bindings :=
  List.filter_eq_self.2 fun b _ => by simp

/-- A key that is erased from a table is gone from its bindings. -/
theorem bindings_erase_table (key : String) (t : Table String Bytes) :
    (t.erase key).entries.map (fun e => (Utf8.encode e.1, e.2)) =
      (t.entries.map fun e => (Utf8.encode e.1, e.2)).filter fun b => b.1 ≠ Utf8.encode key := by
  have herase : (t.erase key).entries = t.entries.filter fun e => e.1 ≠ key :=
    Bindings.erase_eq_filter key t.ascending
  have hencode : ∀ e : Entry, Utf8.encode e.1 = Utf8.encode key ↔ e.1 = key := fun e =>
    ⟨fun hsame => Utf8.encode_injective hsame, congrArg Utf8.encode⟩
  rw [herase, List.filter_map]
  congr 1
  apply List.filter_congr
  intro e _
  simp [hencode e]

/-- A deletion removes its key and nothing else. -/
theorem bindings_of_delete {c after : Contents} {key : String} {found : Bool}
    (h : c.delete key = .ok (found, after)) : after.bindings = c.bindingsWithout [key] := by
  have hsingle : c.bindingsWithout [key] = c.bindings.filter fun b => b.1 ≠ Utf8.encode key := by
    simp [bindingsWithout]
  rw [hsingle]
  cases c with
  | volatile t =>
    injection h with h
    injection h with _ hafter
    rw [← hafter]
    exact bindings_erase_table key t
  | treeFile t =>
    injection h with h
    injection h with _ hafter
    rw [← hafter]
    exact bindings_erase_table key t
  | logDirectory d =>
    have herase := Bindings.erase_eq_filter (Utf8.encode key) d.entries.ascending
    unfold delete LogDirectory.delete at h
    dsimp only at h
    cases hlookup : d.lookup .deleting key with
    | error e =>
      rw [hlookup] at h
      exact absurd h (by simp [Except.map])
    | ok value =>
      have hvalue : d.entries.find? (Utf8.encode key) = value := lookup_eq_ok hlookup
      rw [hlookup] at h
      cases value with
      | none =>
        -- Without a value for the key there is nothing to leave out.
        injection h with h
        injection h with _ hafter
        rw [← hafter]
        refine (List.filter_eq_self.2 fun b hb => ?_).symm
        have hne : b.1 ≠ Utf8.encode key := by
          intro hsame
          have hfound := Bindings.find?_of_mem d.entries.ascending hb
          rw [hsame] at hfound
          exact absurd (hfound.symm.trans hvalue) (by simp)
        exact decide_eq_true hne
      | some value =>
        injection h with h
        injection h with _ hafter
        rw [← hafter]
        exact herase

/-- Keys are left out one after the other. -/
theorem bindingsWithout_cons {c after : Contents} {key : String} {keys : List String}
    (h : after.bindings = c.bindingsWithout [key]) :
    after.bindingsWithout keys = c.bindingsWithout (key :: keys) := by
  unfold bindingsWithout at h ⊢
  rw [h, List.filter_filter]
  apply List.filter_congr
  intro b _
  simp [Bool.and_comm]

end Contents

/-! ## Engines without faults -/

/-- The engine answers every call, and all its keys are text. -/
structure Engine.IsSteady (e : Engine) : Prop where
  isHealthy : e.IsHealthy
  hasTextKeys : e.contents.HasTextKeys

/-- An engine stays steady with other contents that are sound and whose keys are text. -/
theorem Engine.IsSteady.withContents {e : Engine} (h : e.IsSteady) {contents : Contents}
    (hwhole : contents.IsWhole) (hworkers : contents.usesWorkers = e.contents.usesWorkers)
    (htext : contents.HasTextKeys) : ({ e with contents } : Engine).IsSteady :=
  ⟨h.isHealthy.withContents hwhole hworkers, htext⟩

end Strongbox
