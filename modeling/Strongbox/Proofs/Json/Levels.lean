import Strongbox.Proofs.Json.Members
import Strongbox.Proofs.Record

/-!
# Nesting that is too deep

A reader that allows more levels reads what one with fewer levels reads, and no reader makes a
value that is nested deeper than its levels.  A legible value that is too deep is therefore
refused, and the bytes of a record are read as that record exactly if its fields are not too
deep.  The main statement is `Record.parse_toBytes_cases`.
-/

set_option autoImplicit false

namespace Strongbox

namespace Json

/-! ## What was read -/

/-- Reading items comes to the end of the array, or reads one more and goes on. -/
theorem items_cases {item : Bytes → Read Value} {fuel : Nat} {done : List Value} {bs : Bytes}
    {x : List Value × Bytes} (h : items item (fuel + 1) done bs = .ok x) :
    (∃ rest, nextItem done.isEmpty bs = .ok (none, rest) ∧ x = (done.reverse, rest.tail)) ∨
      ∃ start next v rest, nextItem done.isEmpty bs = .ok (some start, next) ∧
        item start = .ok (v, rest) ∧ items item fuel (v :: done) rest = .ok x := by
  unfold items at h
  split at h
  · simp at h
  · rename_i rest hnext
    exact .inl ⟨rest, hnext, by simpa using h.symm⟩
  · rename_i start next hnext
    split at h
    · simp at h
    · rename_i v rest hitem
      exact .inr ⟨start, next, v, rest, hnext, hitem, h⟩

/-- Reading members comes to the end of the object, or reads a name and a value and goes on. -/
theorem members_cases {item : Bytes → Read Value} {fuel : Nat} {first : Bool} {done : Members}
    {bs : Bytes} {x : Members × Bytes} (h : members item (fuel + 1) first done bs = .ok x) :
    (∃ rest, nextName first bs = .ok (none, rest) ∧ x = (done, rest.tail)) ∨
      ∃ start next name behind bs' v rest, nextName first bs = .ok (some start, next) ∧
        string start = .ok (name, behind) ∧ colon behind = .ok bs' ∧ item bs' = .ok (v, rest) ∧
          members item fuel false (done.insert name v) rest = .ok x := by
  unfold members at h
  split at h
  · simp at h
  · rename_i rest hnext
    exact .inl ⟨rest, hnext, by simpa using h.symm⟩
  · rename_i start next hnext
    split at h
    · simp at h
    · rename_i name behind hname
      split at h
      · simp at h
      · rename_i bs' hcolon
        split at h
        · simp at h
        · rename_i v rest hitem
          exact .inr ⟨start, next, name, behind, bs', v, rest, hnext, hname, hcolon, hitem, h⟩

/-- A result that was mapped is the image of one. -/
theorem exists_of_map_ok {ε α β : Type} {r : Except ε α} {f : α → β} {y : β}
    (h : r.map f = .ok y) : ∃ x, r = .ok x ∧ y = f x := by
  cases r with
  | error e => simp [Except.map] at h
  | ok x => exact ⟨x, rfl, by simpa [Except.map] using h.symm⟩

/-- A value that was read is no container, and is read with any number of levels, or it is a
container whose brackets take one level. -/
theorem value_cases {levels : Nat} {bs : Bytes} {x : Value × Bytes}
    (h : value levels bs = .ok x) :
    (x.1.depth = 0 ∧ ∀ others, value others bs = .ok x) ∨
    (∃ d rest vs r, levels = d + 1 ∧ skipBlanks bs = 91 :: rest ∧
      items (value d) (rest.length + 1) [] rest = .ok (vs, r) ∧ x = (.array vs, r)) ∨
    ∃ d rest ms r, levels = d + 1 ∧ skipBlanks bs = 123 :: rest ∧
      members (value d) (rest.length + 1) true [] rest = .ok (ms, r) ∧ x = (.object ms, r) := by
  cases hskip : skipBlanks bs with
  | nil =>
    unfold value at h
    simp [hskip, halt] at h
  | cons b rest =>
    by_cases harray : b = 91
    · subst harray
      rw [← value_skipBlanks, hskip] at h
      cases levels with
      | zero => simp [value, skipBlanks_cons, isBlank, isDigit, halt] at h
      | succ d =>
        rw [value_array] at h
        obtain ⟨y, hitems, hx⟩ := exists_of_map_ok h
        exact .inr (.inl ⟨d, rest, y.1, y.2, rfl, rfl, hitems, hx⟩)
    · by_cases hobject : b = 123
      · subst hobject
        rw [← value_skipBlanks, hskip] at h
        cases levels with
        | zero => simp [value, skipBlanks_cons, isBlank, isDigit, halt] at h
        | succ d =>
          rw [value_object] at h
          obtain ⟨y, hmembers, hx⟩ := exists_of_map_ok h
          exact .inr (.inr ⟨d, rest, y.1, y.2, rfl, rfl, hmembers, hx⟩)
      · have hsame : ∀ others, value others bs = value levels bs := by
          intro others
          unfold value
          simp [hskip, harray, hobject]
        refine .inl ⟨?_, fun others => (hsame others).trans h⟩
        unfold value at h
        simp only [hskip, harray, hobject, if_false] at h
        split_ifs at h
        case neg => simp [halt] at h
        all_goals
          obtain ⟨y, -, rfl⟩ := exists_of_map_ok h
          rfl

/-! ## More levels -/

section More

variable {item more : Bytes → Read Value}
  (hmore : ∀ bs x, item bs = .ok x → more bs = .ok x)

include hmore

/-- What reads the items of an array reads them also where more is read. -/
theorem items_of_more {fuel : Nat} {done : List Value} {bs : Bytes} {x : List Value × Bytes}
    (h : items item fuel done bs = .ok x) : items more fuel done bs = .ok x := by
  induction fuel generalizing done bs with
  | zero => simp [items, halt] at h
  | succ fuel ih =>
    rcases items_cases h with ⟨rest, hnext, rfl⟩ | ⟨start, next, v, rest, hnext, hitem, hrest⟩
    · simp [items, hnext]
    · rw [items_step rfl hnext (hmore start _ hitem)]
      exact ih hrest

/-- So with the members of an object. -/
theorem members_of_more {fuel : Nat} {first : Bool} {done : Members} {bs : Bytes}
    {x : Members × Bytes} (h : members item fuel first done bs = .ok x) :
    members more fuel first done bs = .ok x := by
  induction fuel generalizing first done bs with
  | zero => simp [members, halt] at h
  | succ fuel ih =>
    rcases members_cases h with ⟨rest, hnext, rfl⟩ |
      ⟨start, next, name, behind, bs', v, rest, hnext, hname, hcolon, hitem, hrest⟩
    · simp [members, hnext]
    · simp only [members, hnext, hname, hcolon, hmore bs' _ hitem]
      exact ih hrest

end More

/-- A value that is read is read the same with one more level allowed. -/
theorem value_succ {levels : Nat} {bs : Bytes} {x : Value × Bytes}
    (h : value levels bs = .ok x) : value (levels + 1) bs = .ok x := by
  induction levels generalizing bs x with
  | zero =>
    rcases value_cases h with
      ⟨-, hsame⟩ | ⟨d, rest, vs, r, hlevels, -⟩ | ⟨d, rest, ms, r, hlevels, -⟩
    · exact hsame 1
    · omega
    · omega
  | succ levels ih =>
    rcases value_cases h with ⟨-, hsame⟩ | ⟨d, rest, vs, r, hlevels, hskip, hitems, rfl⟩ |
      ⟨d, rest, ms, r, hlevels, hskip, hmembers, rfl⟩
    · exact hsame (levels + 2)
    · obtain rfl : levels = d := by omega
      rw [← value_skipBlanks, hskip, value_array, items_of_more (fun _ _ => ih) hitems]
      rfl
    · obtain rfl : levels = d := by omega
      rw [← value_skipBlanks, hskip, value_object, members_of_more (fun _ _ => ih) hmembers]
      rfl

/-- Or with any number of them. -/
theorem value_of_le {levels more : Nat} (hle : levels ≤ more) {bs : Bytes} {x : Value × Bytes}
    (h : value levels bs = .ok x) : value more bs = .ok x := by
  induction more, hle using Nat.le_induction with
  | base => exact h
  | succ more _ ih => exact value_succ ih

/-! ## No deeper than the levels -/

/-- Items are nested no deeper than all of them are. -/
theorem Value.depthOfItems_le_iff (vs : List Value) (d : Nat) :
    depthOfItems vs ≤ d ↔ ∀ v ∈ vs, v.depth ≤ d := by
  induction vs with
  | nil => simp [depthOfItems]
  | cons v vs ih =>
    rw [List.forall_mem_cons, ← ih]
    exact Nat.max_le

section Depth

variable {item : Bytes → Read Value} {d : Nat}
  (hitem : ∀ bs v rest, item bs = .ok (v, rest) → v.depth ≤ d)

include hitem

/-- Items that are read one by one are nested no deeper than each of them. -/
theorem depthOfItems_le {fuel : Nat} {done : List Value} {bs : Bytes} {x : List Value × Bytes}
    (hdone : ∀ v ∈ done, v.depth ≤ d) (h : items item fuel done bs = .ok x) :
    Value.depthOfItems x.1 ≤ d := by
  induction fuel generalizing done bs with
  | zero => simp [items, halt] at h
  | succ fuel ih =>
    rcases items_cases h with ⟨rest, -, rfl⟩ | ⟨start, next, v, rest, -, hv, hrest⟩
    · rw [Value.depthOfItems_le_iff]
      simpa using hdone
    · refine ih ?_ hrest
      exact List.forall_mem_cons.2 ⟨hitem start v rest hv, hdone⟩

/-- So are members. -/
theorem depthOfMembers_le {fuel : Nat} {first : Bool} {done : Members} {bs : Bytes}
    {x : Members × Bytes} (hdone : ∀ m ∈ done, m.2.depth ≤ d)
    (h : members item fuel first done bs = .ok x) : Value.depthOfMembers x.1 ≤ d := by
  induction fuel generalizing first done bs with
  | zero => simp [members, halt] at h
  | succ fuel ih =>
    rcases members_cases h with ⟨rest, -, rfl⟩ |
      ⟨start, next, name, behind, bs', v, rest, -, -, -, hv, hrest⟩
    · exact (Value.depthOfMembers_le_iff _ d).2 hdone
    · refine ih ?_ hrest
      intro m hm
      rcases Bindings.mem_of_mem_insert hm with rfl | hm
      · exact hitem bs' v rest hv
      · exact hdone m hm

end Depth

/-- No value that is read is nested deeper than the reader's levels. -/
theorem depth_le_of_value {levels : Nat} {bs : Bytes} {v : Value} {rest : Bytes}
    (h : value levels bs = .ok (v, rest)) : v.depth ≤ levels := by
  induction levels generalizing bs v rest with
  | zero =>
    rcases value_cases h with ⟨hzero, -⟩ | ⟨d, _, _, _, hlevels, -⟩ | ⟨d, _, _, _, hlevels, -⟩
    · exact Nat.le_of_eq hzero
    · omega
    · omega
  | succ levels ih =>
    rcases value_cases h with ⟨hzero, -⟩ | ⟨d, _, vs, r, hlevels, -, hitems, hv⟩ |
      ⟨d, _, ms, r, hlevels, -, hmembers, hv⟩
    · dsimp only at hzero
      omega
    · obtain rfl : levels = d := by omega
      obtain ⟨rfl, -⟩ := Prod.mk.inj hv
      exact Nat.succ_le_succ (depthOfItems_le (fun _ _ _ => ih) (by simp) hitems)
    · obtain rfl : levels = d := by omega
      obtain ⟨rfl, -⟩ := Prod.mk.inj hv
      exact Nat.succ_le_succ (depthOfMembers_le (fun _ _ _ => ih) (by simp) hmembers)

/-- The members of a legible object are read only if they are not too deep. -/
theorem depthOfMembers_le_of_text {levels : Nat} {ms : Members} {rest : Bytes} {fuel : Nat}
    {x : Members × Bytes} (hasc : Bindings.Ascending ms) (hms : Value.LegibleMembers ms)
    (hfuel : ms.length < fuel)
    (h : members (value levels) fuel true []
      (Utf8.encodeChars (Value.textOfMembers ms) ++ 125 :: rest) = .ok x) :
    Value.depthOfMembers ms ≤ levels := by
  rcases Nat.le_total (Value.depthOfMembers ms) levels with hle | hle
  · exact hle
  · -- With more levels the members are read as they are, and with these they are the same.
    have hdeep := members_text _ rest ms hasc hms (Nat.le_refl _) fuel hfuel
    have hsame := members_of_more (fun _ _ => value_of_le hle) h
    rw [hdeep] at hsame
    injection hsame with hsame
    rw [← hsame] at h
    exact depthOfMembers_le (fun _ _ _ => depth_le_of_value) (by simp) h

end Json

/-! ## Records that are too deep -/

/-- The fields and the map that they form are nested no deeper than the reader of a record
allows. -/
def Fields.IsShallow (fields : Fields) : Prop :=
  (Json.Value.object fields).depth ≤ Form.fieldLevels + 1

instance (fields : Fields) : Decidable fields.IsShallow := inferInstanceAs (Decidable (_ ≤ _))

/-- The fields stand in order and their numbers are read back, however deep they are nested. -/
def Fields.IsLegible (fields : Fields) : Prop := (Json.Value.object fields).Legible

namespace Form

/-- Legible fields that are too deep are not read. -/
theorem readFields_eq_error {fields : Fields} (hlegible : fields.IsLegible)
    (hdeep : ¬ fields.IsShallow) (rest : Bytes) :
    ∃ e, readFields (Utf8.encodeChars (Json.Value.object fields).text ++ rest) = .error e := by
  rw [Json.encodeChars_object]
  unfold readFields
  rw [Json.skipBlanks_cons (by decide)]
  dsimp only
  rw [if_pos rfl]
  generalize hmembers : Json.members (Json.value fieldLevels) _ true [] _ = r
  cases r with
  | error e => exact ⟨e, rfl⟩
  | ok x =>
    have hdepth := Json.depthOfMembers_le_of_text hlegible.1 hlegible.2
      (Json.length_textOfMembers fields rest) hmembers
    exact absurd (Nat.succ_le_succ hdepth) hdeep

end Form

namespace Record

/-- A record whose fields are too deep is not read. -/
theorem parse_toBytes_eq_error {r : Record} (hlegible : r.fields.IsLegible)
    (hdeep : ¬ r.fields.IsShallow) : ∃ e, parse r.toBytes = .error e := by
  obtain ⟨fuel, hparts⟩ := exists_parts_toBytes r
  unfold members at hparts
  rw [List.tail_cons, Json.encodeChars_tailOfMembers_cons] at hparts
  obtain ⟨e, he⟩ := Form.readFields_eq_error hlegible hdeep
    (Utf8.encodeChars (Json.Value.tailOfMembers [("created_at", .string r.createdAt.stamp),
      ("updated_at", .string r.updatedAt.stamp)]) ++ [125])
  dsimp only at hparts
  rw [Form.membersFrom_fault (Json.nextName_comma _)
    (f := ⟨"values", Form.readFields, some (.fields []), some (.fields [])⟩) rfl rfl he] at hparts
  unfold parse Form.parse
  rw [hparts]
  exact ⟨e, rfl⟩

/-- The fields are legible, and the times are instants of the calendar. -/
structure IsProper (r : Record) : Prop where
  fields : r.fields.IsLegible
  createdAt : r.createdAt.IsProper
  updatedAt : r.updatedAt.IsProper

/-- The bytes of a record are read as that record if its fields are not too deep, and else they
are not read at all. -/
theorem parse_toBytes_cases {r : Record} (h : r.IsProper) :
    (r.fields.IsShallow ∧ parse r.toBytes = .ok r) ∨
      (¬ r.fields.IsShallow ∧ ∃ e, parse r.toBytes = .error e) := by
  by_cases hshallow : r.fields.IsShallow
  · exact .inl ⟨hshallow, readsBack_of_isProper ⟨h.fields, hshallow⟩ h.createdAt h.updatedAt⟩
  · exact .inr ⟨hshallow, parse_toBytes_eq_error h.fields hshallow⟩

/-- A proper record is read as itself, if it is read at all. -/
theorem eq_of_isProper {r s : Record} (h : r.IsProper) (hparse : parse r.toBytes = .ok s) :
    r = s := by
  rcases parse_toBytes_cases h with ⟨-, hok⟩ | ⟨-, e, herror⟩
  · rw [hok] at hparse
    injection hparse
  · simp [herror] at hparse

end Record

end Strongbox
