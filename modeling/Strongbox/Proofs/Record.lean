import Strongbox.Record
import Strongbox.Proofs.Json.Values
import Strongbox.Proofs.Time.Stamp

/-!
# Records read back

The bytes of a record are read as that record, provided that its fields read back and its
time stamps are understood.  Path and fields come back unchanged whatever the time stamps
denote.
-/

set_option autoImplicit false

namespace Strongbox

open Time (Instant)

/-- The fields are legible and, with the map that they form, nested no deeper than the
reader of a document allows. -/
def Fields.ReadsBack (fields : Fields) : Prop :=
  (Json.Value.object fields).Legible ∧
    (Json.Value.object fields).depth ≤ Form.fieldLevels + 1

namespace Form

section Members

variable {form : Form} {fuel : Nat} {first : Bool} {found : List (String × Part)}
  {bs rest after : Bytes} {name : String} {f : FormField}
  (hnext : Json.nextName first bs = .ok
    (some (Utf8.encodeChars (name.toList.flatMap Json.escape) ++ 34 :: 58 :: rest),
      Utf8.encodeChars (name.toList.flatMap Json.escape) ++ 34 :: 58 :: rest))
  (hfield : (form.find? fun f => f.name = name) = some f)
  (hnew : (found.any fun p => p.1 = name) = false)

include hnext hfield hnew

/-- A known member is read in the way of its field. -/
theorem membersFrom_step {p : Part} (hread : f.read rest = .ok (p, after)) :
    membersFrom form (fuel + 1) first found bs =
      membersFrom form fuel false ((name, p) :: found) after := by
  rw [membersFrom, hnext]
  dsimp only
  rw [Json.string_escaped]
  dsimp only
  rw [hfield]
  dsimp only
  rw [hnew, if_neg Bool.false_ne_true, Json.colon_cons]
  dsimp only
  rw [hread]

/-- A known member that its field cannot read ends the reading. -/
theorem membersFrom_fault {e : Json.Fault} (hread : f.read rest = .error e) :
    membersFrom form (fuel + 1) first found bs = .error (.fault e) := by
  rw [membersFrom, hnext]
  dsimp only
  rw [Json.string_escaped]
  dsimp only
  rw [hfield]
  dsimp only
  rw [hnew, if_neg Bool.false_ne_true, Json.colon_cons]
  dsimp only
  rw [hread]

end Members

/-- A quoted text is read as that text. -/
theorem readString_quoted (s : String) (rest : Bytes) :
    readString (Utf8.encodeChars (Json.quoted s) ++ rest) = .ok (s, rest) := by
  rw [Json.encodeChars_quoted]
  unfold readString
  rw [Json.skipBlanks_cons (by decide)]
  dsimp only
  rw [if_pos rfl, Json.string_escaped]

/-- A text member is read as it was written. -/
theorem readText_string (s : String) (rest : Bytes) :
    readText (Utf8.encodeChars (Json.Value.string s).text ++ rest) = .ok (.text s, rest) := by
  unfold readText Json.Value.text
  rw [readString_quoted]
  rfl

/-- Fields that read back are read from their text. -/
theorem readFields_text {fields : Fields} (h : fields.ReadsBack) (rest : Bytes) :
    readFields (Utf8.encodeChars (Json.Value.object fields).text ++ rest) =
      .ok (.fields fields, rest) := by
  obtain ⟨⟨hascending, hlegible⟩, hdepth⟩ := h
  have hmembers := Json.members_text fieldLevels rest fields hascending hlegible
    (Nat.le_of_succ_le_succ hdepth) _ (Json.length_textOfMembers fields rest)
  rw [Json.encodeChars_object]
  unfold readFields
  rw [Json.skipBlanks_cons (by decide)]
  dsimp only
  rw [if_pos rfl, hmembers]
  rfl

/-- A time stamp is read as its instant. -/
theorem readTime_string {s : String} {t : Instant} (h : Instant.ofStamp? s = some t)
    (rest : Bytes) :
    readTime (Utf8.encodeChars (Json.Value.string s).text ++ rest) =
      .ok (.time (some t), rest) := by
  unfold readTime Json.Value.text
  rw [readString_quoted]
  dsimp only
  rw [h]

/-- A text that is no time stamp is refused as a time. -/
theorem readTime_eq_error {s : String} (h : Instant.ofStamp? s = none) (rest : Bytes) :
    readTime (Utf8.encodeChars (Json.Value.string s).text ++ rest) = Json.halt .shape rest := by
  unfold readTime Json.Value.text
  rw [readString_quoted]
  dsimp only
  rw [h]

end Form

namespace Record

/-- The members of a record's object. -/
def members (r : Record) : Json.Members :=
  [("path", .string r.path), ("values", .object r.fields),
    ("created_at", .string r.createdAt.stamp), ("updated_at", .string r.updatedAt.stamp)]

/-- A record is written as its members in braces. -/
theorem toBytes_eq (r : Record) :
    r.toBytes = 123 :: (Utf8.encodeChars (Json.Value.textOfMembers r.members) ++ [125]) := by
  unfold toBytes toJson Json.Value.toBytes Json.Value.text members
  rw [Utf8.encodeChars_cons, Utf8.encodeChars_append]
  rfl

/-- Of its times the bytes of a record show the time stamps only. -/
theorem toBytes_congr {path : String} {fields : Fields} {createdAt updatedAt createdAt' updatedAt' :
    Instant} (hcreated : createdAt'.stamp = createdAt.stamp)
    (hupdated : updatedAt'.stamp = updatedAt.stamp) :
    (Record.mk path fields createdAt' updatedAt').toBytes =
      (Record.mk path fields createdAt updatedAt).toBytes := by
  unfold toBytes toJson
  dsimp only
  rw [hcreated, hupdated]

/-- The reading of a record begins with its path. -/
theorem exists_parts_toBytes (r : Record) : ∃ fuel,
    form.readParts r.toBytes = Form.settle Form.closeObject
      (match Form.membersFrom form (fuel + 4) false [("path", .text r.path)]
          (Utf8.encodeChars (Json.Value.tailOfMembers r.members.tail) ++ [125]) with
        | .error e => .error e
        | .ok (found, rest) =>
          match Form.complete form found with
          | some ps => .ok (ps, rest)
          | none => .error (.afterEnd rest)) := by
  obtain ⟨fuel, hfuel⟩ : ∃ fuel,
      (Utf8.encodeChars (Json.Value.textOfMembers r.members) ++ [125]).length + 1 = fuel + 5 := by
    have hlength := Json.length_textOfMembers r.members []
    have hmembers : r.members.length = 4 := rfl
    exact ⟨_, (Nat.sub_add_cancel (by omega)).symm⟩
  refine ⟨fuel, ?_⟩
  unfold Form.readParts
  rw [toBytes_eq, Json.skipBlanks_cons (by decide)]
  dsimp only
  rw [if_neg (by decide), if_pos rfl]
  unfold Form.ofObject
  rw [hfuel]
  unfold members
  rw [Json.encodeChars_textOfMembers_cons]
  dsimp only
  rw [Form.membersFrom_step (Json.nextName_first _) (f := ⟨"path", Form.readText, none, none⟩)
    rfl rfl (Form.readText_string r.path _)]
  rfl

/-- The reading of a record, whose path and fields are read whatever its times are. -/
theorem parse_toBytes_eq {r : Record} (hfields : r.fields.ReadsBack) :
    parse r.toBytes =
      match Instant.ofStamp? r.createdAt.stamp with
      | none => Json.halt .shape
          (Utf8.encodeChars (Json.Value.tailOfMembers [("updated_at", .string r.updatedAt.stamp)]) ++
            [125])
      | some createdAt =>
        match Instant.ofStamp? r.updatedAt.stamp with
        | none => Json.halt .shape [125]
        | some updatedAt => .ok ⟨r.path, r.fields, createdAt, updatedAt⟩ := by
  obtain ⟨fuel, hparts⟩ := exists_parts_toBytes r
  unfold parse Form.parse
  rw [hparts]
  unfold members
  rw [List.tail_cons, Json.encodeChars_tailOfMembers_cons]
  dsimp only
  rw [Form.membersFrom_step (Json.nextName_comma _)
    (f := ⟨"values", Form.readFields, some (.fields []), some (.fields [])⟩) rfl rfl
    (Form.readFields_text hfields _), Json.encodeChars_tailOfMembers_cons]
  dsimp only
  cases hcreated : Instant.ofStamp? r.createdAt.stamp with
  | none =>
    rw [Form.membersFrom_fault (Json.nextName_comma _)
      (f := ⟨"created_at", Form.readTime, none, none⟩) rfl rfl
      (Form.readTime_eq_error hcreated _)]
    rfl
  | some createdAt =>
    rw [Form.membersFrom_step (Json.nextName_comma _)
      (f := ⟨"created_at", Form.readTime, none, none⟩) rfl rfl
      (Form.readTime_string hcreated _), Json.encodeChars_tailOfMembers_cons]
    dsimp only
    cases hupdated : Instant.ofStamp? r.updatedAt.stamp with
    | none =>
      rw [Form.membersFrom_fault (Json.nextName_comma _)
        (f := ⟨"updated_at", Form.readTime, none, none⟩) rfl rfl
        (Form.readTime_eq_error hupdated _)]
      rfl
    | some updatedAt =>
      rw [Form.membersFrom_step (Json.nextName_comma _)
        (f := ⟨"updated_at", Form.readTime, none, none⟩) rfl rfl
        (Form.readTime_string hupdated _)]
      rfl

/-- The bytes of the record are read as that record. -/
def ReadsBack (r : Record) : Prop := parse r.toBytes = .ok r

/-- A record reads back if its fields do and its times are instants of the calendar. -/
theorem readsBack_of_isProper {r : Record} (hfields : r.fields.ReadsBack)
    (hcreated : r.createdAt.IsProper) (hupdated : r.updatedAt.IsProper) : r.ReadsBack := by
  unfold ReadsBack
  rw [parse_toBytes_eq hfields, Instant.ofStamp?_stamp hcreated, Instant.ofStamp?_stamp hupdated]

/-- Path and fields are read back whatever the times are. -/
theorem eq_of_parse_toBytes {r s : Record} (hfields : r.fields.ReadsBack)
    (h : parse r.toBytes = .ok s) : s.path = r.path ∧ s.fields = r.fields := by
  rw [parse_toBytes_eq hfields] at h
  cases hcreated : Instant.ofStamp? r.createdAt.stamp with
  | none =>
    rw [hcreated] at h
    exact absurd h (by simp [Json.halt])
  | some createdAt =>
    rw [hcreated] at h
    cases hupdated : Instant.ofStamp? r.updatedAt.stamp with
    | none =>
      rw [hupdated] at h
      exact absurd h (by simp [Json.halt])
    | some updatedAt =>
      rw [hupdated] at h
      injection h with h
      rw [← h]
      exact ⟨rfl, rfl⟩

/-- A record that is parsed is accepted at its own path and refused at every other. -/
theorem ofBytes_of_parse {bytes : Bytes} {r : Record} (h : parse bytes = .ok r)
    (path : String) :
    ofBytes path bytes = if path = r.path then .ok r else .error (.pathMismatch path r.path) := by
  unfold ofBytes
  rw [h]
  dsimp only
  simp only [eq_comm]

/-- A record that reads back is read from the key that it names. -/
theorem ReadsBack.ofBytes {r : Record} (h : r.ReadsBack) :
    Record.ofBytes r.path r.toBytes = .ok r := by
  rw [ofBytes_of_parse h, if_pos rfl]

/-- A record is accepted only from the key that it names. -/
theorem ofBytes_eq_ok {path : String} {bytes : Bytes} {r : Record}
    (h : ofBytes path bytes = .ok r) : parse bytes = .ok r ∧ r.path = path := by
  unfold ofBytes at h
  cases hparse : parse bytes with
  | error fault =>
    rw [hparse] at h
    exact absurd h (by simp)
  | ok s =>
    rw [hparse] at h
    dsimp only at h
    split at h
    · rename_i hpath
      injection h with h
      rw [← h]
      exact ⟨rfl, hpath⟩
    · exact absurd h (by simp)

/-- The document of a value names the key of the value, and has the fields and both times of the
record that the value holds. -/
theorem map_toDocument_ofBytes (path : String) (bytes : Bytes) :
    (ofBytes path bytes).map toDocument = (ofBytes path bytes).map fun r =>
      { path, fields := r.fields, createdAt := some r.createdAt, updatedAt := some r.updatedAt } := by
  cases hbytes : ofBytes path bytes with
  | error error => rfl
  | ok r =>
    obtain ⟨-, rfl⟩ := ofBytes_eq_ok hbytes
    rfl

end Record

end Strongbox
