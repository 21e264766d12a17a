import Strongbox.Proofs.Json.Levels

/-!
# Records written and read

A reader of JSON has 127 levels.  The main statement, `Record.ofBytes_toBytes`, says that they
are all that decides about a record: with no more levels it is read from the key that it names
and refused at every other, and with more it is not read at any key.  Nothing is asked of the
path, of the names and texts in the fields, or of the year of a time; the objects have to stand
in order, and every number has to be one that JSON can keep.
-/

set_option autoImplicit false

namespace Strongbox

namespace Json

/-- The number is an integer of 64 bits, signed or unsigned, or a float whose text is read as
that float. -/
def Number.IsKept : Number → Prop
  | .integer n => -9223372036854775808 ≤ n ∧ n < 18446744073709551616
  | .float x => (Number.float x).ReadsBack

/-- The float that was read, if there is one and nothing follows it. -/
def soleFloat? : Read Value → Option Float
  | .ok (.number (.float x), []) => some x
  | _ => none

/-- A sole float is what was read, with nothing behind it. -/
theorem eq_of_soleFloat? {r : Read Value} {x : Float} (h : soleFloat? r = some x) :
    r = .ok (.number (.float x), []) := by
  unfold soleFloat? at h
  split at h
  · injection h with h
    rw [h]
  · exact absurd h (by simp)

/-- A number that is kept is read as it was written. -/
theorem Number.IsKept.readsBack {n : Number} (h : n.IsKept) : n.ReadsBack := by
  cases n with
  | integer n => exact readsBack_integer h.1 h.2
  | float x => exact h

namespace Value

/-! ## The values within a value -/

mutual

/-- The value and all that stand in it, at any depth. -/
def parts : Value → List Value
  | .array items => .array items :: partsOfItems items
  | .object members => .object members :: partsOfMembers members
  | v => [v]

/-- The values that stand in the items of an array. -/
def partsOfItems : List Value → List Value
  | [] => []
  | v :: rest => parts v ++ partsOfItems rest

/-- The values that stand in the members of an object. -/
def partsOfMembers : List (String × Value) → List Value
  | [] => []
  | (_, v) :: rest => parts v ++ partsOfMembers rest

end

/-- What legibility asks of a value itself, whatever stands in it. -/
def IsPlain : Value → Prop
  | .number n => n.IsKept
  | .object members => Bindings.Ascending members
  | _ => True

mutual

/-- A value is legible if every value in it is plain. -/
theorem legible_of_parts (v : Value) (h : ∀ p ∈ v.parts, p.IsPlain) : v.Legible := by
  cases v with
  | null | bool _ | string _ => trivial
  | number n => exact Number.IsKept.readsBack (h _ List.mem_cons_self)
  | array items => exact legibleItems_of_parts items fun p hp => h p (List.mem_cons_of_mem _ hp)
  | object members =>
    exact ⟨h _ List.mem_cons_self,
      legibleMembers_of_parts members fun p hp => h p (List.mem_cons_of_mem _ hp)⟩

/-- Items are legible if every value in them is plain. -/
theorem legibleItems_of_parts (items : List Value) (h : ∀ p ∈ partsOfItems items, p.IsPlain) :
    LegibleItems items := by
  cases items with
  | nil => trivial
  | cons v rest =>
    exact ⟨legible_of_parts v fun p hp => h p (List.mem_append_left _ hp),
      legibleItems_of_parts rest fun p hp => h p (List.mem_append_right _ hp)⟩

/-- Members are legible if every value in them is plain. -/
theorem legibleMembers_of_parts (members : List (String × Value))
    (h : ∀ p ∈ partsOfMembers members, p.IsPlain) : LegibleMembers members := by
  cases members with
  | nil => trivial
  | cons m rest =>
    exact ⟨legible_of_parts m.2 fun p hp => h p (List.mem_append_left _ hp),
      legibleMembers_of_parts rest fun p hp => h p (List.mem_append_right _ hp)⟩

end

end Value

end Json

/-! ## Records -/

namespace Record

/-- A record nests one level more than its map of fields. -/
theorem depth_toJson (r : Record) :
    r.toJson.depth = (Json.Value.object r.fields).depth + 1 := by
  simp [toJson, Json.Value.depth, Json.Value.depthOfMembers]

/-- The fields of a record are shallow exactly if the record has at most 127 levels. -/
theorem isShallow_iff (r : Record) : r.fields.IsShallow ↔ r.toJson.depth ≤ 127 := by
  rw [depth_toJson]
  unfold Fields.IsShallow Form.fieldLevels Json.maxLevels
  omega

/-- A record of at most 127 levels is read from the key that it names and found to belong
elsewhere at every other; a deeper one is not read at any key. -/
theorem ofBytes_toBytes {r : Record}
    (hfields : ∀ p ∈ (Json.Value.object r.fields).parts, p.IsPlain)
    (hcreated : r.createdAt.IsProper) (hupdated : r.updatedAt.IsProper) (path : String) :
    (r.toJson.depth ≤ 127 → ofBytes path r.toBytes =
      if path = r.path then .ok r else .error (.pathMismatch path r.path)) ∧
    (127 < r.toJson.depth → ∃ reason, ofBytes path r.toBytes = .error (.codec path reason)) := by
  have hproper : r.IsProper := ⟨Json.Value.legible_of_parts _ hfields, hcreated, hupdated⟩
  rcases parse_toBytes_cases hproper with ⟨hshallow, hread⟩ | ⟨hdeep, fault, hfault⟩
  · have hdepth := r.isShallow_iff.1 hshallow
    exact ⟨fun _ => ofBytes_of_parse hread path, fun hlong => absurd hdepth (by omega)⟩
  · refine ⟨fun hdepth => absurd (r.isShallow_iff.2 hdepth) hdeep, fun _ => ?_⟩
    refine ⟨fault.describe r.toBytes, ?_⟩
    unfold ofBytes
    rw [hfault]

/-- A record dated to both ends of the calendar.  Beside a field of `levels` levels it has a float
and the integers at both ends of their range. -/
def deep (levels : Nat) : Record :=
  ⟨"a\"\n\u2028", [("", Nat.repeat (fun v => .array [v]) levels .null),
      ("\\", .object [("high", .number (.integer 18446744073709551615)),
        ("low", .number (.integer (-9223372036854775808)))]),
      ("é", .number (.float 0.5))],
    ⟨-8334601228800, 1⟩, ⟨8210266876799, 999000000⟩⟩

/-- Whatever stands in the record is plain, however deep it is. -/
theorem isPlain_of_mem_deep (levels : Nat) :
    ∀ p ∈ (Json.Value.object (deep levels).fields).parts, p.IsPlain := by
  have hnest : ∀ p ∈ (Nat.repeat (fun v => .array [v]) levels Json.Value.null).parts,
      p.IsPlain := by
    induction levels with
    | zero =>
      intro p hp
      obtain rfl := List.mem_singleton.1 hp
      trivial
    | succ n ih =>
      intro p hp
      rw [Nat.repeat] at hp
      unfold Json.Value.parts Json.Value.partsOfItems at hp
      rcases List.mem_cons.1 hp with rfl | hp
      · trivial
      · exact ih p (by simpa [Json.Value.partsOfItems] using hp)
  have hfloat : (Json.Number.float 0.5).IsKept := by
    have hread : Json.soleFloat? (Json.value 0 (Json.Value.number (.float 0.5)).toBytes) =
        some 0.5 := by
      decide +kernel
    exact Json.eq_of_soleFloat? hread
  have hbounds : (Json.Number.integer 18446744073709551615).IsKept ∧
      (Json.Number.integer (-9223372036854775808)).IsKept :=
    ⟨⟨by decide, by decide⟩, ⟨by decide, by decide⟩⟩
  simp only [deep, Json.Value.parts, Json.Value.partsOfMembers, List.append_nil,
    List.forall_mem_cons, List.forall_mem_append, List.not_mem_nil, false_imp_iff,
    implies_true, and_true]
  refine ⟨?_, hnest, ⟨?_, hbounds⟩, hfloat⟩
  · simp only [Json.Value.IsPlain, Bindings.Ascending, List.pairwise_cons, List.forall_mem_cons]
    decide
  · simp only [Json.Value.IsPlain, Bindings.Ascending, List.pairwise_cons, List.forall_mem_cons]
    decide

/-- With 125 levels in a field a record is read, and with one more it is not. -/
theorem ofBytes_deep :
    (deep 125).toJson.depth = 127 ∧ (deep 126).toJson.depth = 128 ∧
      ofBytes "a\"\n\u2028" (deep 125).toBytes = .ok (deep 125) ∧
      ofBytes "/" (deep 125).toBytes = .error (.pathMismatch "/" "a\"\n\u2028") ∧
      ∃ reason, ofBytes "/" (deep 126).toBytes = .error (.codec "/" reason) := by
  have hdepth : (deep 125).toJson.depth = 127 ∧ (deep 126).toJson.depth = 128 := by
    decide +kernel
  have hends : (deep 0).createdAt.IsProper ∧ (deep 0).updatedAt.IsProper :=
    ⟨⟨by decide +kernel, .inl (by decide)⟩, ⟨by decide +kernel, .inl (by decide)⟩⟩
  have hread (levels : Nat) := ofBytes_toBytes (isPlain_of_mem_deep levels) hends.1 hends.2
  refine ⟨hdepth.1, hdepth.2, ?_, ?_, (hread 126 "/").2 (by omega)⟩
  · have hown := (hread 125 (deep 125).path).1 (by omega)
    rwa [if_pos rfl] at hown
  · have hother := (hread 125 "/").1 (by omega)
    rwa [if_neg (by decide)] at hother

end Record

end Strongbox
