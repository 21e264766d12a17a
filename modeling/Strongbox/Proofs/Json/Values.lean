import Strongbox.Proofs.Bindings
import Strongbox.Proofs.Json.Numbers
import Strongbox.Proofs.Json.Strings

/-!
# Values in a text

A value is read back from its text if its numbers are, if the members of its objects are
in order, and if it is nested no deeper than the reader allows.
-/

set_option autoImplicit false

namespace Strongbox

namespace Json

namespace Value

mutual

/-- Every number of the value reads back, and the members of its objects are in order. -/
def Legible : Value → Prop
  | .number n => n.ReadsBack
  | .array items => LegibleItems items
  | .object members => Bindings.Ascending members ∧ LegibleMembers members
  | _ => True

/-- Every item is legible. -/
def LegibleItems : List Value → Prop
  | [] => True
  | v :: rest => Legible v ∧ LegibleItems rest

/-- The value of every member is legible. -/
def LegibleMembers : List (String × Value) → Prop
  | [] => True
  | (_, v) :: rest => Legible v ∧ LegibleMembers rest

end

/-! ## The text behind the first item or member -/

/-- The text of the items that follow the first one. -/
def tailOfItems : List Value → List Char
  | [] => []
  | v :: rest => ',' :: (text v ++ tailOfItems rest)

/-- The text of a member. -/
def textOfMember (m : String × Value) : List Char := quoted m.1 ++ ':' :: text m.2

/-- The text of the members that follow the first one. -/
def tailOfMembers : List (String × Value) → List Char
  | [] => []
  | m :: rest => ',' :: (textOfMember m ++ tailOfMembers rest)

/-- The text of items is that of the first, and of the others with commas in front. -/
theorem textOfItems_cons (v : Value) (rest : List Value) :
    textOfItems (v :: rest) = text v ++ tailOfItems rest := by
  induction rest generalizing v with
  | nil => simp [textOfItems, tailOfItems]
  | cons w rest ih => simp [textOfItems, tailOfItems, ih]

/-- The text of members is that of the first, and of the others with commas in front. -/
theorem textOfMembers_cons (m : String × Value) (rest : List (String × Value)) :
    textOfMembers (m :: rest) = textOfMember m ++ tailOfMembers rest := by
  induction rest generalizing m with
  | nil => simp [textOfMembers, textOfMember, tailOfMembers]
  | cons n rest ih => simp [textOfMembers, textOfMember, tailOfMembers, ih]

/-- Every further item takes an octet at least. -/
theorem length_tailOfItems (vs : List Value) :
    vs.length ≤ (Utf8.encodeChars (tailOfItems vs)).length := by
  induction vs with
  | nil => exact Nat.zero_le _
  | cons v vs ih =>
    unfold tailOfItems
    rw [Utf8.encodeChars_cons, Utf8.encodeChars_append, List.length_append, List.length_append]
    have hcomma : (Utf8.encodeChar ',').length = 1 := rfl
    rw [List.length_cons]
    omega

/-- So does every further member. -/
theorem length_tailOfMembers (ms : List (String × Value)) :
    ms.length ≤ (Utf8.encodeChars (tailOfMembers ms)).length := by
  induction ms with
  | nil => exact Nat.zero_le _
  | cons m ms ih =>
    unfold tailOfMembers
    rw [Utf8.encodeChars_cons, Utf8.encodeChars_append, List.length_append, List.length_append]
    have hcomma : (Utf8.encodeChar ',').length = 1 := rfl
    rw [List.length_cons]
    omega

end Value

/-! ## Moving to the next item or member -/

/-- White space is skipped all at once. -/
theorem skipBlanks_skipBlanks (bs : Bytes) : skipBlanks (skipBlanks bs) = skipBlanks bs := by
  unfold skipBlanks
  induction bs with
  | nil => rfl
  | cons b bs ih =>
    rw [List.dropWhile_cons]
    split
    · exact ih
    · rw [List.dropWhile_cons_of_neg ‹_›]

/-- A value is read the same without white space in front. -/
theorem value_skipBlanks (levels : Nat) (bs : Bytes) :
    value levels (skipBlanks bs) = value levels bs := by
  unfold value
  rw [skipBlanks_skipBlanks]

/-- No value begins with the bracket that closes an array. -/
theorem exists_of_value {levels : Nat} {bs : Bytes} {x : Value × Bytes}
    (h : value levels bs = .ok x) : ∃ b rest, skipBlanks bs = b :: rest ∧ b ≠ 93 := by
  cases hskip : skipBlanks bs with
  | nil =>
    unfold value at h
    rw [hskip] at h
    exact absurd h (by simp [halt])
  | cons b rest =>
    refine ⟨b, rest, rfl, ?_⟩
    rintro rfl
    unfold value at h
    rw [hskip] at h
    exact absurd h (by simp [halt, isDigit])

/-- The first item of an array begins where a value does. -/
theorem nextItem_first {levels : Nat} {bs : Bytes} {x : Value × Bytes}
    (h : value levels bs = .ok x) :
    nextItem true bs = .ok (some (skipBlanks bs), skipBlanks bs) := by
  obtain ⟨b, rest, hskip, hb⟩ := exists_of_value h
  unfold nextItem
  rw [hskip]
  dsimp only
  rw [if_neg hb, if_pos rfl]

/-- Another item of an array begins behind a comma. -/
theorem nextItem_comma {levels : Nat} {bs : Bytes} {x : Value × Bytes}
    (h : value levels bs = .ok x) :
    nextItem false (44 :: bs) = .ok (some (skipBlanks bs), skipBlanks bs) := by
  obtain ⟨b, rest, hskip, hb⟩ := exists_of_value h
  unfold nextItem
  rw [skipBlanks_cons (by decide)]
  dsimp only
  rw [if_neg (by decide), if_neg (by decide), if_neg (by decide), hskip]
  dsimp only
  rw [if_neg hb]

/-- A closing bracket ends the items. -/
theorem nextItem_end (first : Bool) (rest : Bytes) :
    nextItem first (93 :: rest) = .ok (none, 93 :: rest) := by
  unfold nextItem
  rw [skipBlanks_cons (by decide)]
  rfl

/-- The first name begins with its quotation mark. -/
theorem nextName_first (bs : Bytes) : nextName true (34 :: bs) = .ok (some bs, bs) := by
  unfold nextName
  rw [skipBlanks_cons (by decide)]
  rfl

/-- Further names begin behind a comma. -/
theorem nextName_comma (bs : Bytes) : nextName false (44 :: 34 :: bs) = .ok (some bs, bs) := by
  unfold nextName
  rw [skipBlanks_cons (by decide)]
  dsimp only
  rw [skipBlanks_cons (by decide)]
  rfl

/-- A closing brace ends the members. -/
theorem nextName_end (first : Bool) (rest : Bytes) :
    nextName first (125 :: rest) = .ok (none, 125 :: rest) := by
  unfold nextName
  rw [skipBlanks_cons (by decide)]
  rfl

/-- A colon parts the name from its value. -/
theorem colon_cons (bs : Bytes) : colon (58 :: bs) = .ok bs := by
  unfold colon
  rw [skipBlanks_cons (by decide)]
  rfl

/-- An item that was read is kept, and the next one is looked for. -/
theorem items_step {item : Bytes → Read Value} {fuel : Nat} {first : Bool} {done : List Value}
    {bs start next rest : Bytes} {v : Value} (hfirst : done.isEmpty = first)
    (hnext : nextItem first bs = .ok (some start, next)) (hitem : item start = .ok (v, rest)) :
    items item (fuel + 1) done bs = items item fuel (v :: done) rest := by
  rw [items, hfirst, hnext]
  dsimp only
  rw [hitem]

/-- A member that was read is kept, and the next one is looked for. -/
theorem members_step {item : Bytes → Read Value} {fuel : Nat} {first : Bool} {done : Members}
    {bs rest after : Bytes} {name : String} {v : Value}
    (hnext : nextName first bs = .ok
      (some (Utf8.encodeChars (name.toList.flatMap escape) ++ 34 :: 58 :: rest),
        Utf8.encodeChars (name.toList.flatMap escape) ++ 34 :: 58 :: rest))
    (hitem : item rest = .ok (v, after)) :
    members item (fuel + 1) first done bs =
      members item fuel false (done.insert name v) after := by
  rw [members, hnext]
  dsimp only
  rw [string_escaped]
  dsimp only
  rw [colon_cons]
  dsimp only
  rw [hitem]

/-! ## Reading what was written -/

/-- A member is written as its name in quotation marks, a colon and its value. -/
theorem encodeChars_textOfMember (m : String × Value) (rest : Bytes) :
    Utf8.encodeChars (Value.textOfMember m) ++ rest =
      34 :: (Utf8.encodeChars (m.1.toList.flatMap escape) ++
        34 :: 58 :: (Utf8.encodeChars m.2.text ++ rest)) := by
  unfold Value.textOfMember
  rw [Utf8.encodeChars_append, List.append_assoc, encodeChars_quoted, Utf8.encodeChars_cons]
  rfl

/-- An object is written as its members in braces. -/
theorem encodeChars_object (ms : Members) (rest : Bytes) :
    Utf8.encodeChars (Value.object ms).text ++ rest =
      123 :: (Utf8.encodeChars (Value.textOfMembers ms) ++ 125 :: rest) := by
  unfold Value.text
  rw [Utf8.encodeChars_cons, Utf8.encodeChars_append, List.append_assoc, List.append_assoc]
  rfl

/-- A comma is one octet. -/
theorem encodeChars_comma (cs : List Char) (rest : Bytes) :
    Utf8.encodeChars (',' :: cs) ++ rest = 44 :: (Utf8.encodeChars cs ++ rest) := rfl

/-- The first of several members is written in front of the others. -/
theorem encodeChars_textOfMembers_cons (m : String × Value) (ms : List (String × Value))
    (rest : Bytes) :
    Utf8.encodeChars (Value.textOfMembers (m :: ms)) ++ rest =
      34 :: (Utf8.encodeChars (m.1.toList.flatMap escape) ++
        34 :: 58 :: (Utf8.encodeChars m.2.text ++
          (Utf8.encodeChars (Value.tailOfMembers ms) ++ rest))) := by
  rw [Value.textOfMembers_cons, Utf8.encodeChars_append, List.append_assoc,
    encodeChars_textOfMember]

/-- Every further member is written behind a comma. -/
theorem encodeChars_tailOfMembers_cons (m : String × Value) (ms : List (String × Value))
    (rest : Bytes) :
    Utf8.encodeChars (Value.tailOfMembers (m :: ms)) ++ rest =
      44 :: 34 :: (Utf8.encodeChars (m.1.toList.flatMap escape) ++
        34 :: 58 :: (Utf8.encodeChars m.2.text ++
          (Utf8.encodeChars (Value.tailOfMembers ms) ++ rest))) := by
  rw [Value.tailOfMembers, encodeChars_comma, Utf8.encodeChars_append, List.append_assoc,
    encodeChars_textOfMember]

/-- What follows an item ends it. -/
theorem ends_tailOfItems (vs : List Value) (rest : Bytes) :
    Ends (Utf8.encodeChars (Value.tailOfItems vs) ++ 93 :: rest) := by
  cases vs with
  | nil => exact ends_cons (by decide)
  | cons v vs =>
    unfold Value.tailOfItems
    rw [encodeChars_comma]
    exact ends_cons (by decide)

/-- What follows a member ends it. -/
theorem ends_tailOfMembers (ms : List (String × Value)) (rest : Bytes) :
    Ends (Utf8.encodeChars (Value.tailOfMembers ms) ++ 125 :: rest) := by
  cases ms with
  | nil => exact ends_cons (by decide)
  | cons m ms =>
    unfold Value.tailOfMembers
    rw [encodeChars_comma]
    exact ends_cons (by decide)

/-- A quoted text is read as that text. -/
theorem value_string (levels : Nat) (s : String) (rest : Bytes) :
    value levels (Utf8.encodeChars (quoted s) ++ rest) = .ok (.string s, rest) := by
  rw [encodeChars_quoted]
  unfold value
  rw [skipBlanks_cons (by decide)]
  show (string _).map _ = _
  rw [string_escaped]
  rfl

/-- An array is read as the items behind its bracket. -/
theorem value_array (levels : Nat) (bs : Bytes) :
    value (levels + 1) (91 :: bs) =
      (items (value levels) (bs.length + 1) [] bs).map fun x => (.array x.1, x.2) := by
  rw [value, skipBlanks_cons (by decide)]
  rfl

/-- An object is read as the members behind its brace. -/
theorem value_object (levels : Nat) (bs : Bytes) :
    value (levels + 1) (123 :: bs) =
      (members (value levels) (bs.length + 1) true [] bs).map fun x => (.object x.1, x.2) := by
  rw [value, skipBlanks_cons (by decide)]
  rfl

/-- The text of an array has more octets than items. -/
theorem length_textOfItems (vs : List Value) (rest : Bytes) :
    vs.length < (Utf8.encodeChars (Value.textOfItems vs) ++ 93 :: rest).length + 1 := by
  cases vs with
  | nil => exact Nat.zero_lt_succ _
  | cons v vs =>
    have htail := Value.length_tailOfItems vs
    rw [Value.textOfItems_cons, Utf8.encodeChars_append, List.length_append, List.length_append,
      List.length_cons, List.length_cons]
    omega

/-- The text of an object has more octets than members. -/
theorem length_textOfMembers (ms : List (String × Value)) (rest : Bytes) :
    ms.length < (Utf8.encodeChars (Value.textOfMembers ms) ++ 125 :: rest).length + 1 := by
  cases ms with
  | nil => exact Nat.zero_lt_succ _
  | cons m ms =>
    have htail := Value.length_tailOfMembers ms
    rw [Value.textOfMembers_cons, Utf8.encodeChars_append, List.length_append, List.length_append,
      List.length_cons, List.length_cons]
    omega

mutual

/-- A legible value is read back whatever ends it. -/
theorem value_text (levels : Nat) (rest : Bytes) (hrest : Ends rest) : (v : Value) →
    v.Legible → v.depth ≤ levels →
      value levels (Utf8.encodeChars v.text ++ rest) = .ok (v, rest)
  | .null, _, _ => by
    unfold value
    rfl
  | .bool true, _, _ => by
    unfold value
    rfl
  | .bool false, _, _ => by
    unfold value
    rfl
  | .number n, hv, _ => value_number hv hrest levels
  | .string s, _, _ => value_string levels s rest
  | .array vs, hv, hdepth => by
    cases levels with
    | zero => exact absurd hdepth (Nat.not_succ_le_zero _)
    | succ levels =>
      have hitems := items_text levels rest vs hv (Nat.le_of_succ_le_succ hdepth)
      have hbytes : Utf8.encodeChars (Value.array vs).text ++ rest =
          91 :: (Utf8.encodeChars (Value.textOfItems vs) ++ 93 :: rest) := by
        unfold Value.text
        rw [Utf8.encodeChars_cons, Utf8.encodeChars_append, List.append_assoc, List.append_assoc]
        rfl
      rw [hbytes, value_array, hitems _ (length_textOfItems vs rest)]
      rfl
  | .object ms, hv, hdepth => by
    cases levels with
    | zero => exact absurd hdepth (Nat.not_succ_le_zero _)
    | succ levels =>
      have hmembers := members_text levels rest ms hv.1 hv.2 (Nat.le_of_succ_le_succ hdepth)
      rw [encodeChars_object, value_object, hmembers _ (length_textOfMembers ms rest)]
      rfl

/-- The items of an array are read back. -/
theorem items_text (levels : Nat) (rest : Bytes) : (vs : List Value) →
    Value.LegibleItems vs → Value.depthOfItems vs ≤ levels →
      ∀ fuel, vs.length < fuel → items (value levels) fuel []
        (Utf8.encodeChars (Value.textOfItems vs) ++ 93 :: rest) = .ok (vs, rest)
  | [], _, _, fuel, hfuel => by
    obtain ⟨fuel, rfl⟩ := Nat.exists_eq_add_one.2 hfuel
    show items _ _ _ (93 :: rest) = _
    rw [items, nextItem_end]
    rfl
  | v :: vs, hvs, hdepth, fuel, hfuel => by
    obtain ⟨fuel, rfl⟩ := Nat.exists_eq_add_one.2 (Nat.zero_lt_of_lt hfuel)
    have hmax : v.depth ≤ levels ∧ Value.depthOfItems vs ≤ levels := Nat.max_le.1 hdepth
    have hv := value_text levels (Utf8.encodeChars (Value.tailOfItems vs) ++ 93 :: rest)
      (ends_tailOfItems vs rest) v hvs.1 hmax.1
    have htail := items_tail levels rest vs hvs.2 hmax.2 fuel [v]
      (Nat.lt_of_succ_lt_succ hfuel) (by simp)
    rw [Value.textOfItems_cons, Utf8.encodeChars_append, List.append_assoc,
      items_step List.isEmpty_nil (nextItem_first hv) ((value_skipBlanks levels _).trans hv)]
    exact htail

/-- The items of an array behind others are read back. -/
theorem items_tail (levels : Nat) (rest : Bytes) : (vs : List Value) →
    Value.LegibleItems vs → Value.depthOfItems vs ≤ levels →
      ∀ fuel done, vs.length < fuel → done ≠ [] → items (value levels) fuel done
        (Utf8.encodeChars (Value.tailOfItems vs) ++ 93 :: rest) = .ok (done.reverse ++ vs, rest)
  | [], _, _, fuel, done, hfuel, _ => by
    obtain ⟨fuel, rfl⟩ := Nat.exists_eq_add_one.2 hfuel
    show items _ _ _ (93 :: rest) = _
    rw [items, nextItem_end, List.append_nil]
    rfl
  | v :: vs, hvs, hdepth, fuel, done, hfuel, hdone => by
    obtain ⟨fuel, rfl⟩ := Nat.exists_eq_add_one.2 (Nat.zero_lt_of_lt hfuel)
    have hmax : v.depth ≤ levels ∧ Value.depthOfItems vs ≤ levels := Nat.max_le.1 hdepth
    have hv := value_text levels (Utf8.encodeChars (Value.tailOfItems vs) ++ 93 :: rest)
      (ends_tailOfItems vs rest) v hvs.1 hmax.1
    have htail := items_tail levels rest vs hvs.2 hmax.2 fuel (v :: done)
      (Nat.lt_of_succ_lt_succ hfuel) (by simp)
    unfold Value.tailOfItems
    rw [encodeChars_comma, Utf8.encodeChars_append, List.append_assoc,
      items_step (List.isEmpty_eq_false_iff.2 hdone) (nextItem_comma hv)
        ((value_skipBlanks levels _).trans hv), htail, List.reverse_cons, List.append_assoc]
    rfl

/-- The members of an object are read back. -/
theorem members_text (levels : Nat) (rest : Bytes) : (ms : List (String × Value)) →
    Bindings.Ascending ms → Value.LegibleMembers ms → Value.depthOfMembers ms ≤ levels →
      ∀ fuel, ms.length < fuel → members (value levels) fuel true []
        (Utf8.encodeChars (Value.textOfMembers ms) ++ 125 :: rest) = .ok (ms, rest)
  | [], _, _, _, fuel, hfuel => by
    obtain ⟨fuel, rfl⟩ := Nat.exists_eq_add_one.2 hfuel
    show members _ _ _ _ (125 :: rest) = _
    rw [members, nextName_end]
    rfl
  | (name, v) :: ms, hasc, hms, hdepth, fuel, hfuel => by
    obtain ⟨fuel, rfl⟩ := Nat.exists_eq_add_one.2 (Nat.zero_lt_of_lt hfuel)
    have hmax : v.depth ≤ levels ∧ Value.depthOfMembers ms ≤ levels := Nat.max_le.1 hdepth
    obtain ⟨hfirst, hrest⟩ := List.pairwise_cons.1 hasc
    have hv := value_text levels (Utf8.encodeChars (Value.tailOfMembers ms) ++ 125 :: rest)
      (ends_tailOfMembers ms rest) v hms.1 hmax.1
    have htail := members_tail levels rest ms hrest hms.2 hmax.2 fuel [(name, v)]
      (Nat.lt_of_succ_lt_succ hfuel) (by
        intro a ha b hb
        rw [List.mem_singleton.1 ha]
        exact hfirst b hb)
    rw [encodeChars_textOfMembers_cons, members_step (nextName_first _) hv]
    exact htail

/-- The members of an object behind others are read back. -/
theorem members_tail (levels : Nat) (rest : Bytes) : (ms : List (String × Value)) →
    Bindings.Ascending ms → Value.LegibleMembers ms → Value.depthOfMembers ms ≤ levels →
      ∀ fuel (done : Members), ms.length < fuel → (∀ a ∈ done, ∀ b ∈ ms, a.1 < b.1) →
        members (value levels) fuel false done
          (Utf8.encodeChars (Value.tailOfMembers ms) ++ 125 :: rest) = .ok (done ++ ms, rest)
  | [], _, _, _, fuel, done, hfuel, _ => by
    obtain ⟨fuel, rfl⟩ := Nat.exists_eq_add_one.2 hfuel
    show members _ _ _ _ (125 :: rest) = _
    rw [members, nextName_end, List.append_nil]
    rfl
  | (name, v) :: ms, hasc, hms, hdepth, fuel, done, hfuel, hdone => by
    obtain ⟨fuel, rfl⟩ := Nat.exists_eq_add_one.2 (Nat.zero_lt_of_lt hfuel)
    have hmax : v.depth ≤ levels ∧ Value.depthOfMembers ms ≤ levels := Nat.max_le.1 hdepth
    obtain ⟨hfirst, hrest⟩ := List.pairwise_cons.1 hasc
    have hv := value_text levels (Utf8.encodeChars (Value.tailOfMembers ms) ++ 125 :: rest)
      (ends_tailOfMembers ms rest) v hms.1 hmax.1
    have hinsert : done.insert name v = done ++ [(name, v)] :=
      Bindings.insert_of_lt v fun a ha => hdone a ha (name, v) List.mem_cons_self
    have htail := members_tail levels rest ms hrest hms.2 hmax.2 fuel (done ++ [(name, v)])
      (Nat.lt_of_succ_lt_succ hfuel) (by
        intro a ha b hb
        rcases List.mem_append.1 ha with ha | ha
        · exact hdone a ha b (List.mem_cons_of_mem _ hb)
        · rw [List.mem_singleton.1 ha]
          exact hfirst b hb)
    rw [encodeChars_tailOfMembers_cons, members_step (nextName_comma _) hv, hinsert, htail,
      List.append_assoc]
    rfl

end

end Json

end Strongbox
