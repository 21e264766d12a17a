import Strongbox.Proofs.Contents

/-!
# Pages of a range

The entries of an engine stand in one ascending list, whatever the engine.  A page of a range
is the beginning of what that list holds of the range after a key, and an engine without
damage, whose keys are all text, answers with it.
-/

set_option autoImplicit false

namespace Strongbox

/-! ## Predicates that hold of a beginning of a list -/

section Beginning

variable {α : Type} {p : α → Bool} {xs : List α}

/-- Where the condition fails at the beginning, it fails throughout. -/
theorem filter_eq_nil_of_beginning {x : α} (hx : p x = false)
    (h : ∀ y ∈ xs, p y = true → p x = true) : xs.filter p = [] := by
  rw [List.filter_eq_nil_iff]
  intro y hy hpy
  have hpx := h y hy hpy
  simp [hx] at hpx

/-- Where the condition once lost stays lost, its beginning is all that satisfies it. -/
theorem takeWhile_eq_filter (h : xs.Pairwise fun x y => p y = true → p x = true) :
    xs.takeWhile p = xs.filter p := by
  induction xs with
  | nil => rfl
  | cons x xs ih =>
    obtain ⟨hx, hxs⟩ := List.pairwise_cons.1 h
    by_cases hp : p x = true
    · simp [hp, ih hxs]
    · have hp : p x = false := by simpa using hp
      simp [hp, filter_eq_nil_of_beginning hp hx]

/-- And what is dropped with the beginning is all that does not. -/
theorem dropWhile_eq_filter (h : xs.Pairwise fun x y => p y = true → p x = true) :
    xs.dropWhile p = xs.filter fun x => !p x := by
  induction xs with
  | nil => rfl
  | cons x xs ih =>
    obtain ⟨hx, hxs⟩ := List.pairwise_cons.1 h
    by_cases hp : p x = true
    · simp [hp, ih hxs]
    · have hp : p x = false := by simpa using hp
      have hall : ∀ y ∈ xs, (!p y) = true := by
        intro y hy
        have hpy := mt (hx y hy)
        simpa [hp] using hpy
      simp [hp, List.filter_eq_self.2 hall]

end Beginning

/-! ## What is ahead in a range -/

namespace Range

/-- The entries of a range after a key. -/
def ahead (stem : String) (after : Option String) (es : List Entry) : List Entry :=
  es.filter fun e => begins stem e.1 && !LogDirectory.isSeen after e.1

variable {stem : String} {after : Option String} {es : List Entry}

/-- An entry is ahead if its key begins as the range does and was not seen. -/
theorem mem_ahead {e : Entry} :
    e ∈ ahead stem after es ↔
      e ∈ es ∧ begins stem e.1 = true ∧ LogDirectory.isSeen after e.1 = false := by
  simp [ahead]

/-- In ascending order, the keys of a range that are not below its start stand first. -/
theorem takeWhile_begins (hes : es.Pairwise fun d e => d.1 < e.1)
    (hlow : ∀ e ∈ es, ¬ e.1 < stem) :
    es.takeWhile (fun e => begins stem e.1) = es.filter fun e => begins stem e.1 := by
  apply takeWhile_eq_filter
  refine hes.imp_of_mem ?_
  intro d e hd _ hde hbegins
  exact begins_of_between (hlow d hd) (Std.not_gt_of_lt hde) hbegins

/-- In front of a key that is below, all keys are. -/
theorem isBelow_of_lt {key other : String} (hlt : key < other)
    (h : isBelow stem after other = true) : isBelow stem after key = true := by
  cases after with
  | none =>
    simp only [isBelow, decide_eq_true_eq] at h ⊢
    exact Std.lt_trans hlt h
  | some a =>
    by_cases ha : stem ≤ a
    · simp only [isBelow, ha, if_true, decide_eq_true_eq] at h ⊢
      exact Std.le_trans (Std.le_of_lt hlt) h
    · simp only [isBelow, ha, if_false, decide_eq_true_eq] at h ⊢
      exact Std.lt_trans hlt h

/-- A key that is not below does not come before the range. -/
theorem not_lt_of_not_isBelow {key : String} (h : isBelow stem after key = false) :
    ¬ key < stem := by
  cases after with
  | none => simpa [isBelow] using h
  | some a =>
    by_cases ha : stem ≤ a
    · simp only [isBelow, ha, if_true, decide_eq_false_iff_not] at h
      exact fun hlt => h (Std.le_trans (Std.le_of_lt hlt) ha)
    · simpa [isBelow, ha] using h

/-- In a range, the keys that are not below the start of a scan are those not yet seen. -/
theorem isBelow_eq_isSeen {key : String} (h : begins stem key = true) :
    isBelow stem after key = LogDirectory.isSeen after key := by
  have hlow := not_lt_of_begins h
  unfold isBelow LogDirectory.isSeen
  cases after with
  | none => simpa using hlow
  | some a =>
    dsimp only
    split
    · rfl
    · rename_i ha
      have hkey : ¬ key ≤ a := fun hle => ha (Std.le_trans (Std.not_lt.1 hlow) hle)
      simp [hlow, hkey]

/-- The walk of a scan meets what is ahead, and then leaves the range. -/
theorem takeWhile_dropWhile_eq_ahead (hes : es.Pairwise fun d e => d.1 < e.1) :
    ((es.dropWhile fun e => isBelow stem after e.1).takeWhile fun e => begins stem e.1) =
      ahead stem after es := by
  have hdrop : es.dropWhile (fun e => isBelow stem after e.1) =
      es.filter fun e => !isBelow stem after e.1 := by
    apply dropWhile_eq_filter
    exact hes.imp fun hde hbelow => isBelow_of_lt hde hbelow
  rw [hdrop, takeWhile_begins (hes.filter _), List.filter_filter]
  · unfold ahead
    refine List.filter_congr ?_
    intro e _
    cases hbegins : begins stem e.1 with
    | false => rfl
    | true => rw [isBelow_eq_isSeen hbegins]
  · intro e he
    have hbelow : isBelow stem after e.1 = false := by simpa using (List.mem_filter.1 he).2
    exact not_lt_of_not_isBelow hbelow

/-- A key before the range comes before its start. -/
theorem lt_start_of_lt {key : String} (h : key < stem) : key < start stem after := by
  unfold start
  cases after with
  | none => exact h
  | some a =>
    dsimp only
    split
    · rename_i ha
      exact Std.lt_of_lt_of_le h ha
    · exact h

/-- The keys of a range that are not yet seen do not lie below the start of a scan. -/
theorem not_lt_start {key : String} (h : begins stem key = true)
    (hseen : LogDirectory.isSeen after key = false) : ¬ key < start stem after := by
  have hlow := not_lt_of_begins h
  unfold start
  cases after with
  | none => exact hlow
  | some a =>
    have hkey : ¬ key ≤ a := by simpa [LogDirectory.isSeen] using hseen
    dsimp only
    split
    · exact fun hlt => hkey (Std.le_of_lt hlt)
    · exact hlow

/-- A first entry of the range is ahead unless its key was seen. -/
theorem ahead_cons_of_begins {e : Entry} (h : begins stem e.1 = true) :
    ahead stem after (e :: es) =
      if LogDirectory.isSeen after e.1 then ahead stem after es
      else e :: ahead stem after es := by
  unfold ahead
  cases hseen : LogDirectory.isSeen after e.1 with
  | true => simp [h, hseen]
  | false => simp [h, hseen]

end Range

/-! ## Pages of the three engines -/

namespace TreeFile

/-- A page is the beginning of the range, up to its limit. -/
theorem page_eq_take (stem : String) (limit taken : Nat) (es : List Entry) :
    page stem limit taken es =
      if limit = 0 then es.takeWhile fun e => Range.begins stem e.1
      else (es.takeWhile fun e => Range.begins stem e.1).take (limit - taken) := by
  induction es generalizing taken with
  | nil => simp [page]
  | cons e es ih =>
    simp only [page]
    by_cases hlimit : limit = 0
    · subst hlimit
      cases hbegins : Range.begins stem e.1 with
      | false => simp [hbegins]
      | true => simp [hbegins, ih]
    · by_cases hfull : limit ≤ taken
      · have hzero : limit - taken = 0 := by omega
        simp [hlimit, hfull, hzero]
      · have hroom : limit - taken = limit - (taken + 1) + 1 := by omega
        cases hbegins : Range.begins stem e.1 with
        | false => simp [hlimit, hfull, hbegins]
        | true => simp [hlimit, hfull, hbegins, ih, hroom]

end TreeFile

namespace LogDirectory

/-- A walk upwards passes over what lies below its start. -/
theorem dropWhile_below (d : LogDirectory) (first : Bytes) :
    (d.entries.entries.dropWhile fun b => b.1 < first) =
      d.entries.entries.filter fun b => !decide (b.1 < first) := by
  apply dropWhile_eq_filter
  refine d.entries.ascending.imp ?_
  intro a b hab hb
  simp only [decide_eq_true_eq] at hb ⊢
  exact Std.lt_trans hab hb

variable {stem : String} {after : Option String} {limit : Nat}

/-- A page that is answered is the beginning of what is ahead, less what it already holds. -/
theorem page_eq_ok {bs : List (Bytes × Bytes)} {taken : Nat} {es : List Entry}
    (hbs : bs.Pairwise fun a b => a.1 < b.1) (hlow : ∀ e ∈ legible bs, ¬ e.1 < stem)
    (h : page stem after limit taken bs = .ok es) :
    es = if limit = 0 then Range.ahead stem after (legible bs)
      else (Range.ahead stem after (legible bs)).take (limit - taken) := by
  induction bs generalizing taken es with
  | nil =>
    injection h with h
    simp [← h, legible, Range.ahead]
  | cons b bs ih =>
    simp only [page] at h
    split at h
    · rename_i hfull
      injection h with h
      have hzero : limit - taken = 0 := by omega
      simp [← h, hfull.1, hzero]
    · rename_i hroom
      cases hmeet : meet b with
      | error fault => simp [hmeet] at h
      | ok e =>
        obtain ⟨key, value⟩ := e
        have hcons : legible (b :: bs) = (key, value) :: legible bs := legible_cons_of_ok hmeet
        have hasc := ascending_legible hbs
        have hbehind := (List.pairwise_cons.1 hbs).2
        have hlater : ∀ e ∈ legible bs, ¬ e.1 < stem := fun e he =>
          hlow e (hcons ▸ List.mem_cons_of_mem _ he)
        rw [hcons] at hasc hlow ⊢
        simp only [hmeet] at h
        cases hbegins : Range.begins stem key with
        | false =>
          -- No later key begins with the stem, since the keys that do stand together.
          have hnone : Range.ahead stem after ((key, value) :: legible bs) = [] := by
            unfold Range.ahead
            rw [List.filter_eq_nil_iff]
            intro e he hahead
            simp only [Bool.and_eq_true] at hahead
            rcases List.mem_cons.1 he with rfl | hmem
            · simp [hbegins] at hahead
            · have hlt := (List.pairwise_cons.1 hasc).1 e hmem
              have hkey := Range.begins_of_between (hlow _ List.mem_cons_self)
                (Std.not_gt_of_lt hlt) hahead.1
              simp [hbegins] at hkey
          have hes : es = [] := by simpa [hbegins] using h
          simp [hnone, hes]
        | true =>
          -- An entry that was seen before takes no room on the page.
          rw [Range.ahead_cons_of_begins hbegins]
          cases hseen : isSeen after key with
          | true =>
            simp only [hbegins, hseen, Bool.not_true, if_true, Bool.false_eq_true,
              if_false] at h ⊢
            exact ih hbehind hlater h
          | false =>
            simp only [hbegins, hseen, Bool.not_true, Bool.false_eq_true, if_false] at h ⊢
            cases hpage : page stem after limit (taken + 1) bs with
            | error fault => simp [hpage] at h
            | ok rest =>
              have hes : (key, value) :: rest = es := by simpa [hpage] using h
              rw [← hes, ih hbehind hlater hpage]
              by_cases hlimit : limit = 0
              · simp [hlimit]
              · have hstep : limit - taken = limit - (taken + 1) + 1 := by omega
                simp [hlimit, hstep]

/-- Where every key is text, a page is answered. -/
theorem exists_page {bs : List (Bytes × Bytes)} (taken : Nat)
    (h : ∀ b ∈ bs, ∃ e, meet b = .ok e) : ∃ es, page stem after limit taken bs = .ok es := by
  induction bs generalizing taken with
  | nil => exact ⟨[], rfl⟩
  | cons b bs ih =>
    obtain ⟨⟨key, value⟩, hmeet⟩ := h b List.mem_cons_self
    have hrest := fun taken => ih taken fun d hd => h d (List.mem_cons_of_mem _ hd)
    obtain ⟨es, hes⟩ := hrest taken
    obtain ⟨ds, hds⟩ := hrest (taken + 1)
    simp only [page, hmeet, hes, hds]
    split_ifs <;> exact ⟨_, rfl⟩

/-- In a log without damage nothing blocks a walk from any key. -/
theorem isBlockedFrom_of_isWhole {d : LogDirectory} (h : (Contents.logDirectory d).IsWhole)
    (key : Bytes) : d.isBlockedFrom key = false := by
  unfold isBlockedFrom
  rw [List.any_eq_false]
  intro r hr
  simp [h r hr]

end LogDirectory

/-! ## The entries ahead in a range -/

namespace Contents

/-- The entries of a range after a key. -/
def ahead (c : Contents) (stem : String) (after : Option String) : List Entry :=
  Range.ahead stem after c.entries

/-- What is ahead is in the order of the keys. -/
theorem ascending_ahead (c : Contents) (stem : String) (after : Option String) :
    (c.ahead stem after).Pairwise fun d e => d.1 < e.1 :=
  c.ascending_entries.filter _

/-- There is no more ahead than the engine holds. -/
theorem length_ahead_le (c : Contents) (stem : String) (after : Option String) :
    (c.ahead stem after).length ≤ c.size :=
  Nat.le_trans (List.length_filter_le _ _) c.length_entries_le

variable {c : Contents} {stem : String} {after : Option String} {limit : Nat}

/-- The walk of a log directory starts at the place where the scan starts. -/
theorem legible_dropWhile (d : LogDirectory) :
    LogDirectory.legible
      (d.entries.entries.dropWhile fun b => b.1 < Utf8.encode (Range.start stem after)) =
      (logDirectory d).entries.filter fun e => !decide (e.1 < Range.start stem after) := by
  rw [LogDirectory.dropWhile_below,
    LogDirectory.legible_filter fun raw => !decide (raw < Utf8.encode (Range.start stem after))]
  simp only [Utf8.encode_lt_encode]
  rfl

/-- What the walk of a log directory meets of the range is what is ahead. -/
theorem ahead_filter_start (es : List Entry) :
    Range.ahead stem after (es.filter fun e => !decide (e.1 < Range.start stem after)) =
      Range.ahead stem after es := by
  unfold Range.ahead
  rw [List.filter_filter]
  refine List.filter_congr ?_
  intro e _
  cases hahead : Range.begins stem e.1 && !LogDirectory.isSeen after e.1 with
  | false => rfl
  | true =>
    simp only [Bool.and_eq_true] at hahead
    simpa using Range.not_lt_start hahead.1 (by simpa using hahead.2)

/-- A page that is answered is the beginning of what is ahead. -/
theorem scan_eq_ok {es : List Entry} (h : c.scan stem after limit = .ok es) :
    es = Range.cut limit (c.ahead stem after) := by
  cases c with
  | volatile t =>
    injection h with h
    rw [← h]
    unfold Volatile.scan
    rw [Range.takeWhile_dropWhile_eq_ahead t.ascending]
    rfl
  | treeFile t =>
    injection h with h
    rw [← h]
    unfold TreeFile.scan
    rw [TreeFile.page_eq_take, Range.takeWhile_dropWhile_eq_ahead t.ascending]
    rfl
  | logDirectory d =>
    unfold scan LogDirectory.scan at h
    dsimp only at h
    split at h
    · simp at h
    · have hes := LogDirectory.page_eq_ok ?_ ?_ h
      · rw [hes, legible_dropWhile, ahead_filter_start]
        rfl
      · exact d.entries.ascending.sublist (List.dropWhile_sublist _)
      · intro e he
        rw [legible_dropWhile] at he
        have hstart : ¬ e.1 < Range.start stem after := by
          simpa using (List.mem_filter.1 he).2
        exact fun hlt => hstart (Range.lt_start_of_lt hlt)

/-- A whole engine whose keys are all text answers with the beginning of what is ahead. -/
theorem scan_of_isWhole (h : c.IsWhole) (htext : c.HasTextKeys) :
    c.scan stem after limit = .ok (Range.cut limit (c.ahead stem after)) := by
  have hanswer : ∃ es, c.scan stem after limit = .ok es := by
    cases c with
    | volatile t => exact ⟨_, rfl⟩
    | treeFile t => exact ⟨_, rfl⟩
    | logDirectory d =>
      unfold scan LogDirectory.scan
      dsimp only
      rw [LogDirectory.isBlockedFrom_of_isWhole h, if_neg Bool.false_ne_true]
      apply LogDirectory.exists_page
      intro b hb
      obtain ⟨key, hkey⟩ := htext b ((List.dropWhile_suffix _).subset hb)
      exact ⟨(key, b.2), by simp [LogDirectory.meet, hkey]⟩
  obtain ⟨es, hes⟩ := hanswer
  rw [hes, ← scan_eq_ok hes]

end Contents

/-! ## Calls for a page -/

namespace Engine

variable {stem : String} {after : Option String} {limit : Nat} {e f : Engine}

/-- A page that an engine answers is the beginning of what is ahead. -/
theorem scan_eq_ok {es : List Entry} (h : scan stem after limit e = .ok es f) :
    es = Range.cut limit (e.contents.ahead stem after) ∧ f.contents = e.contents := by
  obtain ⟨face, ⟨ds, contents, ⟨hscan, hcontents⟩, hrun⟩ | ⟨error, hrun⟩⟩ :=
    inspect_outcome .scan stem (·.scan stem after limit) e
  · have hsame : scan stem after limit e = .ok ds { e with face, contents } := hrun
    rw [h] at hsame
    injection hsame with hds hf
    rw [hds, hf]
    exact ⟨Contents.scan_eq_ok hscan, hcontents⟩
  · have hsame : scan stem after limit e = .error error { e with face } := hrun
    rw [h] at hsame
    simp at hsame

/-- The keys that an engine answers are those of the page, whether or not it has a call for
keys. -/
theorem scanKeys_eq_ok {keys : List String} (h : scanKeys stem after limit e = .ok keys f) :
    keys = (Range.cut limit (e.contents.ahead stem after)).map (·.1) ∧
      f.contents = e.contents := by
  unfold scanKeys byFace at h
  split at h
  · obtain ⟨es, g, hscan, hpure⟩ := Call.exists_of_bind_ok h
    obtain ⟨hes, hcontents⟩ := scan_eq_ok hscan
    injection hpure with hkeys hf
    rw [← hkeys, ← hf, ← hes]
    exact ⟨rfl, hcontents⟩
  · obtain ⟨face, ⟨ds, contents, ⟨hscan, hcontents⟩, hrun⟩ | ⟨error, hrun⟩⟩ :=
      inspect_outcome .scanKeys stem (·.scanKeys stem after limit) e
    · rw [hrun] at h
      injection h with hds hf
      unfold Contents.scanKeys at hscan
      cases hpage : e.contents.scan stem after limit with
      | error error => simp [hpage, Except.map] at hscan
      | ok es =>
        have hkeys : es.map (·.1) = ds := by simpa [hpage, Except.map] using hscan
        rw [← hds, ← hf, ← hkeys, ← Contents.scan_eq_ok hpage]
        exact ⟨rfl, hcontents⟩
    · rw [hrun] at h
      simp at h

namespace IsHealthy

variable (h : e.IsHealthy) (htext : e.contents.HasTextKeys)

include h htext

/-- A healthy engine answers every page of entries. -/
theorem scan : scan stem after limit e =
    .ok (Range.cut limit (e.contents.ahead stem after)) e := by
  unfold Engine.scan
  rw [Call.bind_ok (h.consult .scan stem)]
  unfold inspect
  rw [if_pos h.isReachable]
  dsimp only
  rw [Contents.scan_of_isWhole h.isWhole htext]

/-- It answers every page of keys. -/
theorem scanKeys : scanKeys stem after limit e =
    .ok ((Range.cut limit (e.contents.ahead stem after)).map (·.1)) e := by
  unfold Engine.scanKeys byFace
  split
  · rw [Call.bind_ok (h.scan htext)]
    rfl
  · rw [Call.bind_ok (h.consult .scanKeys stem)]
    unfold inspect Contents.scanKeys
    rw [if_pos h.isReachable]
    dsimp only
    rw [Contents.scan_of_isWhole h.isWhole htext]
    rfl

end IsHealthy

end Engine

end Strongbox
