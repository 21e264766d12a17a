import Strongbox.Host.Files
import Strongbox.Proofs.Pages
import Strongbox.Proofs.Text.Successor

/-!
# Every engine is the same ordered map

The three kinds of engines walk their entries in different ways, and an engine may have its own
listing, key scans and existence checks or make them from a scan and a read.  While nothing
fails they all answer alike: as one finite map does, whose ranges are read in ascending order of
the keys.  The main statement is `Engine.replies_eq_reference`.
-/

set_option autoImplicit false

namespace Strongbox

/-! ## The last entry of a range -/

section Ending

variable {α : Type} {p : α → Bool} {xs : List α}

/-- A predicate that holds of an ending of a list holds of its last element, if of any. -/
theorem getLast?_filter_of_ending (h : xs.Pairwise fun x y => p x = true → p y = true) :
    (xs.filter p).getLast? = xs.getLast?.filter p := by
  rcases List.eq_nil_or_concat xs with rfl | ⟨ys, z, rfl⟩
  · rfl
  · rw [List.concat_eq_append] at h ⊢
    have hys : ∀ y ∈ ys, p y = true → p z = true := fun y hy =>
      (List.pairwise_append.1 h).2.2 y hy z (by simp)
    rw [List.filter_append, List.getLast?_concat]
    cases hz : p z with
    | true => simp [hz, Option.filter]
    | false =>
      have hnone : ys.filter p = [] := by
        rw [List.filter_eq_nil_iff]
        intro y hy hpy
        simp [hys y hy hpy] at hz
      simp [hz, hnone, Option.filter]

/-- The first of a reversed list that satisfies a condition is the last that does. -/
theorem find?_reverse (xs : List α) : xs.reverse.find? p = (xs.filter p).getLast? := by
  rw [← List.head?_filter, List.filter_reverse, List.head?_reverse]

end Ending

namespace Range

variable {stem key : String}

/-- The keys of a range lie from the stem up to its end. -/
theorem isWithin_eq_begins (stem key : String) :
    Volatile.isWithin stem (successor? stem) key = begins stem key := by
  unfold Volatile.isWithin
  rw [Bool.eq_iff_iff]
  cases hupper : successor? stem with
  | none => simp [begins_iff_of_no_successor hupper]
  | some u => simp [begins_iff_of_successor hupper]

/-- The keys that are not past the end of a range are those of the range and those below it. -/
theorem begins_eq_and (stem key : String) :
    begins stem key = (decide (stem ≤ key) && !TreeFile.isPast (successor? stem) key) := by
  unfold TreeFile.isPast
  rw [Bool.eq_iff_iff]
  cases hupper : successor? stem with
  | none => simp [begins_iff_of_no_successor hupper]
  | some u => simp [begins_iff_of_successor hupper]

/-- Behind a key that is past the bound, all keys are. -/
theorem isPast_of_lt {other : String} {upper : Option String} (hlt : key < other)
    (h : TreeFile.isPast upper key = true) : TreeFile.isPast upper other = true := by
  cases upper with
  | none => simp [TreeFile.isPast] at h
  | some u =>
    have hu : ¬ key < u := by simpa [TreeFile.isPast] using h
    have hother : ¬ other < u := fun hbelow => hu (Std.lt_trans hlt hbelow)
    simp [TreeFile.isPast, hother]

end Range

namespace TreeFile

/-- The walk downwards from the end of a range comes first upon its last entry. -/
theorem last?_eq (t : Table String Bytes) (stem : String) :
    last? t stem = (t.entries.filter fun e => Range.begins stem e.1).getLast? := by
  have hdrop : t.entries.reverse.dropWhile (fun e => isPast (Range.successor? stem) e.1) =
      (t.entries.filter fun e => !isPast (Range.successor? stem) e.1).reverse := by
    rw [dropWhile_eq_filter, List.filter_reverse]
    exact List.pairwise_reverse.2 (t.ascending.imp fun hde => Range.isPast_of_lt hde)
  have hlast : last? t stem =
      (t.entries.filter fun e => !isPast (Range.successor? stem) e.1).getLast?.filter
        fun e => decide (stem ≤ e.1) := by
    unfold last?
    rw [hdrop, ← List.head?_reverse]
    cases (t.entries.filter fun e => !isPast (Range.successor? stem) e.1).reverse with
    | nil => rfl
    | cons e es => simp [Option.filter]
  rw [hlast, ← getLast?_filter_of_ending, List.filter_filter]
  · simp only [Range.begins_eq_and]
  · refine (t.ascending.filter _).imp ?_
    intro d e hde hd
    have hd : stem ≤ d.1 := by simpa using hd
    simpa using Std.le_trans hd (Std.le_of_lt hde)

end TreeFile

namespace LogDirectory

/-- The walk downwards goes on to the first key that begins with the stem. -/
theorem descend_eq {stem : String} {bs : List (Bytes × Bytes)}
    (htext : ∀ b ∈ bs, ∃ e, meet b = .ok e) (hbs : bs.Pairwise fun a b => b.1 < a.1) :
    descend stem bs = .ok ((legible bs).find? fun e => Range.begins stem e.1) := by
  induction bs with
  | nil => rfl
  | cons b bs ih =>
    obtain ⟨hlt, hrest⟩ := List.pairwise_cons.1 hbs
    obtain ⟨⟨key, value⟩, hmeet⟩ := htext b List.mem_cons_self
    have hlater := ih (fun d hd => htext d (List.mem_cons_of_mem _ hd)) hrest
    rw [legible_cons_of_ok hmeet]
    unfold descend
    rw [hmeet]
    dsimp only
    cases hbegins : Range.begins stem key with
    | true => simp [hbegins]
    | false =>
      rw [if_neg Bool.false_ne_true]
      split_ifs with hbelow
      · -- All later keys lie below this one, and so below the stem.
        have hnone : (legible bs).find? (fun e => Range.begins stem e.1) = none := by
          rw [List.find?_eq_none]
          intro e he hbegins
          have hraw := hlt _ (mem_legible.1 he)
          rw [meet_iff.1 hmeet] at hraw
          have hkey := Utf8.encode_lt_encode.1 hraw
          exact Range.not_lt_of_begins hbegins (Std.lt_trans hkey hbelow)
        simp [hbegins, hnone]
      · rw [hlater]
        simp [hbegins]

/-- In a log without damage nothing blocks a walk down. -/
theorem isBlockedDown_of_isWhole {d : LogDirectory} (h : (Contents.logDirectory d).IsWhole) :
    d.isBlockedDown = false := by
  unfold isBlockedDown
  rw [List.any_eq_false]
  intro r hr
  simp [h r hr]

/-- What is legible of a reversed log is what is legible of the log, reversed. -/
theorem legible_reverse (bs : List (Bytes × Bytes)) :
    legible bs.reverse = (legible bs).reverse :=
  List.filterMap_reverse

/-- Leaving out keys past the end of a range leaves its entries. -/
theorem find?_legible_downFrom (d : LogDirectory) (stem : String) :
    (legible (d.downFrom (Range.successor? stem))).find? (fun e => Range.begins stem e.1) =
      (legible d.entries.entries.reverse).find? fun e => Range.begins stem e.1 := by
  cases hupper : Range.successor? stem with
  | none => rfl
  | some u =>
    show (legible (d.entries.entries.reverse.dropWhile fun b => Utf8.encode u < b.1)).find? _ = _
    generalize d.entries.entries.reverse = bs
    induction bs with
    | nil => rfl
    | cons b bs ih =>
      by_cases hpast : Utf8.encode u < b.1
      · rw [List.dropWhile_cons_of_pos (by simpa using hpast), ih]
        cases hmeet : meet b with
        | error fault => simp [legible, hmeet, Except.toOption]
        | ok e =>
          have hout : Range.begins stem e.1 = false := by
            rw [meet_iff.1 hmeet] at hpast
            have hkey := Utf8.encode_lt_encode.1 hpast
            rw [Bool.eq_false_iff]
            intro hbegins
            exact Std.not_gt_of_lt hkey ((Range.begins_iff_of_successor hupper).1 hbegins).2
          rw [legible_cons_of_ok hmeet]
          simp [hout]
      · rw [List.dropWhile_cons_of_neg (by simpa using hpast)]

end LogDirectory

/-- A whole engine whose keys are all text answers with the last entry of the range. -/
theorem Contents.last_of_isWhole {c : Contents} (h : c.IsWhole) (htext : c.HasTextKeys)
    (stem : String) :
    c.last stem = .ok (c.entries.filter fun e => Range.begins stem e.1).getLast? := by
  cases c with
  | volatile t =>
    show Except.ok (Volatile.last? t stem) = _
    unfold Volatile.last?
    simp only [Range.isWithin_eq_begins]
    rfl
  | treeFile t => exact congrArg Except.ok (TreeFile.last?_eq t stem)
  | logDirectory d =>
    have hsub : (d.downFrom (Range.successor? stem)).Sublist d.entries.entries.reverse := by
      unfold LogDirectory.downFrom
      split
      · exact List.dropWhile_sublist _
      · exact List.Sublist.refl _
    unfold last LogDirectory.last?
    dsimp only
    rw [LogDirectory.isBlockedDown_of_isWhole h, if_neg Bool.false_ne_true, LogDirectory.descend_eq,
      LogDirectory.find?_legible_downFrom, LogDirectory.legible_reverse, find?_reverse]
    · rfl
    · intro b hb
      obtain ⟨key, hkey⟩ := htext b (List.mem_reverse.1 (hsub.subset hb))
      exact ⟨(key, b.2), by simp [LogDirectory.meet, hkey]⟩
    · exact (List.pairwise_reverse.2 d.entries.ascending).sublist hsub

/-! ## The answers of an engine without faults -/

namespace Engine.IsHealthy

variable {e : Engine} (h : e.IsHealthy)

include h

/-- A healthy engine deletes every key and tells whether it was bound. -/
theorem exists_delete (key : String) :
    ∃ contents, e.contents.delete key = .ok ((e.value? key).isSome, contents) ∧
      Engine.delete key e = .ok (e.value? key).isSome { e with contents } := by
  obtain ⟨contents, -, hcall⟩ := h.delete key
  obtain ⟨face, ⟨found, contents', hdelete, hrun⟩ | ⟨error, hrun⟩⟩ :=
    update_outcome .delete key (·.delete key) e
  · have hsame := hcall.symm.trans hrun
    injection hsame with hfound hengine
    injection hengine with hcontents
    exact ⟨contents, hfound ▸ hcontents ▸ hdelete, hcall⟩
  · exact absurd (hcall.symm.trans hrun) (by simp)

variable (htext : e.contents.HasTextKeys)

include htext

/-- Engines with and without an operation for it answer a listing alike. -/
theorem list (stem : String) :
    list stem e = .ok ((e.contents.ahead stem none).map (·.1)) e := by
  unfold Engine.list byFace
  split
  · rw [h.scanKeys htext]
    rfl
  · rw [Call.bind_ok (h.consult .list stem)]
    unfold inspect Contents.list Contents.scanKeys
    rw [if_pos h.isReachable]
    dsimp only
    rw [Contents.scan_of_isWhole h.isWhole htext]
    rfl

/-- A healthy engine answers the last entry of a range. -/
theorem last (stem : String) :
    last stem e =
      .ok (e.contents.entries.filter fun e => Range.begins stem e.1).getLast? e := by
  unfold Engine.last
  rw [Call.bind_ok (h.consult .last stem)]
  unfold inspect
  rw [if_pos h.isReachable]
  dsimp only
  rw [Contents.last_of_isWhole h.isWhole htext]

end Engine.IsHealthy

/-! ## Engines after they were opened again -/

namespace Contents

variable {c : Contents}

/-- An engine that is opened again binds every key as before. -/
theorem value?_openContents (c : Contents) (key : String) :
    (Host.openContents c []).value? key = c.value? key := by
  cases c with
  | volatile t => rfl
  | treeFile t => rfl
  | logDirectory d =>
    have hentries : d.reopened.reopened.entries = d.entries := by
      unfold LogDirectory.reopened
      split_ifs <;> rfl
    show d.reopened.reopened.entries.find? _ = _
    rw [hentries]
    rfl

/-- Its keys are still texts. -/
theorem hasTextKeys_openContents (h : c.HasTextKeys) : (Host.openContents c []).HasTextKeys := by
  cases c with
  | volatile t => trivial
  | treeFile t => trivial
  | logDirectory d =>
    have hentries : d.reopened.reopened.entries = d.entries := by
      unfold LogDirectory.reopened
      split_ifs <;> rfl
    show ∀ b ∈ d.reopened.reopened.entries.entries, _
    rw [hentries]
    exact h

/-- A log without damage has none after it is opened again. -/
theorem isWhole_reopened {d : LogDirectory} (h : (logDirectory d).IsWhole) :
    (logDirectory d.reopened).IsWhole := by
  unfold LogDirectory.reopened
  split_ifs
  · exact h
  · intro r hr
    rcases List.mem_cons.1 hr with rfl | hr
    · rfl
    · exact h r hr

/-- Nor has any other engine. -/
theorem isWhole_openContents (h : c.IsWhole) : (Host.openContents c []).IsWhole := by
  cases c with
  | volatile t => trivial
  | treeFile t => trivial
  | logDirectory d => exact isWhole_reopened (isWhole_reopened h)

/-- An engine that is opened again works in the same way. -/
theorem usesWorkers_openContents (c : Contents) :
    (Host.openContents c []).usesWorkers = c.usesWorkers := by
  cases c <;> rfl

end Contents

/-! ## Questions and their answers -/

/-- Lets go of an engine and opens it again. -/
def Engine.reopen : EngineCall Unit := fun e =>
  .ok () { e with contents := Host.openContents e.contents [] }

/-- What an engine may be asked to do. -/
inductive Query where
  | get (key : String)
  | put (key : String) (value : Bytes)
  | delete (key : String)
  | exists (key : String)
  | list (stem : String)
  | scan (stem : String) (after : Option String) (limit : Nat)
  | scanKeys (stem : String) (after : Option String) (limit : Nat)
  | last (stem : String)
  /-- The engine is let go of and opened again; the volatile engine has no such thing, and is
  left alone. -/
  | reopen

/-- What an engine may answer. -/
inductive Reply where
  | value (x : Option Bytes)
  | done
  | found (answer : Bool)
  | keys (ks : List String)
  | entries (es : List Entry)
  | entry (x : Option Entry)
  deriving DecidableEq

namespace Query

/-- What an engine answers. -/
def ask : Query → EngineCall Reply
  | .get key => do
    let x ← Engine.get key
    pure (.value x)
  | .put key value => do
    Engine.put key value
    pure .done
  | .delete key => do
    let found ← Engine.delete key
    pure (.found found)
  | .exists key => do
    let found ← Engine.exists? key
    pure (.found found)
  | .list stem => do
    let ks ← Engine.list stem
    pure (.keys ks)
  | .scan stem after limit => do
    let es ← Engine.scan stem after limit
    pure (.entries es)
  | .scanKeys stem after limit => do
    let ks ← Engine.scanKeys stem after limit
    pure (.keys ks)
  | .last stem => do
    let x ← Engine.last stem
    pure (.entry x)
  | .reopen => do
    Engine.reopen
    pure .done

end Query

namespace Table

/-- The entries whose keys begin with a stem and, if one is given, lie after a key, in ascending
order. -/
def range (stem : String) (after : Option String) (t : Table String Bytes) : List Entry :=
  t.entries.filter fun e => Range.begins stem e.1 && after.all fun a => a < e.1

/-- What a finite map answers. -/
def reply (t : Table String Bytes) : Query → Reply
  | .get key => .value (t.find? key)
  | .put _ _ => .done
  | .delete key => .found (t.contains key)
  | .exists key => .found (t.contains key)
  | .list stem => .keys ((t.range stem none).map (·.1))
  | .scan stem after limit => .entries (Range.cut limit (t.range stem after))
  | .scanKeys stem after limit => .keys ((Range.cut limit (t.range stem after)).map (·.1))
  | .last stem => .entry (t.range stem none).getLast?
  | .reopen => .done

/-- What becomes of a finite map. -/
def effect (t : Table String Bytes) : Query → Table String Bytes
  | .put key value => t.insert key value
  | .delete key => t.erase key
  | _ => t

/-- What a finite map answers to one question after the other. -/
def replies (t : Table String Bytes) : List Query → List Reply
  | [] => []
  | q :: qs => t.reply q :: replies (t.effect q) qs

end Table

/-- What an engine answers to one question after the other. -/
def Engine.replies (e : Engine) : List Query → List (Except StorageError Reply)
  | [] => []
  | q :: qs => Call.answer (q.ask e) :: replies (Call.after (q.ask e)) qs

/-! ## The engine and the map -/

/-- An engine without faults holds the entries of a finite map. -/
structure Engine.Represents (e : Engine) (t : Table String Bytes) : Prop where
  isSteady : e.IsSteady
  value?_eq : ∀ key, e.value? key = t.find? key

namespace Engine.Represents

variable {e : Engine} {t : Table String Bytes}

/-- The entries of the map are those of the engine. -/
theorem entries_eq (h : e.Represents t) : t.entries = e.contents.entries := by
  refine Contents.IsListedBy.eq_entries ⟨t.ascending.imp Utf8.encode_lt_encode.2, ?_⟩
  intro x
  have hvalue : e.contents.value? x.1 = t.find? x.1 := h.value?_eq x.1
  rw [hvalue]
  exact Table.mem_entries

/-- What is ahead of a key is the same in both. -/
theorem ahead_eq (h : e.Represents t) (stem : String) (after : Option String) :
    e.contents.ahead stem after = t.range stem after := by
  unfold Contents.ahead Range.ahead Table.range
  rw [h.entries_eq]
  refine List.filter_congr ?_
  intro x _
  cases after with
  | none => rfl
  | some a =>
    have hnot : (!decide (x.1 ≤ a)) = decide (a < x.1) := by
      rw [Bool.eq_iff_iff]
      simp
    simp [LogDirectory.isSeen, hnot]

/-- So is the last entry of a range. -/
theorem last_eq (h : e.Represents t) (stem : String) :
    (e.contents.entries.filter fun x => Range.begins stem x.1).getLast? =
      (t.range stem none).getLast? := by
  unfold Table.range
  simp [h.entries_eq]

/-- Binding a key in both leaves them alike. -/
theorem insert (h : e.Represents t) (key : String) (value : Bytes) :
    ({ e with contents := e.contents.put key value } : Engine).Represents (t.insert key value) := by
  refine ⟨?_, ?_⟩
  · exact h.isSteady.withContents (h.isSteady.isHealthy.isWhole.put key value)
      (Contents.usesWorkers_put _ key value) (h.isSteady.hasTextKeys.put key value)
  · intro other
    by_cases hsame : other = key
    · rw [hsame]
      exact (Contents.value?_put_self _ key value).trans
        (Table.find?_insert_self key value t).symm
    · exact (Contents.value?_put_of_ne _ value hsame).trans
        ((h.value?_eq other).trans (Table.find?_insert_of_ne value t hsame).symm)

/-- So does removing one. -/
theorem erase (h : e.Represents t) {key : String} {found : Bool} {contents : Contents}
    (hdelete : e.contents.delete key = .ok (found, contents)) :
    ({ e with contents } : Engine).Represents (t.erase key) := by
  have hdeletes := Contents.deletes_of_delete hdelete
  refine ⟨?_, ?_⟩
  · exact h.isSteady.withContents (hdeletes.isWhole h.isSteady.isHealthy.isWhole)
      hdeletes.usesWorkers (h.isSteady.hasTextKeys.delete hdelete)
  · intro other
    by_cases hsame : other = key
    · rw [hsame]
      exact hdeletes.value?_self.trans (Table.find?_erase_self key t).symm
    · exact (hdeletes.value?_of_ne other hsame).trans
        ((h.value?_eq other).trans (Table.find?_erase_of_ne t hsame).symm)

/-- So does opening the engine again. -/
theorem reopened (h : e.Represents t) :
    ({ e with contents := Host.openContents e.contents [] } : Engine).Represents t := by
  refine ⟨?_, ?_⟩
  · exact h.isSteady.withContents (Contents.isWhole_openContents h.isSteady.isHealthy.isWhole)
      (Contents.usesWorkers_openContents _)
      (Contents.hasTextKeys_openContents h.isSteady.hasTextKeys)
  · intro key
    exact (Contents.value?_openContents _ key).trans (h.value?_eq key)

/-- The engine answers as the map does, and represents it after each question. -/
theorem ask (h : e.Represents t) (q : Query) :
    ∃ f, q.ask e = .ok (t.reply q) f ∧ f.Represents (t.effect q) := by
  have hhealthy := h.isSteady.isHealthy
  have htext := h.isSteady.hasTextKeys
  -- A question is one call of the engine with its answer wrapped.
  cases q with
  | get key =>
    refine ⟨e, ?_, h⟩
    show (Engine.get key >>= fun x => pure (Reply.value x)) e = _
    rw [Call.bind_ok (hhealthy.get key), h.value?_eq key]
    rfl
  | put key value =>
    exact ⟨_, Call.bind_ok (f := fun _ => pure Reply.done) (hhealthy.put key value),
      h.insert key value⟩
  | delete key =>
    obtain ⟨contents, hdelete, hcall⟩ := hhealthy.exists_delete key
    refine ⟨{ e with contents }, ?_, h.erase hdelete⟩
    show (Engine.delete key >>= fun found => pure (Reply.found found)) e = _
    rw [Call.bind_ok hcall, h.value?_eq key]
    rfl
  | «exists» key =>
    refine ⟨e, ?_, h⟩
    show (Engine.exists? key >>= fun found => pure (Reply.found found)) e = _
    rw [Call.bind_ok (hhealthy.exists? key), h.value?_eq key]
    rfl
  | list stem =>
    refine ⟨e, ?_, h⟩
    show (Engine.list stem >>= fun ks => pure (Reply.keys ks)) e = _
    rw [Call.bind_ok (hhealthy.list htext stem), h.ahead_eq]
    rfl
  | scan stem after limit =>
    refine ⟨e, ?_, h⟩
    show (Engine.scan stem after limit >>= fun es => pure (Reply.entries es)) e = _
    rw [Call.bind_ok (hhealthy.scan htext), h.ahead_eq]
    rfl
  | scanKeys stem after limit =>
    refine ⟨e, ?_, h⟩
    show (Engine.scanKeys stem after limit >>= fun ks => pure (Reply.keys ks)) e = _
    rw [Call.bind_ok (hhealthy.scanKeys htext), h.ahead_eq]
    rfl
  | last stem =>
    refine ⟨e, ?_, h⟩
    show (Engine.last stem >>= fun x => pure (Reply.entry x)) e = _
    rw [Call.bind_ok (hhealthy.last htext stem), h.last_eq]
    rfl
  | reopen => exact ⟨_, rfl, h.reopened⟩

/-- The engine answers a list of queries as the map does. -/
theorem replies_eq (h : e.Represents t) (qs : List Query) :
    e.replies qs = (t.replies qs).map .ok := by
  induction qs generalizing e t with
  | nil => rfl
  | cons q qs ih =>
    obtain ⟨f, hask, hf⟩ := h.ask q
    show Call.answer (q.ask e) :: replies (Call.after (q.ask e)) qs = _
    rw [hask]
    exact congrArg _ (ih hf)

end Engine.Represents

/-- An engine of any kind that has no faults and whose keys are all text answers every question
as one finite map does, which has its entries. -/
theorem Engine.replies_eq_reference {e : Engine} (h : e.IsSteady) :
    ∃ t : Table String Bytes, (∀ key, t.find? key = e.value? key) ∧
      ∀ qs, e.replies qs = (t.replies qs).map .ok := by
  let t : Table String Bytes := ⟨e.contents.entries, e.contents.ascending_entries⟩
  have hfind : ∀ key, t.find? key = e.value? key := by
    intro key
    apply Option.ext
    intro value
    have hmem : (key, value) ∈ t.entries ↔ e.value? key = some value := Contents.mem_entries
    exact ⟨fun hfind => hmem.1 (Bindings.mem_of_find? hfind),
      fun hvalue => Bindings.find?_of_mem t.ascending (hmem.2 hvalue)⟩
  have ht : e.Represents t := ⟨h, fun key => (hfind key).symm⟩
  exact ⟨t, hfind, ht.replies_eq⟩

/-- A log directory that makes its listings from scans is written to, opened again, and asked
for the keys after one that stands in the range, after one before it and after one behind it. -/
theorem Engine.replies_of_reopened_log :
    let e : Engine := { contents := .logDirectory .empty, face := .minimal [] }
    let qs : List Query :=
      [.put "/a/1" [1], .put "/a" [2], .reopen, .delete "/a", .put "/a/2" [3],
        .scan "/a" (some "/a/1") 0, .scanKeys "/a" (some "/") 1, .scanKeys "/a" (some "/b") 0,
        .list "/", .last "/a/"]
    e.IsSteady ∧
      e.replies qs = [.ok .done, .ok .done, .ok .done, .ok (.found true), .ok .done,
        .ok (.entries [("/a/2", [3])]), .ok (.keys ["/a/1"]), .ok (.keys []),
        .ok (.keys ["/a/1", "/a/2"]), .ok (.entry (some ("/a/2", [3])))] ∧
      ∃ t : Table String Bytes, (∀ key, t.find? key = e.value? key) ∧
        e.replies qs = (t.replies qs).map .ok := by
  intro e qs
  have hsteady : e.IsSteady := by
    refine ⟨⟨.inr (.inr rfl), rfl, ?_⟩, ?_⟩
    · intro r hr
      exact absurd hr List.not_mem_nil
    · intro b hb
      exact absurd hb List.not_mem_nil
  obtain ⟨t, hfind, hreplies⟩ := replies_eq_reference hsteady
  refine ⟨hsteady, ?_, t, hfind, hreplies qs⟩
  unfold qs e
  decide +kernel

end Strongbox
