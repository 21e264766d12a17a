import Strongbox.Proofs.Pages
import Strongbox.Proofs.Store.Listing

/-!
# The entries that are still to come

What a listing has still to come upon, with the engine as it stands, are the entries in its
buffer and then those ahead of the last key that it has read.  Reading a page moves entries
from the second part to the first, and every step takes the foremost one, whatever the size
of the pages.
-/

set_option autoImplicit false

namespace Strongbox

open Call (Respects)

namespace Contents

/-- Behind the last key of a page, what was ahead of the page is ahead without the page. -/
theorem ahead_of_getLast? {c : Contents} {stem : String} {after : Option String} {n : Nat}
    {e : Entry} (h : ((c.ahead stem after).take n).getLast? = some e) :
    c.ahead stem (some e.1) = (c.ahead stem after).drop n := by
  have hasc := c.ascending_ahead stem after
  have he : e ∈ (c.ahead stem after).take n := List.mem_of_getLast? h
  have hseen : LogDirectory.isSeen after e.1 = false :=
    (Range.mem_ahead.1 (List.mem_of_mem_take he)).2.2
  have hfilter : c.ahead stem (some e.1) =
      (c.ahead stem after).filter fun d => !decide (d.1 ≤ e.1) := by
    unfold ahead Range.ahead
    rw [List.filter_filter]
    refine List.filter_congr ?_
    intro d _
    have hsome : LogDirectory.isSeen (some e.1) d.1 = decide (d.1 ≤ e.1) := rfl
    by_cases hle : d.1 ≤ e.1
    · simp [hsome, hle]
    · have hd : LogDirectory.isSeen after d.1 = false := by
        cases after with
        | none => rfl
        | some a =>
          simp only [LogDirectory.isSeen, decide_eq_false_iff_not] at hseen ⊢
          exact fun hda => hle (Std.le_trans hda (Std.le_of_lt (Std.not_le.1 hseen)))
      simp [hsome, hle, hd]
  rw [← List.take_append_drop n (c.ahead stem after), List.pairwise_append] at hasc
  obtain ⟨hpage, -, hcross⟩ := hasc
  -- The page ends with `e`: its keys are at most that one, and all that follow are greater.
  have hfront : ((c.ahead stem after).take n).filter (fun d => !decide (d.1 ≤ e.1)) = [] := by
    rw [List.filter_eq_nil_iff]
    intro d hd
    have hle : d.1 ≤ e.1 := by
      obtain ⟨front, hfront⟩ := List.getLast?_eq_some_iff.1 h
      rw [hfront] at hd hpage
      rcases List.mem_append.1 hd with hmem | hmem
      · exact Std.le_of_lt ((List.pairwise_append.1 hpage).2.2 d hmem e List.mem_cons_self)
      · obtain rfl := List.mem_singleton.1 hmem
        exact Std.le_refl _
    simp [hle]
  have hback : ((c.ahead stem after).drop n).filter (fun d => !decide (d.1 ≤ e.1)) =
      (c.ahead stem after).drop n := by
    rw [List.filter_eq_self]
    intro d hd
    have hlt := hcross e he d hd
    simpa using hlt
  calc
    c.ahead stem (some e.1)
      = ((c.ahead stem after).take n ++ (c.ahead stem after).drop n).filter
          (fun d => !decide (d.1 ≤ e.1)) := by rw [List.take_append_drop, hfilter]
    _ = (c.ahead stem after).drop n := by rw [List.filter_append, hfront, hback, List.nil_append]

end Contents

namespace Listing

/-! ## Pages and the buffer as functions of the contents -/

/-- What a listing keeps of entries; one of paths keeps no values. -/
def view (l : Listing) (es : List Entry) : List Entry :=
  if l.pathsOnly then es.map fun e => (e.1, []) else es

/-- The page that a listing reads next. -/
def page (l : Listing) (c : Contents) : List Entry :=
  l.view (Range.cut l.pageSize (c.ahead l.range l.after))

/-- The listing after it has made sure that its buffer holds the next entry. -/
def refilled (l : Listing) (c : Contents) : Listing :=
  if l.buffer.isEmpty && !l.exhausted then addPage (l.page c) l else l

/-- The listing after it has taken the next entry. -/
def taken (l : Listing) (c : Contents) : Listing :=
  { l.refilled c with buffer := (l.refilled c).buffer.tail }

/-- The entries that a listing has still to come upon. -/
def pending (l : Listing) (c : Contents) : List Entry :=
  l.buffer ++ if l.exhausted then [] else l.view (c.ahead l.range l.after)

variable {l : Listing} {c : Contents}

/-- A view leaves the keys as they are. -/
theorem map_view (l : Listing) (es : List Entry) : (l.view es).map (·.1) = es.map (·.1) := by
  unfold view
  split
  · simp
  · rfl

/-- A view leaves the number of entries as it is. -/
theorem length_view (l : Listing) (es : List Entry) : (l.view es).length = es.length := by
  unfold view
  split
  · simp
  · rfl

/-- A view leaves the last key as it is. -/
theorem getLast?_view (l : Listing) (es : List Entry) :
    (l.view es).getLast?.map (·.1) = es.getLast?.map (·.1) := by
  rw [← List.getLast?_map, map_view, List.getLast?_map]

/-- The view of a list is that of its first entries and that of the others. -/
theorem view_take_append_drop (l : Listing) (n : Nat) (es : List Entry) :
    l.view (es.take n) ++ l.view (es.drop n) = l.view es := by
  unfold view
  split
  · rw [← List.map_append, List.take_append_drop]
  · rw [List.take_append_drop]

/-- Reading a page changes only how far the listing has read. -/
theorem refilled_cases (l : Listing) (c : Contents) :
    (l.refilled c = l ∧ (l.buffer ≠ [] ∨ l.exhausted = true)) ∨
      (l.refilled c = addPage (l.page c) l ∧ l.buffer = [] ∧ l.exhausted = false) := by
  unfold refilled
  split
  · rename_i h
    simp only [Bool.and_eq_true, List.isEmpty_iff, Bool.not_eq_true'] at h
    exact .inr ⟨rfl, h⟩
  · rename_i h
    simp only [Bool.and_eq_true, List.isEmpty_iff, Bool.not_eq_true', not_and,
      Bool.not_eq_false] at h
    refine .inl ⟨rfl, ?_⟩
    by_cases hbuffer : l.buffer = []
    · exact .inr (h hbuffer)
    · exact .inl hbuffer

/-- A page moves entries to the buffer and drops none. -/
theorem pending_addPage (hsize : 0 < l.pageSize) (hmore : l.exhausted = false) :
    (addPage (l.page c) l).pending c = l.pending c := by
  have hcut : Range.cut l.pageSize (c.ahead l.range l.after) =
      (c.ahead l.range l.after).take l.pageSize := by
    unfold Range.cut
    rw [if_neg (by omega)]
  have hlength : (l.page c).length = min l.pageSize (c.ahead l.range l.after).length := by
    unfold page
    rw [length_view, hcut, List.length_take]
  by_cases hshort : (l.page c).length < l.pageSize
  · -- A short page holds all that was ahead.
    have hall : l.page c = l.view (c.ahead l.range l.after) := by
      unfold page
      rw [hcut, List.take_of_length_le (by omega)]
    have hexhausted : (addPage (l.page c) l).exhausted = true := by simp [addPage, hshort]
    unfold pending
    rw [hexhausted, hmore, if_pos rfl, if_neg Bool.false_ne_true, ← hall, List.append_nil]
    rfl
  · obtain ⟨e, he⟩ : ∃ e, ((c.ahead l.range l.after).take l.pageSize).getLast? = some e := by
      cases hlast : ((c.ahead l.range l.after).take l.pageSize).getLast? with
      | some e => exact ⟨e, rfl⟩
      | none =>
        have hzero := congrArg List.length (List.getLast?_eq_none_iff.1 hlast)
        rw [List.length_take, List.length_nil] at hzero
        omega
    have hafter : (addPage (l.page c) l).after = some e.1 := by
      simp [addPage, page, getLast?_view, hcut, he]
    have hpage : l.page c = l.view ((c.ahead l.range l.after).take l.pageSize) := by
      unfold page
      rw [hcut]
    have hview : (addPage (l.page c) l).view = l.view := rfl
    have hexhausted : (addPage (l.page c) l).exhausted = false := by
      simp [addPage, hmore, hshort]
    unfold pending
    rw [hafter, hview, hexhausted, hmore, if_neg Bool.false_ne_true, if_neg Bool.false_ne_true]
    show (l.buffer ++ l.page c) ++ l.view (c.ahead l.range (some e.1)) = _
    rw [Contents.ahead_of_getLast? he, hpage, List.append_assoc, view_take_append_drop]

/-- Reading a page leaves the entries still to come as they are. -/
theorem pending_refilled (hsize : 0 < l.pageSize) : (l.refilled c).pending c = l.pending c := by
  rcases refilled_cases l c with ⟨hsame, -⟩ | ⟨hpage, -, hmore⟩
  · rw [hsame]
  · rw [hpage, pending_addPage hsize hmore]

/-- Only at the end is a refilled buffer empty. -/
theorem exhausted_of_buffer_nil (hsize : 0 < l.pageSize) (h : (l.refilled c).buffer = []) :
    (l.refilled c).exhausted = true := by
  rcases refilled_cases l c with ⟨hsame, hbuffer | hexhausted⟩ | ⟨hpage, -, -⟩
  · rw [hsame] at h
    exact absurd h hbuffer
  · rw [hsame]
    exact hexhausted
  · rw [hpage] at h ⊢
    have hnil : l.page c = [] := (List.append_eq_nil_iff.1 h).2
    simp [addPage, hnil, hsize]

/-- An empty buffer, once refilled, has nothing more to come. -/
theorem pending_of_buffer_nil (hsize : 0 < l.pageSize) (h : (l.refilled c).buffer = []) :
    l.pending c = [] := by
  rw [← pending_refilled hsize]
  simp [pending, h, exhausted_of_buffer_nil hsize h]

/-- The next entry is the foremost of those still to come. -/
theorem head?_refilled (hsize : 0 < l.pageSize) :
    (l.refilled c).buffer.head? = (l.pending c).head? := by
  cases hbuffer : (l.refilled c).buffer with
  | nil => rw [pending_of_buffer_nil hsize hbuffer]
  | cons e rest =>
    rw [← pending_refilled hsize]
    simp [pending, hbuffer]

/-- Taking an entry leaves the others still to come. -/
theorem pending_taken (hsize : 0 < l.pageSize) : (l.taken c).pending c = (l.pending c).tail := by
  cases hbuffer : (l.refilled c).buffer with
  | nil =>
    have hnil := pending_of_buffer_nil hsize hbuffer
    have hsame : l.taken c = l.refilled c := by
      unfold taken
      rw [hbuffer, List.tail_nil, ← hbuffer]
    rw [hsame, pending_refilled hsize, hnil, List.tail_nil]
  | cons e rest =>
    have htaken : (l.taken c).pending c = (l.refilled c).buffer.tail ++
        if (l.refilled c).exhausted then []
        else (l.refilled c).view (c.ahead (l.refilled c).range (l.refilled c).after) := rfl
    rw [← pending_refilled hsize, htaken, hbuffer]
    simp [pending, hbuffer]

/-! ## The steps of a listing -/

/-- A page that is read is the beginning of what is ahead. -/
theorem readPage_eq_ok {s t : Scene} {es : List Entry} (h : readPage l s = .ok es t) :
    es = l.page s.ambient.engine.contents := by
  have hcall := StoreCall.onBarrier_eq_ok h
  unfold page view
  cases hpaths : l.pathsOnly with
  | true =>
    rw [hpaths, if_pos rfl] at hcall
    obtain ⟨keys, a, hkeys, hpure⟩ := Call.exists_of_bind_ok hcall
    injection hpure with hes
    cases hscan : Engine.scanKeys l.range l.after l.pageSize s.ambient.engine with
    | error error e =>
      have hfail := Barrier.onEngine_error hscan
      rw [Barrier.scanKeys, hfail] at hkeys
      simp at hkeys
    | ok keys' e =>
      rw [Barrier.scanKeys, Barrier.onEngine_ok hscan] at hkeys
      injection hkeys with hkeys
      rw [← hes, ← hkeys, (Engine.scanKeys_eq_ok hscan).1]
      simp
  | false =>
    rw [hpaths, if_neg Bool.false_ne_true] at hcall
    cases hscan : Engine.scan l.range l.after l.pageSize s.ambient.engine with
    | error error e =>
      have hfail := Barrier.onEngine_error hscan
      rw [Barrier.scan, hfail] at hcall
      simp at hcall
    | ok es' e =>
      rw [Barrier.scan, Barrier.onEngine_ok hscan] at hcall
      injection hcall with hes
      rw [← hes, (Engine.scan_eq_ok hscan).1]
      simp

/-- A healthy engine with text keys answers with a page and stays as it is. -/
theorem readPage_of_isHealthy {s : Scene} (hs : s.ambient.engine.IsHealthy)
    (htext : s.ambient.engine.contents.HasTextKeys) :
    readPage l s = .ok (l.page s.ambient.engine.contents) s := by
  unfold page view
  cases hpaths : l.pathsOnly with
  | true =>
    have hcall : (if l.pathsOnly then do
          let keys ← Barrier.scanKeys l.range l.after l.pageSize
          pure (keys.map fun key => (key, []))
        else Barrier.scan l.range l.after l.pageSize : BarrierCall (List Entry)) s.ambient =
        .ok ((Range.cut l.pageSize (s.ambient.engine.contents.ahead l.range l.after)).map
          fun e => (e.1, [])) s.ambient := by
      rw [hpaths, if_pos rfl, Barrier.scanKeys,
        Call.bind_ok (Barrier.onEngine_ok (hs.scanKeys htext))]
      simp [Pure.pure, EStateM.pure]
    exact StoreCall.onBarrier_ok hcall
  | false =>
    have hcall : (if l.pathsOnly then do
          let keys ← Barrier.scanKeys l.range l.after l.pageSize
          pure (keys.map fun key => (key, []))
        else Barrier.scan l.range l.after l.pageSize : BarrierCall (List Entry)) s.ambient =
        .ok (Range.cut l.pageSize (s.ambient.engine.contents.ahead l.range l.after))
          s.ambient := by
      rw [hpaths, if_neg Bool.false_ne_true, Barrier.scan]
      exact Barrier.onEngine_ok (hs.scan htext)
    exact StoreCall.onBarrier_ok hcall

/-- Where a listing reads, it answers as the contents say. -/
theorem refill_eq_ok {w v : Walk} (h : refill w = .ok () v) :
    v.listing = w.listing.refilled w.scene.ambient.engine.contents := by
  unfold refill at h
  rw [Call.bind_ok (current_eq w)] at h
  unfold refilled
  split at h
  · rename_i hempty
    obtain ⟨es, u, hread, hchange⟩ := Call.exists_of_bind_ok h
    rw [if_pos hempty]
    unfold onStore at hread
    cases hpage : readPage w.listing w.scene with
    | error e s => simp [hpage] at hread
    | ok es' s =>
      rw [hpage] at hread
      injection hread with hes hu
      injection hchange with _ hv
      rw [← hv, ← hu, ← hes, readPage_eq_ok hpage]
  · rename_i hfull
    injection h with _ hv
    rw [if_neg hfull, hv]

/-- A healthy engine refills the buffer without failing. -/
theorem refill_of_isHealthy {w : Walk} (hw : w.scene.ambient.engine.IsHealthy)
    (htext : w.scene.ambient.engine.contents.HasTextKeys) :
    refill w =
      .ok () { w with listing := w.listing.refilled w.scene.ambient.engine.contents } := by
  unfold refill
  rw [Call.bind_ok (current_eq w)]
  unfold refilled
  split
  · rw [Call.bind_ok (onStore_ok (readPage_of_isHealthy hw htext))]
    rfl
  · rfl

/-- The entry that a listing takes is the foremost one of its refilled buffer. -/
theorem take_of_refill {w v : Walk} (h : refill w = .ok () v) :
    take w = .ok v.listing.buffer.head?
      { v with listing := { v.listing with buffer := v.listing.buffer.tail } } := by
  unfold take
  rw [Call.bind_ok h, Call.bind_ok (current_eq v)]
  cases hbuffer : v.listing.buffer with
  | nil =>
    have hsame : ({ v.listing with buffer := [] } : Listing) = v.listing := by
      rw [← hbuffer]
    simp only [List.head?_nil, List.tail_nil, hsame]
    rfl
  | cons e rest => rfl

/-- Where an entry is taken, it is the foremost one of the refilled buffer. -/
theorem take_eq_ok {w v : Walk} {x : Option Entry} (h : take w = .ok x v) :
    x = (w.listing.refilled w.scene.ambient.engine.contents).buffer.head? ∧
      v.listing = w.listing.taken w.scene.ambient.engine.contents := by
  obtain ⟨_, u, hrefill, -⟩ := Call.exists_of_bind_ok h
  rw [take_of_refill hrefill] at h
  injection h with hx hv
  rw [← hx, ← hv, refill_eq_ok hrefill]
  exact ⟨rfl, rfl⟩

/-- Over a healthy engine the entry taken is the foremost of those still to come. -/
theorem take_of_isHealthy {w : Walk} (hw : w.scene.ambient.engine.IsHealthy)
    (htext : w.scene.ambient.engine.contents.HasTextKeys) (hsize : 0 < w.listing.pageSize) :
    take w = .ok (w.listing.pending w.scene.ambient.engine.contents).head?
      { w with listing := w.listing.taken w.scene.ambient.engine.contents } := by
  rw [take_of_refill (refill_of_isHealthy hw htext), ← head?_refilled hsize]
  rfl

end Listing

end Strongbox
