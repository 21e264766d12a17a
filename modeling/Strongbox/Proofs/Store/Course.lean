import Strongbox.Cipher.Key
import Strongbox.Proofs.Store.Window

/-!
# Listing while others write

Between two steps of a listing the engine may change in any way.  Still the listing hands out
keys of its range in ascending order, each document as it was found at a moment since the
listing was started, it misses no key that was there all the time, and once it has come to
the end it stays there.  The main statement is `Listing.tells_of_course`.
-/

set_option autoImplicit false

namespace Strongbox.Listing

/-! ## Courses -/

/-- What happens in the course of a listing. -/
inductive Occurrence where
  /-- A step of the listing answered. -/
  | answered (x : Option Document)
  /-- The store or its surroundings changed, and the engine now has these contents. -/
  | changed (c : Contents)

/-- The answer of a step. -/
def Occurrence.answer? : Occurrence → Option (Option Document)
  | .answered x => some x
  | .changed _ => none

/-- The contents after a change. -/
def Occurrence.contents? : Occurrence → Option Contents
  | .answered _ => none
  | .changed c => some c

/-- The answers of the steps, in order. -/
def answers (os : List Occurrence) : List (Option Document) := os.filterMap Occurrence.answer?

/-- The contents that the engine has had, with those in front that it had at first. -/
def moments (first : Contents) (os : List Occurrence) : List Contents :=
  first :: os.filterMap Occurrence.contents?

/-- The contents that the engine has now. -/
def present (first : Contents) (os : List Occurrence) : Contents :=
  (os.filterMap Occurrence.contents?).getLast?.getD first

/-- What can happen to a listing: steps that answer, and any changes between them, under which
the cipher of the store stays the same. -/
inductive Course (a : Aead) (start : Walk) : List Occurrence → Walk → Prop
  | start : Course a start [] start
  | next {os : List Occurrence} {w v : Walk} {ctx : Context} {x : Option Document}
      (h : Course a start os w) (hnext : next ctx w = .ok x v) :
      Course a start (os ++ [.answered x]) v
  | change {os : List Occurrence} {w : Walk} (scene : Scene) (h : Course a start os w)
      (hcipher : ∀ session, scene.store.session = some session → session.cipher = a) :
      Course a start (os ++ [.changed scene.ambient.engine.contents]) ⟨w.listing, scene⟩

/-- The contents hold an entry, or only its key where a listing reads no values. -/
def Sees (l : Listing) (c : Contents) (e : Entry) : Prop :=
  if l.pathsOnly then (c.value? e.1).isSome = true else c.value? e.1 = some e.2

/-- The entry was there at the time of a step, before which no more than `i` answers were
given. -/
def FoundBefore (l : Listing) (first : Contents) (os : List Occurrence) (i : Nat) (e : Entry) :
    Prop :=
  ∃ past x rest, os = past ++ .answered x :: rest ∧ (answers past).length ≤ i ∧
    l.Sees (present first past) e

/-- What the answers tell: they are the documents of the entries `es`, one each, and then
nothing. -/
structure Tells (l : Listing) (a : Aead) (first : Contents) (os : List Occurrence)
    (es : List Entry) : Prop where
  ascending : es.Pairwise fun d e => Utf8.encode d.1 < Utf8.encode e.1
  inRange : ∀ e ∈ es, Range.begins l.range e.1 = true
  answers : ∃ ds n, answers os = ds.map some ++ List.replicate n none ∧
    List.Forall₂ (fun e d => l.read a e = .ok d) es ds
  found : ∀ i e, es[i]? = some e → l.FoundBefore first os i e
  complete : ∀ before rest, os = before ++ .answered none :: rest → .answered none ∉ before →
    ∀ key, Range.begins l.range key = true →
      (∀ c ∈ moments first before, (c.value? key).isSome) → ∃ e ∈ es, e.1 = key

/-! ## Occurrences in order -/

section Order

variable {first c : Contents} {os : List Occurrence} {x : Option Document}

/-- An answer is the latest of the answers. -/
theorem answers_answered : answers (os ++ [.answered x]) = answers os ++ [x] := by
  simp [answers, Occurrence.answer?]

/-- A change is no answer. -/
theorem answers_changed : answers (os ++ [.changed c]) = answers os := by
  simp [answers, Occurrence.answer?]

/-- An answer does not change the contents. -/
theorem moments_answered : moments first (os ++ [.answered x]) = moments first os := by
  simp [moments, Occurrence.contents?]

/-- A change adds its contents to the moments. -/
theorem moments_changed : moments first (os ++ [.changed c]) = moments first os ++ [c] := by
  simp [moments, Occurrence.contents?]

/-- After an answer the contents are what they were. -/
theorem present_answered : present first (os ++ [.answered x]) = present first os := by
  simp [present, Occurrence.contents?]

/-- After a change they are the new ones. -/
theorem present_changed : present first (os ++ [.changed c]) = c := by
  simp [present, Occurrence.contents?]

/-- The contents at present are one of the moments. -/
theorem present_mem_moments (first : Contents) (os : List Occurrence) :
    present first os ∈ moments first os := by
  unfold present moments
  cases hlast : (os.filterMap Occurrence.contents?).getLast? with
  | none => exact List.mem_cons_self
  | some c => exact List.mem_cons_of_mem _ (List.mem_of_getLast? hlast)

/-- What was split off a longer course is its last occurrence, or was split off before. -/
theorem snoc_eq_append_cons {o z : Occurrence} {before rest : List Occurrence}
    (h : os ++ [o] = before ++ z :: rest) :
    (before = os ∧ z = o) ∨ ∃ rest', os = before ++ z :: rest' := by
  rcases List.eq_nil_or_concat rest with rfl | ⟨rest', y, rfl⟩
  · obtain ⟨hos, hlast⟩ := List.append_inj' h rfl
    exact .inl ⟨hos.symm, (List.cons.inj hlast).1.symm⟩
  · rw [List.concat_eq_append, ← List.cons_append, ← List.append_assoc] at h
    obtain ⟨hos, -⟩ := List.append_inj' h rfl
    exact .inr ⟨rest', hos⟩

/-- What was found before an answer was found, whatever happens later. -/
theorem FoundBefore.append {l : Listing} {i : Nat} {e : Entry} (h : l.FoundBefore first os i e)
    (o : Occurrence) : l.FoundBefore first (os ++ [o]) i e := by
  obtain ⟨past, y, rest, rfl, hcount, hsees⟩ := h
  exact ⟨past, y, rest ++ [o], by simp, hcount, hsees⟩

end Order

/-! ## One step -/

/-- A step of a listing without index and limit that answers: it finds its refilled buffer
empty, or hands out the first entry there. -/
theorem next_eq_ok {ctx : Context} {w v : Walk} {x : Option Document}
    (hskip : w.listing.skip = 0) (hlimit : w.listing.limit = 0) (h : next ctx w = .ok x v) :
    ∃ m, m = w.listing.refilled w.scene.ambient.engine.contents ∧
      ((x = none ∧ m.buffer = [] ∧ v.listing = m) ∨
        ∃ e rest d session, x = some d ∧ m.buffer = e :: rest ∧
          v.listing = { m with buffer := rest, yielded := m.yielded + 1 } ∧
          w.scene.store.session = some session ∧ m.read session.cipher e = .ok d) := by
  have hmore : w.listing.isComplete = false := by simp [isComplete, hlimit]
  obtain ⟨session, t, hopen, ht, hfrom⟩ : ∃ session t, w.scene.store.session = some session ∧
      w.scene.Stays t ∧ nextFrom session.cipher w.listing.skip { w with scene := t } = .ok x v := by
    rcases cases_of_next h with ⟨hcomplete, -⟩ | hfrom
    · simp [hmore] at hcomplete
    · exact hfrom
  rw [hskip] at hfrom
  unfold nextFrom at hfrom
  obtain ⟨y, z, htake, hstep⟩ := Call.exists_of_bind_ok hfrom
  obtain ⟨hhead, htaken⟩ := take_eq_ok htake
  rw [ht.engine] at hhead htaken
  refine ⟨_, rfl, ?_⟩
  cases hbuffer : (w.listing.refilled w.scene.ambient.engine.contents).buffer with
  | nil =>
    rw [hbuffer, List.head?_nil] at hhead
    subst hhead
    injection hstep with hx hv
    refine .inl ⟨hx.symm, rfl, ?_⟩
    rw [← hv, htaken]
    unfold taken
    rw [hbuffer, List.tail_nil, ← hbuffer]
  | cons e rest =>
    rw [hbuffer, List.head?_cons] at hhead
    subst hhead
    obtain ⟨d, r, hhand, hpure⟩ := Call.exists_of_bind_ok hstep
    injection hpure with hx hv
    rcases hand_cases session.cipher e z with ⟨d', hread, hrun⟩ | ⟨error, s, -, -, hrun⟩
    · rw [hrun] at hhand
      injection hhand with hd hr
      refine .inr ⟨e, rest, d, session, hx.symm, rfl, ?_, hopen, ?_⟩
      · rw [← hv, ← hr, htaken]
        unfold taken
        rw [hbuffer, List.tail_cons]
      · rw [htaken] at hread
        rw [← hd]
        exact hread
    · rw [hrun] at hhand
      simp at hhand

/-! ## Pages -/

/-- A key that was seen comes before one that was not. -/
theorem lt_of_seen {after : Option String} {key other : String}
    (hkey : LogDirectory.isSeen after key = true)
    (hother : LogDirectory.isSeen after other = false) : key < other := by
  cases after with
  | none => simp [LogDirectory.isSeen] at hkey
  | some a =>
    simp only [LogDirectory.isSeen, decide_eq_true_eq, decide_eq_false_iff_not] at hkey hother
    exact Std.lt_of_le_of_lt hkey (Std.not_le.1 hother)

/-- What a listing keeps of an entry has its key, and is the entry where data is listed. -/
theorem mem_view {l : Listing} {es : List Entry} {e : Entry} (h : e ∈ l.view es) :
    ∃ f ∈ es, f.1 = e.1 ∧ (l.pathsOnly = false → f = e) := by
  unfold view at h
  split at h
  · rename_i hpaths
    obtain ⟨f, hf, rfl⟩ := List.mem_map.1 h
    exact ⟨f, hf, rfl, fun hdata => absurd hpaths (by simp [hdata])⟩
  · exact ⟨e, h, rfl, fun _ => rfl⟩

section Page

variable {l : Listing} {c : Contents}

/-- A page is in the order of the keys. -/
theorem ascending_page (l : Listing) (c : Contents) :
    (l.page c).Pairwise fun d e => d.1 < e.1 := by
  have hcut : (Range.cut l.pageSize (c.ahead l.range l.after)).Pairwise fun d e => d.1 < e.1 := by
    unfold Range.cut
    split
    · exact c.ascending_ahead l.range l.after
    · exact (c.ascending_ahead l.range l.after).sublist (List.take_sublist _ _)
  have hkeys : ((l.page c).map (·.1)).Pairwise (· < ·) := by
    unfold page
    rw [map_view]
    exact List.pairwise_map.2 hcut
  exact List.pairwise_map.1 hkeys

/-- The entries of a page lie in the range, after the last key, and are held. -/
theorem of_mem_page {e : Entry} (h : e ∈ l.page c) :
    Range.begins l.range e.1 = true ∧ LogDirectory.isSeen l.after e.1 = false ∧ l.Sees c e := by
  obtain ⟨f, hf, hkey, hdata⟩ := mem_view h
  obtain ⟨hmem, hbegins, hseen⟩ := Range.mem_ahead.1 (Contents.mem_of_mem_cut hf)
  have hvalue := Contents.mem_entries.1 hmem
  rw [hkey] at hbegins hseen
  refine ⟨hbegins, hseen, ?_⟩
  unfold Sees
  split
  · rw [← hkey, hvalue]
    rfl
  · rename_i hpaths
    rw [← hdata (by simpa using hpaths)]
    exact hvalue

/-- After a page, its keys and all keys before it are seen. -/
theorem isSeen_addPage {key : String}
    (h : LogDirectory.isSeen l.after key = true ∨ ∃ e ∈ l.page c, e.1 = key) :
    LogDirectory.isSeen (addPage (l.page c) l).after key = true := by
  have hafter : (addPage (l.page c) l).after = ((l.page c).getLast?.map (·.1)).or l.after := rfl
  rw [hafter]
  cases hlast : (l.page c).getLast? with
  | none =>
    rw [List.getLast?_eq_none_iff.1 hlast] at h
    simpa using h
  | some last =>
    have hmem : last ∈ l.page c := List.mem_of_getLast? hlast
    have hle : key ≤ last.1 := by
      rcases h with hseen | ⟨e, he, rfl⟩
      · exact Std.le_of_lt (lt_of_seen hseen (of_mem_page hmem).2.1)
      · obtain ⟨front, hfront⟩ := List.getLast?_eq_some_iff.1 hlast
        have hasc := ascending_page l c
        rw [hfront] at he hasc
        rcases List.mem_append.1 he with hin | hin
        · exact Std.le_of_lt ((List.pairwise_append.1 hasc).2.2 e hin last List.mem_cons_self)
        · obtain rfl := List.mem_singleton.1 hin
          exact Std.le_refl _
    simpa [LogDirectory.isSeen] using hle

/-- A key that is ahead comes with the next page, or is ahead of the one after it. -/
theorem ahead_of_addPage {e : Entry} (hsize : 0 < l.pageSize) (hempty : l.buffer = [])
    (hmore : l.exhausted = false) (he : e ∈ c.ahead l.range l.after) :
    (∃ d ∈ l.page c, d.1 = e.1) ∨
      ((addPage (l.page c) l).exhausted = false ∧
        LogDirectory.isSeen (addPage (l.page c) l).after e.1 = false) := by
  -- The key is among those still to come, of which a page drops none.
  have hmem : e.1 ∈ (l.pending c).map (·.1) := by
    unfold pending
    rw [hempty, hmore, if_neg Bool.false_ne_true, List.nil_append, map_view]
    exact List.mem_map_of_mem he
  rw [← pending_addPage hsize hmore] at hmem
  unfold pending at hmem
  rw [List.map_append] at hmem
  rcases List.mem_append.1 hmem with hin | hin
  · obtain ⟨d, hd, hsame⟩ := List.mem_map.1 hin
    exact .inl ⟨d, by simpa [addPage, hempty] using hd, hsame⟩
  · split at hin
    · simp at hin
    · rename_i hnot
      rw [map_view] at hin
      obtain ⟨d, hd, hsame⟩ := List.mem_map.1 hin
      rw [← hsame]
      exact .inr ⟨by simpa using hnot, (Range.mem_ahead.1 hd).2.2⟩

end Page

/-! ## What a listing knows -/

/-- What holds of the entries `es` that were handed out and of those in the buffer.  A key that
was there all the time is among them, or the listing has not come to it. -/
structure Knows (l : Listing) (first : Contents) (os : List Occurrence) (es : List Entry) :
    Prop where
  ascending : (es ++ l.buffer).Pairwise fun d e => d.1 < e.1
  inRange : ∀ e ∈ es ++ l.buffer, Range.begins l.range e.1 = true
  seen : ∀ e ∈ es ++ l.buffer, LogDirectory.isSeen l.after e.1 = true
  found : ∀ i e, (es ++ l.buffer)[i]? = some e → l.FoundBefore first os i e
  awaited : ∀ key, Range.begins l.range key = true →
    (∀ c ∈ moments first os, (c.value? key).isSome) →
      (∃ e ∈ es ++ l.buffer, e.1 = key) ∨
        (l.exhausted = false ∧ LogDirectory.isSeen l.after key = false)

namespace Knows

variable {l : Listing} {first : Contents} {os : List Occurrence} {es : List Entry}

/-- A listing knows as much after a change as before. -/
theorem changed (h : l.Knows first os es) (c : Contents) :
    l.Knows first (os ++ [.changed c]) es := by
  refine ⟨h.ascending, h.inRange, h.seen, fun i e he => (h.found i e he).append _, ?_⟩
  intro key hkey hall
  apply h.awaited key hkey
  intro d hd
  apply hall
  rw [moments_changed]
  exact List.mem_append_left _ hd

/-- It knows as much after it has answered. -/
theorem answered (h : l.Knows first os es) (x : Option Document) :
    l.Knows first (os ++ [.answered x]) es := by
  refine ⟨h.ascending, h.inRange, h.seen, fun i e he => (h.found i e he).append _, ?_⟩
  rw [moments_answered]
  exact h.awaited

/-- Handing out an entry moves it from the buffer to those handed out. -/
theorem handed {e : Entry} {rest : List Entry} (h : l.Knows first os es)
    (hbuffer : l.buffer = e :: rest) (yielded : Nat) :
    ({ l with buffer := rest, yielded } : Listing).Knows first os (es ++ [e]) := by
  have hall : (es ++ [e]) ++ rest = es ++ l.buffer := by simp [hbuffer]
  refine ⟨?_, ?_, ?_, ?_, ?_⟩
  · exact hall ▸ h.ascending
  · exact hall ▸ h.inRange
  · exact hall ▸ h.seen
  · exact hall ▸ h.found
  · exact hall ▸ h.awaited

/-- Reading a page keeps what a listing knows. -/
theorem addPage (h : l.Knows first os es) (hsize : 0 < l.pageSize) (hempty : l.buffer = [])
    (hmore : l.exhausted = false) (hcount : (Listing.answers os).length ≤ es.length)
    (x : Option Document) :
    (Listing.addPage (l.page (present first os)) l).Knows first (os ++ [.answered x]) es := by
  have hall : es ++ (Listing.addPage (l.page (present first os)) l).buffer =
      es ++ l.page (present first os) := by
    simp [Listing.addPage, hempty]
  have hes : es ++ l.buffer = es := by rw [hempty, List.append_nil]
  have hasc := h.ascending
  have hinRange := h.inRange
  have hseen := h.seen
  rw [hes] at hasc hinRange hseen
  refine ⟨?_, ?_, ?_, ?_, ?_⟩
  · rw [hall, List.pairwise_append]
    refine ⟨hasc, ascending_page l _, ?_⟩
    intro d hd e he
    exact lt_of_seen (hseen d hd) (of_mem_page he).2.1
  · rw [hall]
    intro e he
    rcases List.mem_append.1 he with hmem | hmem
    · exact hinRange e hmem
    · exact (of_mem_page hmem).1
  · rw [hall]
    intro e he
    apply isSeen_addPage
    rcases List.mem_append.1 he with hmem | hmem
    · exact .inl (hseen e hmem)
    · exact .inr ⟨e, hmem, rfl⟩
  · rw [hall]
    intro i e he
    by_cases hi : i < es.length
    · rw [List.getElem?_append_left hi] at he
      apply FoundBefore.append
      apply h.found
      rw [hes]
      exact he
    · have hmem : e ∈ l.page (present first os) := by
        rw [List.getElem?_append_right (by omega)] at he
        exact List.mem_of_getElem? he
      exact ⟨os, x, [], rfl, by omega, (of_mem_page hmem).2.2⟩
  · rw [hall, moments_answered]
    intro key hkey hpresent
    -- A key that is still awaited lies ahead, on this page or behind it.
    rcases h.awaited key hkey hpresent with ⟨e, he, hsame⟩ | ⟨-, hunseen⟩
    · rw [hes] at he
      exact .inl ⟨e, List.mem_append_left _ he, hsame⟩
    · obtain ⟨value, hvalue⟩ :=
        Option.isSome_iff_exists.1 (hpresent _ (present_mem_moments first os))
      have hahead : (key, value) ∈ (present first os).ahead l.range l.after :=
        Range.mem_ahead.2 ⟨Contents.mem_entries.2 hvalue, hkey, hunseen⟩
      rcases ahead_of_addPage hsize hempty hmore hahead with ⟨e, he, hsame⟩ | hlater
      · exact .inl ⟨e, List.mem_append_right _ he, hsame⟩
      · exact .inr hlater

/-- Making sure that the buffer holds the next entry keeps what a listing knows. -/
theorem refilled (h : l.Knows first os es) (hsize : 0 < l.pageSize)
    (hcount : l.exhausted = false → (Listing.answers os).length ≤ es.length)
    (x : Option Document) :
    (l.refilled (present first os)).Knows first (os ++ [.answered x]) es := by
  rcases refilled_cases l (present first os) with ⟨hsame, -⟩ | ⟨hpage, hempty, hmore⟩
  · rw [hsame]
    exact h.answered x
  · rw [hpage]
    exact h.addPage hsize hempty hmore (hcount hmore) x

end Knows

/-! ## Whole courses -/

/-- Where a course has come to: the documents of the entries `es` were handed out. -/
structure IsAt (a : Aead) (start w : Walk) (first : Contents) (os : List Occurrence)
    (es : List Entry) : Prop where
  knows : w.listing.Knows first os es
  answers : ∃ ds n, answers os = ds.map some ++ List.replicate n none ∧
    List.Forall₂ (fun e d => start.listing.read a e = .ok d) es ds ∧
      (0 < n → w.listing.exhausted = true ∧ w.listing.buffer = [])
  complete : ∀ before rest, os = before ++ .answered none :: rest → .answered none ∉ before →
    ∀ key, Range.begins start.listing.range key = true →
      (∀ c ∈ moments first before, (c.value? key).isSome) → ∃ e ∈ es, e.1 = key
  follows : start.listing.Follows w.listing
  skip : w.listing.skip = 0
  contents : w.scene.ambient.engine.contents = present first os
  cipher : ∀ session, w.scene.store.session = some session → session.cipher = a

namespace IsAt

variable {a : Aead} {start w v : Walk} {first : Contents} {os : List Occurrence}
  {es : List Entry}

/-- Between steps the contents may change in any way, as long as the cipher stays. -/
theorem change (h : IsAt a start w first os es) (scene : Scene)
    (hcipher : ∀ session, scene.store.session = some session → session.cipher = a) :
    IsAt a start ⟨w.listing, scene⟩ first (os ++ [.changed scene.ambient.engine.contents]) es := by
  refine ⟨h.knows.changed _, ?_, ?_, h.follows, h.skip, ?_, hcipher⟩
  · rw [answers_changed]
    exact h.answers
  · intro before rest hos hfirst
    rcases snoc_eq_append_cons hos with ⟨-, hsame⟩ | ⟨rest', hos⟩
    · simp at hsame
    · exact h.complete before rest' hos hfirst
  · exact present_changed.symm

/-- Once it has answered with nothing, a listing has nothing in its buffer and reads no page. -/
theorem length_answers (h : IsAt a start w first os es) :
    (Listing.answers os).length = es.length ∨
      (w.listing.exhausted = true ∧ w.listing.buffer = []) := by
  obtain ⟨ds, n, hanswers, hread, hend⟩ := h.answers
  cases n with
  | zero =>
    left
    rw [hanswers]
    simp [hread.length_eq]
  | succ n => exact .inr (hend (by omega))

/-- Refilled for its next answer, the listing knows as much as before. -/
theorem knows_refilled (h : IsAt a start w first os es) (hsize : 0 < start.listing.pageSize)
    (x : Option Document) :
    (w.listing.refilled (present first os)).Knows first (os ++ [.answered x]) es := by
  refine h.knows.refilled (h.follows.pageSize ▸ hsize) ?_ x
  intro hmore
  rcases h.length_answers with heq | ⟨hexhausted, -⟩
  · omega
  · simp [hmore] at hexhausted

/-- Refilled, it is still the listing that was started. -/
theorem follows_refilled (h : IsAt a start w first os es) :
    start.listing.Follows (w.listing.refilled (present first os)) :=
  h.follows.trans (Listing.follows_refilled w.listing _)

/-- An answer changes neither the contents nor the cipher. -/
theorem scene_answered (h : IsAt a start w first os es) {scene : Scene}
    (hscene : w.scene.Keeps scene) (x : Option Document) :
    scene.ambient.engine.contents = present first (os ++ [.answered x]) ∧
      ∀ session, scene.store.session = some session → session.cipher = a := by
  rw [hscene.contents, h.contents, present_answered, hscene.store]
  exact ⟨rfl, h.cipher⟩

/-- A listing that finds its buffer empty is at its end. -/
theorem ended (h : IsAt a start w first os es) (hsize : 0 < start.listing.pageSize)
    {scene : Scene} (hscene : w.scene.Keeps scene)
    (hbuffer : (w.listing.refilled (present first os)).buffer = []) :
    IsAt a start ⟨w.listing.refilled (present first os), scene⟩ first
      (os ++ [.answered none]) es := by
  have hknows := h.knows_refilled hsize none
  have hexhausted : (w.listing.refilled (present first os)).exhausted = true :=
    exhausted_of_buffer_nil (h.follows.pageSize ▸ hsize) hbuffer
  obtain ⟨ds, n, hanswers, hread, -⟩ := h.answers
  obtain ⟨hcontents, hcipher⟩ := h.scene_answered hscene none
  refine ⟨hknows, ?_, ?_, h.follows_refilled, ?_, hcontents, hcipher⟩
  · refine ⟨ds, n + 1, ?_, hread, fun _ => ⟨hexhausted, hbuffer⟩⟩
    rw [answers_answered, hanswers, List.append_assoc, List.replicate_succ']
  · intro before rest hos hfirst key hkey hpresent
    rcases snoc_eq_append_cons hos with ⟨rfl, -⟩ | ⟨rest', hos⟩
    · -- A key that was there all the time and is not behind the end was handed out.
      rw [← moments_answered] at hpresent
      rcases hknows.awaited key (by rw [h.follows_refilled.range]; exact hkey) hpresent with
        hfound | ⟨hmore, -⟩
      · simpa [hbuffer] using hfound
      · simp [hexhausted] at hmore
    · exact h.complete before rest' hos hfirst key hkey hpresent
  · exact (skip_refilled _ _).trans h.skip

/-- A listing that finds an entry in its buffer has not answered with nothing before. -/
theorem exists_answers (h : IsAt a start w first os es) {e : Entry} {rest : List Entry}
    (hbuffer : (w.listing.refilled (present first os)).buffer = e :: rest) :
    ∃ ds : List Document, Listing.answers os = ds.map some ∧
      List.Forall₂ (fun e d => start.listing.read a e = .ok d) es ds := by
  obtain ⟨ds, n, hanswers, hread, hend⟩ := h.answers
  cases n with
  | zero => exact ⟨ds, by simpa using hanswers, hread⟩
  | succ n =>
    -- Such an answer would have left the buffer empty.
    obtain ⟨hexhausted, hempty⟩ := hend (Nat.succ_pos n)
    rcases refilled_cases w.listing (present first os) with ⟨hsame, -⟩ | ⟨-, -, hmore⟩
    · rw [hsame, hempty] at hbuffer
      simp at hbuffer
    · simp [hexhausted] at hmore

/-- A listing that finds an entry in its buffer hands it out. -/
theorem handed (h : IsAt a start w first os es) (hsize : 0 < start.listing.pageSize)
    {scene : Scene} (hscene : w.scene.Keeps scene) {e : Entry} {rest : List Entry} {d : Document}
    (hbuffer : (w.listing.refilled (present first os)).buffer = e :: rest)
    (hread : start.listing.read a e = .ok d) (yielded : Nat) :
    IsAt a start ⟨{ w.listing.refilled (present first os) with buffer := rest, yielded }, scene⟩
      first (os ++ [.answered (some d)]) (es ++ [e]) := by
  obtain ⟨ds, hanswers, hall⟩ := h.exists_answers hbuffer
  obtain ⟨hcontents, hcipher⟩ := h.scene_answered hscene (some d)
  refine ⟨(h.knows_refilled hsize _).handed hbuffer _, ?_, ?_, ?_, ?_, hcontents, hcipher⟩
  · refine ⟨ds ++ [d], 0, ?_, List.rel_append hall (.cons hread .nil),
      fun hpos => absurd hpos (Nat.lt_irrefl 0)⟩
    rw [answers_answered, hanswers]
    simp
  · intro before rest' hos hfirst key hkey hpresent
    rcases snoc_eq_append_cons hos with ⟨-, hsame⟩ | ⟨rest', hos⟩
    · simp at hsame
    · obtain ⟨f, hf, hsame⟩ := h.complete before rest' hos hfirst key hkey hpresent
      exact ⟨f, List.mem_append_left _ hf, hsame⟩
  · exact h.follows_refilled.trans ⟨rfl, rfl, rfl, rfl, rfl, rfl⟩
  · exact (skip_refilled _ _).trans h.skip

/-- A step that answers leads on in the course, with one more entry if it hands out a document. -/
theorem next {ctx : Context} {x : Option Document} (h : IsAt a start w first os es)
    (hsize : 0 < start.listing.pageSize) (hlimit : start.listing.limit = 0)
    (hnext : Listing.next ctx w = .ok x v) :
    ∃ es', IsAt a start v first (os ++ [.answered x]) es' := by
  have hscene := ((keeps_next ctx).ok hnext).scene
  obtain ⟨m, hm, hcases⟩ := next_eq_ok h.skip (h.follows.limit.trans hlimit) hnext
  rw [h.contents] at hm
  subst hm
  rcases hcases with ⟨rfl, hbuffer, hv⟩ | ⟨e, rest, d, session, rfl, hbuffer, hv, hopen, hread⟩
  · have hend := h.ended hsize hscene hbuffer
    rw [← hv] at hend
    exact ⟨es, hend⟩
  · rw [h.follows_refilled.read, h.cipher session hopen] at hread
    have hone := h.handed hsize hscene hbuffer hread
      ((w.listing.refilled (present first os)).yielded + 1)
    rw [← hv] at hone
    exact ⟨es ++ [e], hone⟩

/-- A listing in its course tells what its course asks for. -/
theorem tells (h : IsAt a start w first os es) : start.listing.Tells a first os es := by
  have hes : ∀ e ∈ es, e ∈ es ++ w.listing.buffer := fun e he => List.mem_append_left _ he
  have hsees : w.listing.Sees = start.listing.Sees := by
    unfold Sees
    rw [h.follows.pathsOnly]
  obtain ⟨ds, n, hanswers, hread, -⟩ := h.answers
  refine ⟨?_, ?_, ⟨ds, n, hanswers, hread⟩, ?_, h.complete⟩
  · have hasc := (List.pairwise_append.1 h.knows.ascending).1
    exact hasc.imp Utf8.encode_lt_encode.2
  · intro e he
    rw [← h.follows.range]
    exact h.knows.inRange e (hes e he)
  · intro i e he
    have hi : i < es.length := by
      by_contra hi
      rw [List.getElem?_eq_none (by omega)] at he
      simp at he
    have hfound := h.knows.found i e (by rw [List.getElem?_append_left hi]; exact he)
    unfold FoundBefore at hfound ⊢
    rw [← hsees]
    exact hfound

end IsAt

/-- A listing starts with nothing read and nothing handed out. -/
theorem list_eq_fresh {ctx : Context} {parent : String} {window : Window} {s t : Scene}
    {l : Listing} (h : Store.list ctx parent window s = .ok l t) :
    ∃ session, s.store.session = some session ∧
      l = .fresh session s.store.pageSize (Path.listingRange parent window.stem) window := by
  obtain ⟨session, u, hsession, hu, hrest⟩ := StoreCall.exists_of_opened h
  obtain ⟨_, v, htell, hfresh⟩ := Call.exists_of_bind_ok hrest
  injection htell with _ hv
  injection hfresh with hl
  refine ⟨session, hsession, ?_⟩
  rw [← hl, ← hv, ← hu.store]
  rfl

/-- A listing that has read nothing stands at the start of its course. -/
theorem IsAt.start {a : Aead} {l : Listing} {s : Scene} (hbuffer : l.buffer = [])
    (hafter : l.after = none) (hmore : l.exhausted = false) (hskip : l.skip = 0)
    (hcipher : ∀ session, s.store.session = some session → session.cipher = a) :
    IsAt a ⟨l, s⟩ ⟨l, s⟩ s.ambient.engine.contents [] [] := by
  refine ⟨?_, ⟨[], 0, rfl, .nil, fun h => absurd h (by omega)⟩, ?_, Follows.refl l, hskip, rfl,
    hcipher⟩
  · refine ⟨?_, ?_, ?_, ?_, ?_⟩
    · simp [hbuffer]
    · simp [hbuffer]
    · simp [hbuffer]
    · simp [hbuffer]
    · intro key _ _
      exact .inr ⟨hmore, by simp [hafter, LogDirectory.isSeen]⟩
  · intro before rest hos
    simp at hos

/-- Whatever happens between its steps, a listing without index and limit hands out keys of its
range in ascending order, with the documents that were there at a moment before, it hands out
every key that was there from its start to its end, and it ends only once. -/
theorem tells_of_course {ctx : Context} {parent : String} {window : Window} {s t : Scene}
    {l : Listing} {session : Session} {os : List Occurrence} {w : Walk}
    (hopen : s.store.session = some session) (hlist : Store.list ctx parent window s = .ok l t)
    (hindex : window.index = 0) (hlimit : window.limit = 0)
    (hcourse : Course session.cipher ⟨l, t⟩ os w) :
    ∃ es, l.Tells session.cipher s.ambient.engine.contents os es := by
  obtain ⟨session', hsession, hfresh⟩ := list_eq_fresh hlist
  have hkeeps := (Store.leads_list ctx parent window).keeps.ok hlist
  have hsize : 0 < l.pageSize := by
    rw [hfresh]
    exact Nat.le_max_left 1 s.store.config.pageSize
  have hcipher : ∀ x, t.store.session = some x → x.cipher = session.cipher := by
    intro x hx
    rw [hkeeps.store, hopen] at hx
    injection hx with hx
    rw [hx]
  have hat : ∃ es, IsAt session.cipher ⟨l, t⟩ w s.ambient.engine.contents os es := by
    induction hcourse with
    | start =>
      rw [← hkeeps.contents]
      refine ⟨[], IsAt.start ?_ ?_ ?_ ?_ hcipher⟩
      · rw [hfresh]
        rfl
      · rw [hfresh]
        rfl
      · rw [hfresh]
        rfl
      · rw [hfresh]
        exact hindex
    | next _ hnext ih =>
      obtain ⟨es, hes⟩ := ih
      refine hes.next hsize ?_ hnext
      rw [hfresh]
      exact hlimit
    | change scene _ hscene ih =>
      obtain ⟨es, hes⟩ := ih
      exact ⟨es, hes.change scene hscene⟩
  obtain ⟨es, hes⟩ := hat
  exact ⟨es, hes.tells⟩

/-- A step that shows a path has answered a document with it. -/
theorem exists_of_path {w : Walk} {path : Option String}
    (h : (Call.answer (next .background w)).toOption.map (Option.map Document.path) = some path) :
    ∃ x, x.map Document.path = path ∧
      next .background w = .ok x (Call.after (next .background w)) := by
  cases hnext : next .background w with
  | ok x v =>
    refine ⟨x, ?_, rfl⟩
    simpa [hnext, Call.answer, Except.toOption] using h
  | error e v => simp [hnext, Call.answer, Except.toOption] at h

/-- A listing that reads one key at a time is started over two keys.  After its first step
both keys go and another one comes, which the second step finds; after the third step the
listing stays at its end. -/
theorem tells_of_changing_engine :
    let session : Session := ⟨1, (Key.uniform 7).cipher, .empty⟩
    let scene (t : Table String Bytes) : Scene :=
      ⟨{ config := { Config.standard with pageSize := 1 }, session := some session },
        { engine := { contents := .volatile t }, clock := .standard, entropy := ⟨fun _ => 0, 0⟩ }⟩
    let s := scene ⟨[("/a", []), ("/b", [])], by decide⟩
    ∃ l t w os, s.store.session = some session ∧
      Store.list .background "/" { pathsOnly := true } s = .ok l t ∧
      Course session.cipher ⟨l, t⟩ os w ∧
      (answers os).map (Option.map Document.path) = [some "/a", some "/c", none, none] ∧
      ∃ es, l.Tells session.cipher s.ambient.engine.contents os es := by
  intro session scene s
  let changed := scene ⟨[("/c", [])], by decide⟩
  let emptied := scene ⟨[("/d", [])], by decide⟩
  let start : Walk := ⟨.fresh session 1 "/" { pathsOnly := true },
    Call.after (Store.list .background "/" { pathsOnly := true } s)⟩
  let first := Call.after (next .background start)
  let second := Call.after (next .background ⟨first.listing, changed⟩)
  let third := Call.after (next .background second)
  have hopen : s.store.session = some session := rfl
  have hlist : Store.list .background "/" { pathsOnly := true } s = .ok start.listing start.scene :=
    rfl
  obtain ⟨x, hx, hfirst⟩ : ∃ x : Option Document, x.map Document.path = some "/a" ∧
      next .background start = .ok x first := exists_of_path (by
    unfold start s scene session
    decide +kernel)
  obtain ⟨y, hy, hsecond⟩ : ∃ x : Option Document, x.map Document.path = some "/c" ∧
      next .background ⟨first.listing, changed⟩ = .ok x second := exists_of_path (by
    unfold first start changed s scene session
    decide +kernel)
  obtain ⟨z, hz, hthird⟩ : ∃ x : Option Document, x.map Document.path = none ∧
      next .background second = .ok x third := exists_of_path (by
    unfold second first start changed s scene session
    decide +kernel)
  obtain ⟨u, hu, hfourth⟩ : ∃ x : Option Document, x.map Document.path = none ∧
      next .background ⟨third.listing, emptied⟩ =
        .ok x (Call.after (next .background ⟨third.listing, emptied⟩)) := exists_of_path (by
    unfold emptied third second first start changed s scene session
    decide +kernel)
  have hcipher : ∀ t x, (scene t).store.session = some x → x.cipher = session.cipher := by
    intro t x hx
    injection hx with hx
    rw [← hx]
  have hcourse := ((((Course.start.next hfirst).change changed (hcipher _)).next hsecond).next
    hthird).change emptied (hcipher _) |>.next hfourth
  refine ⟨_, _, _, _, hopen, hlist, hcourse, ?_, ?_⟩
  · show [x.map Document.path, y.map Document.path, z.map Document.path, u.map Document.path] = _
    rw [hx, hy, hz, hu]
  · exact tells_of_course hopen hlist rfl rfl hcourse

end Strongbox.Listing
