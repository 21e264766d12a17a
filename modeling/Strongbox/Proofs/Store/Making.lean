import Strongbox.Proofs.Json.Levels
import Strongbox.Proofs.Path
import Strongbox.Proofs.Store.Changes

/-!
# How written records come about

A command that writes makes its record of what it was given, of the record that is stored, and of
one reading of the clock.  In a run of commands every stored value is the encryption of a record
that was made so, and a record that is read is one of these.  The main statements are
`Command.made_of_writing` and `Watch.isTracked_perform`.
-/

set_option autoImplicit false

namespace Strongbox

open Call (Respects)
open Time (Instant)

/-! ## What a draft was made of -/

/-- The record that a command writes when it reads the time `time`, by what is stored. -/
inductive Command.Makes (a : Aead) (e : Engine) (time : Instant) : Command → Record → Prop
  | create {ctx : Context} {raw : String} {fields : Fields} (hroot : Path.isRoot raw = false) :
    Makes a e time (.create ctx raw fields) ⟨Path.normalize raw, fields, time, time⟩
  | setFirst {ctx : Context} {raw : String} {fields : Fields} {mode : WriteMode}
      (hroot : Path.isRoot raw = false) (h : e.record? a (Path.normalize raw) = .ok none) :
    Makes a e time (.set ctx raw fields mode) ⟨Path.normalize raw, fields, time, time⟩
  | setNext {ctx : Context} {raw : String} {fields : Fields} {mode : WriteMode} {r : Record}
      (hroot : Path.isRoot raw = false) (h : e.record? a (Path.normalize raw) = .ok (some r)) :
    Makes a e time (.set ctx raw fields mode) (Store.revise mode fields time r)
  | firstBatch {ctx : Context} {raw : String} {next : Nat} (hroot : Path.isRoot raw = false)
      (hnext : next < Cursor.wordLimit) (h : e.record? a (Path.normalize raw) = .ok none) :
    Makes a e time (.increment ctx raw) ⟨Path.normalize raw, Counter.fieldsFor next, time, time⟩
  | nextBatch {ctx : Context} {raw : String} {next : Nat} {r : Record}
      (hroot : Path.isRoot raw = false) (hnext : next < Cursor.wordLimit)
      (h : e.record? a (Path.normalize raw) = .ok (some r)) :
    Makes a e time (.increment ctx raw)
      ⟨Path.normalize raw, Counter.fieldsFor next, r.createdAt, time⟩

/-- A record is made for a path where a document can lie. -/
theorem Command.Makes.isLocation {a : Aead} {e : Engine} {time : Instant} {c : Command}
    {r : Record} (h : c.Makes a e time r) : Path.IsLocation r.path := by
  cases h with
  | create hroot => exact Path.isLocation_normalize hroot
  | setFirst hroot _ => exact Path.isLocation_normalize hroot
  | @setNext ctx raw fields mode r hroot hread =>
    show Path.IsLocation r.path
    rw [Engine.path_of_record? hread]
    exact Path.isLocation_normalize hroot
  | firstBatch hroot _ _ => exact Path.isLocation_normalize hroot
  | nextBatch hroot _ _ => exact Path.isLocation_normalize hroot

/-- A reading of the clock that was taken between two moments. -/
def Ambient.Ticked (s t : Ambient) (time : Instant) : Prop :=
  ∃ i, s.clock.taken ≤ i ∧ i < t.clock.taken ∧ s.clock.readings i = time

namespace Store

open StoreCall

/-- A reading that is taken between two changes was taken meanwhile. -/
theorem ticked_of_now {P Q : Effect → Prop} {s u v t : Scene} {time : Instant}
    (hsu : s.Leads P u) (h : now u = .ok time v) (hvt : v.Leads Q t) :
    s.ambient.Ticked t.ambient time := by
  have hle := hsu.taken_le
  injection h with htime hv
  subst hv
  refine ⟨u.ambient.clock.taken, hle, hvt.taken_le, ?_⟩
  rw [← hsu.readings_eq]
  exact htime

/-- A record that stood before a call that only reads stands behind it. -/
theorem record?_of_keeps {a : Aead} {path : String} {s t : Scene} (h : s.Keeps t) :
    t.ambient.engine.record? a path = s.ambient.engine.record? a path := by
  apply Engine.record?_congr
  unfold Engine.value?
  rw [h.contents]

variable {a : Aead} {s t : Scene}

/-- What `create` is about to write is what it makes. -/
theorem makes_of_createDraft {ctx : Context} {raw : String} {fields : Fields} {d : Draft}
    (h : createDraft ctx raw fields s = .ok d t) :
    ∃ time, s.ambient.Ticked t.ambient time ∧
      (Command.create ctx raw fields).Makes a s.ambient.engine time d.record := by
  obtain ⟨session, u, hroot, -, hboundary, hrest⟩ := exists_of_writable h
  have hu : s.Leads Effect.Reads u := (leads_boundary ctx).ok hboundary
  obtain ⟨found, v, hexists, hrest⟩ := Call.exists_of_bind_ok hrest
  have hv : u.Leads Effect.Reads v := (leads_onBarrier (Barrier.leads_exists? _)).ok hexists
  split at hrest
  · exact absurd hrest Call.throw_ne_ok
  · obtain ⟨time, w, hnow, hpure⟩ := Call.exists_of_bind_ok hrest
    injection hpure with hd ht
    subst hd ht
    refine ⟨time, ?_, .create hroot⟩
    exact ticked_of_now (Scene.Leads.trans _ _ _ hu hv) hnow
      (Scene.Leads.refl (P := Effect.Reads) w)

/-- What `set` is about to write is what it makes. -/
theorem makes_of_setDraft {ctx : Context} {raw : String} {fields : Fields} {mode : WriteMode}
    {d : Draft} (hcipher : ∀ session, s.store.session = some session → session.cipher = a)
    (h : setDraft ctx raw fields mode s = .ok d t) :
    ∃ time, s.ambient.Ticked t.ambient time ∧
      (Command.set ctx raw fields mode).Makes a s.ambient.engine time d.record := by
  obtain ⟨session, u, hroot, hsession, hboundary, hrest⟩ := exists_of_writable h
  have hu : s.Leads Effect.Reads u := (leads_boundary ctx).ok hboundary
  obtain ⟨time, v, hnow, hrest⟩ := Call.exists_of_bind_ok hrest
  have hv : u.Leads Effect.Reads v := (leads_now).ok hnow
  obtain ⟨stored, w, hread, hpure⟩ := Call.exists_of_bind_ok hrest
  have hw : v.Leads Effect.Reads w := (leads_readRecord _ _).ok hread
  injection hpure with hd ht
  subst ht
  have hrecord := record?_of_readRecord hread
  rw [record?_of_keeps (Scene.Leads.trans _ _ _ hu hv).keeps, hcipher session hsession] at hrecord
  refine ⟨time, ticked_of_now hu hnow hw, ?_⟩
  rw [← hd]
  cases stored with
  | none => exact .setFirst hroot hrecord
  | some r => exact .setNext hroot hrecord

/-- What a reservation is about to write is what the increment makes. -/
theorem makes_of_reserveDraft {ctx : Context} {raw : String} {u : Scene} {x : Draft × Cursor}
    (hroot : Path.isRoot raw = false) (hu : s.Leads Effect.Reads u)
    (h : reserveDraft a (Path.normalize raw) u = .ok x t) :
    ∃ time, s.ambient.Ticked t.ambient time ∧
      (Command.increment ctx raw).Makes a s.ambient.engine time x.1.record := by
  obtain ⟨stored, v, hread, hrest⟩ := Call.exists_of_bind_ok h
  obtain ⟨start, w, hstart, hrest⟩ := Call.exists_of_bind_ok hrest
  have hrecord := record?_of_readRecord hread
  rw [record?_of_keeps hu.keeps] at hrecord
  have hw : u.Leads Effect.Reads w := Scene.Leads.trans _ _ _
    ((leads_readRecord a _).ok hread) ((leads_batchStart _ stored).ok hstart)
  cases hreserve : Cursor.reserve start with
  | none =>
    rw [hreserve] at hrest
    exact absurd hrest Call.throw_ne_ok
  | some batch =>
    obtain ⟨cursor, next⟩ := batch
    obtain ⟨hlimit, -, hnext⟩ := Cursor.reserve_eq_some hreserve
    rw [hreserve] at hrest
    obtain ⟨time, y, hnow, hpure⟩ := Call.exists_of_bind_ok hrest
    injection hpure with hx ht
    subst hx ht
    have hlt : next < Cursor.wordLimit := hnext ▸ hlimit
    refine ⟨time, ticked_of_now (Scene.Leads.trans _ _ _ hu hw) hnow
      (Scene.Leads.refl (P := Effect.Reads) y), ?_⟩
    cases stored with
    | none => exact .firstBatch hroot hlt hrecord
    | some r => exact .nextBatch hroot hlt hrecord

/-- What `increment` is about to write is what it makes. -/
theorem makes_of_incrementDraft {ctx : Context} {raw : String} {d : Draft}
    (hcipher : ∀ session, s.store.session = some session → session.cipher = a)
    (h : incrementDraft ctx raw s = .ok (some d) t) :
    ∃ time, s.ambient.Ticked t.ambient time ∧
      (Command.increment ctx raw).Makes a s.ambient.engine time d.record := by
  obtain ⟨session, u, hroot, hsession, hboundary, hbatch⟩ := exists_of_writable h
  have hu : s.Leads Effect.Reads u := (leads_boundary ctx).ok hboundary
  have hreserved : batchDraft.reserved session (Path.normalize raw) u = .ok (some d) t →
      ∃ time, s.ambient.Ticked t.ambient time ∧
        (Command.increment ctx raw).Makes a s.ambient.engine time d.record := by
    intro hrun
    obtain ⟨x, y, hreserve, hpure⟩ := Call.exists_of_bind_ok hrun
    injection hpure with hx hy
    injection hx with hx
    rw [hcipher session hsession] at hreserve
    rw [← hx, ← hy]
    exact makes_of_reserveDraft hroot hu hreserve
  unfold batchDraft at hbatch
  cases hfind : session.cursors.find? (Path.normalize raw) with
  | none =>
    rw [hfind] at hbatch
    exact hreserved hbatch
  | some cursor =>
    rw [hfind] at hbatch
    dsimp only at hbatch
    cases hspent : cursor.isSpent with
    | true =>
      rw [hspent, if_pos rfl] at hbatch
      exact hreserved hbatch
    | false =>
      rw [hspent, if_neg Bool.false_ne_true] at hbatch
      injection hbatch with hnone
      simp at hnone

end Store

namespace Command

variable {a : Aead} {s t : Scene} {c : Command} {d : Draft}

/-- What a command is about to write is what it makes. -/
theorem makes_of_draft (hcipher : ∀ session, s.store.session = some session → session.cipher = a)
    (h : c.draft s = .ok (some d) t) :
    ∃ time, s.ambient.Ticked t.ambient time ∧ c.Makes a s.ambient.engine time d.record := by
  cases c with
  | create ctx raw fields =>
    obtain ⟨d', u, hdraft, hpure⟩ := Call.exists_of_bind_ok h
    injection hpure with hd hu
    injection hd with hd
    subst hd hu
    exact Store.makes_of_createDraft hdraft
  | set ctx raw fields mode =>
    obtain ⟨d', u, hdraft, hpure⟩ := Call.exists_of_bind_ok h
    injection hpure with hd hu
    injection hd with hd
    subst hd hu
    exact Store.makes_of_setDraft hcipher hdraft
  | increment ctx raw => exact Store.makes_of_incrementDraft hcipher h
  | _ =>
    injection h with hnone
    simp at hnone

end Command

/-- A value that decrypts to a proper record that is not too deep is read as that record. -/
theorem Engine.record?_of_value {a : Aead} {e : Engine} {r : Record} {value : Bytes}
    (hproper : r.IsProper) (hshallow : r.fields.IsShallow)
    (hdecrypt : Stream.decrypt a value = .ok r.toBytes) (hvalue : e.value? r.path = some value) :
    e.record? a r.path = .ok (some r) := by
  have hreads : r.ReadsBack :=
    Record.readsBack_of_isProper ⟨hproper.fields, hshallow⟩ hproper.createdAt hproper.updatedAt
  exact record?_of_decrypt hvalue hdecrypt hreads.ofBytes

/-! ## Behind the writing -/

/-- The same engine and the same clock. -/
structure Scene.Settles (s t : Scene) : Prop where
  engine : t.ambient.engine = s.ambient.engine
  clock : t.ambient.clock = s.ambient.clock

namespace Scene.Settles

/-- A scene settles to itself. -/
theorem refl (s : Scene) : s.Settles s := ⟨rfl, rfl⟩

/-- Settling is transitive. -/
theorem trans (s t u : Scene) (hst : s.Settles t) (htu : t.Settles u) : s.Settles u :=
  ⟨htu.engine.trans hst.engine, htu.clock.trans hst.clock⟩

/-- A call with others behind it that change neither engine nor clock. -/
theorem of_bind {α β : Type} {f : α → StoreCall β} (hf : ∀ y, Respects Settles (f y))
    (x : StoreCall α) (s : Scene) : (Call.after (x s)).Settles (Call.after ((x >>= f) s)) := by
  cases hrun : x s with
  | ok y t =>
    rw [Call.bind_ok hrun]
    exact hf y t
  | error e t =>
    rw [Call.bind_error hrun]
    exact refl t

end Scene.Settles

namespace Command

variable {a : Aead} {s t : Scene} {c : Command} {d : Draft}

/-- Emitting an event changes neither engine nor clock. -/
theorem settles_tell (e : Event) : Respects Scene.Settles (StoreCall.tell e) :=
  fun _ => ⟨rfl, rfl⟩

/-- Two chains that begin with the same call go on from the same scene. -/
theorem after_of_shared {α β γ : Type} {x : StoreCall β} {draft : β → StoreCall γ}
    {f : β → StoreCall α} {P : Scene → Prop} {y : γ} (h : (x >>= draft) s = .ok y t)
    (hrest : ∀ z u, draft z u = .ok y t → P (Call.after (f z u))) :
    P (Call.after ((x >>= f) s)) := by
  obtain ⟨z, u, hx, hdraft⟩ := Call.exists_of_bind_ok h
  rw [Call.bind_ok hx]
  exact hrest z u hdraft

/-- Behind the writing of a batch, choosing a cursor changes neither engine nor clock. -/
theorem settles_cursorFor {session : Session} {path : String} {α : Type}
    {rest : Cursor → StoreCall α} (hrest : ∀ cursor, Respects Scene.Settles (rest cursor))
    (h : Store.batchDraft session path s = .ok (some d) t) :
    (Call.after (StoreCall.writeRecord d.cipher d.record t)).Settles
      (Call.after ((Store.cursorFor session path >>= rest) s)) := by
  have hreserved : Store.batchDraft.reserved session path s = .ok (some d) t →
      (Call.after (StoreCall.writeRecord d.cipher d.record t)).Settles
        (Call.after ((Store.reserve session.cipher path >>= rest) s)) := by
    intro hrun
    obtain ⟨x, u, hreserve, hpure⟩ := Call.exists_of_bind_ok hrun
    injection hpure with hd hu
    injection hd with hd
    subst hd hu
    rw [Store.reserve_eq]
    simp only [bind_assoc, pure_bind]
    rw [Call.bind_ok hreserve]
    apply Scene.Settles.of_bind
    intro _
    exact Respects.bind Scene.Settles.trans (settles_tell _) fun _ => hrest x.2
  unfold Store.batchDraft at h
  unfold Store.cursorFor
  cases hfind : session.cursors.find? path with
  | none =>
    rw [hfind] at h
    exact hreserved h
  | some cursor =>
    rw [hfind] at h
    dsimp only at h ⊢
    cases hspent : cursor.isSpent with
    | true =>
      rw [hspent] at h
      exact hreserved h
    | false =>
      rw [hspent] at h
      injection h with hnone
      simp at hnone

/-- Keeping a cursor changes neither engine nor clock. -/
theorem settles_keepCursor (path : String) (cursor : Cursor) :
    Respects Scene.Settles (Store.keepCursor path cursor) := fun _ => ⟨rfl, rfl⟩

/-- Behind its writing a command changes neither engine nor clock. -/
theorem settles_run (h : c.draft s = .ok (some d) t) :
    (Call.after (StoreCall.writeRecord d.cipher d.record t)).Settles (c.run a s) := by
  cases c with
  | create ctx raw fields =>
    obtain ⟨d', u, hdraft, hpure⟩ := Call.exists_of_bind_ok h
    injection hpure with hd hu
    injection hd with hd
    subst hd hu
    show Scene.Settles _ (Call.after (Store.create ctx raw fields s))
    rw [Store.create_eq, Call.bind_ok hdraft]
    exact Scene.Settles.of_bind (fun _ => settles_tell _) _ _
  | set ctx raw fields mode =>
    obtain ⟨d', u, hdraft, hpure⟩ := Call.exists_of_bind_ok h
    injection hpure with hd hu
    injection hd with hd
    subst hd hu
    show Scene.Settles _ (Call.after (Store.set ctx raw fields mode s))
    rw [Store.set_eq, Call.bind_ok hdraft]
    exact Scene.Settles.of_bind (fun _ => settles_tell _) _ _
  | increment ctx raw =>
    refine after_of_shared h fun _ u h => after_of_shared h fun path v h =>
      after_of_shared h fun session w h => settles_cursorFor ?_ h
    intro cursor
    cases cursor.advance with
    | none => exact Respects.throw Scene.Settles.refl _
    | some next =>
      refine Respects.bind Scene.Settles.trans (settles_keepCursor path next.2) fun _ => ?_
      split
      · exact Respects.pure Scene.Settles.refl _
      · exact Respects.throw Scene.Settles.refl _
  | _ =>
    injection h with hnone
    simp at hnone

/-- A record that a command writes was made of one reading of the clock. -/
theorem made_of_writing {x : Writing}
    (hcipher : ∀ session, s.store.session = some session → session.cipher = a)
    (h : c.writing s = some x) :
    ∃ time, s.ambient.Ticked (c.run a s).ambient time ∧
      c.Makes a s.ambient.engine time x.record := by
  obtain ⟨d, t, hdraft, hrecord⟩ := StoreCall.exists_of_writingOf h
  obtain ⟨time, ⟨i, hfrom, hto, htime⟩, hmakes⟩ := makes_of_draft hcipher hdraft
  have hwrite := ((StoreCall.leads_writeRecord (P := Effect.Alters fun _ => True)
    d.cipher d.record trivial) t).taken_le
  have hclock := (settles_run (a := a) hdraft).clock
  refine ⟨time, ⟨i, hfrom, ?_, htime⟩, hrecord ▸ hmakes⟩
  rw [hclock]
  omega

/-- On an engine without faults, what a command encrypts is stored. -/
theorem put_of_writing (ha : a.Lawful) (hs : s.ambient.engine.IsSteady) {x : Writing}
    (hcipher : ∀ session, s.store.session = some session → session.cipher = a)
    (h : c.writing s = some x) :
    ∃ value, Stream.decrypt a value = .ok x.record.toBytes ∧
      (c.run a s).ambient.engine.contents =
        s.ambient.engine.contents.put x.record.path value := by
  obtain ⟨d, t, hdraft, hrecord⟩ := StoreCall.exists_of_writingOf h
  obtain ⟨session, hsession, hd⟩ := (isOf_of_draft hdraft).cipher
  rw [hcipher session hsession] at hd
  have hdrafted := c.leads_draft.ok hdraft
  have hcontents := hdrafted.keeps.contents
  have hsteady := hdrafted.isSteady hs
  have hengine := (settles_run (a := a) hdraft).engine
  rw [← hd, ← hrecord] at hengine
  rcases StoreCall.writeRecord_of_isHealthy ha hsteady.isHealthy x.record with
    ⟨-, value, hdecrypt, hrun⟩ | ⟨hlong, -⟩
  · rw [hrun] at hengine
    refine ⟨value, hdecrypt, ?_⟩
    rw [hengine, ← hcontents]
    rfl
  · exact absurd x.fits hlong

/-- What a command has encrypted is read, if it is proper and not too deep. -/
theorem record?_of_writing (ha : a.Lawful) (hs : s.ambient.engine.IsSteady) {x : Writing}
    (hcipher : ∀ session, s.store.session = some session → session.cipher = a)
    (h : c.writing s = some x) (hproper : x.record.IsProper)
    (hshallow : x.record.fields.IsShallow) :
    (c.run a s).ambient.engine.record? a x.record.path = .ok (some x.record) := by
  obtain ⟨value, hdecrypt, hcontents⟩ := put_of_writing ha hs hcipher h
  apply Engine.record?_of_value hproper hshallow hdecrypt
  unfold Engine.value?
  rw [hcontents]
  exact Contents.value?_put_self _ _ _

/-- What holds of the fields that a command is given. -/
def Gives (P : Fields → Prop) : Command → Prop
  | .create _ _ fields => P fields
  | .set _ _ fields _ => P fields
  | _ => True

/-- The fields that a command is given are legible. -/
def IsLegible (c : Command) : Prop := c.Gives Fields.IsLegible

end Command

/-! ## Runs of commands -/

namespace Watch

/-- The commands of a list in order, each with the place of its store. -/
def perform (a : Aead) (w : Watch) (steps : List (Nat × Command)) : Watch :=
  steps.foldl (fun w q => w.command a q.1 q.2) w

variable {a : Aead} {w : Watch}

/-- What every command keeps, a run keeps. -/
theorem perform_induction {P : Watch → Prop} {steps : List (Nat × Command)} (hw : P w)
    (hstep : ∀ v i c, (i, c) ∈ steps → P v → P (v.command a i c)) : P (w.perform a steps) := by
  induction steps generalizing w with
  | nil => exact hw
  | cons q steps ih =>
    apply ih (hstep w q.1 q.2 List.mem_cons_self hw)
    intro v i c hmem
    exact hstep v i c (List.mem_cons_of_mem q hmem)

/-- Closed stores over an empty engine, and nothing written yet.  The readings of the clock are
proper: a leap second stands only at the end of a minute, as the clocks of a store show it.  A
reading with one elsewhere would be stored as another instant than the one that was read. -/
structure IsNew (w : Watch) : Prop where
  closed : ∀ i, (w.fleet.stores i).session = none
  log : w.log = []
  size : w.fleet.ambient.engine.contents.size = 0
  clock : w.fleet.ambient.clock.IsProper

/-- Every stored value is the encryption of a proper record that was written. -/
structure IsTracked (a : Aead) (w : Watch) : Prop where
  cipher : w.fleet.HasCipher a
  clock : w.fleet.ambient.clock.IsProper
  log : ∀ x ∈ w.log, x.record.IsProper
  placed : ∀ x ∈ w.log, Path.IsLocation x.record.path
  held : ∀ key c, w.fleet.ambient.engine.Holds key c →
    ∃ x ∈ w.log, Stream.decrypt a c = .ok x.record.toBytes

/-- A new watch is tracked: it holds nothing. -/
theorem IsNew.isTracked (h : w.IsNew) : w.IsTracked a := by
  refine ⟨?_, h.clock, ?_, ?_, ?_⟩
  · intro i session hsession
    simp [h.closed i] at hsession
  · simp [h.log]
  · simp [h.log]
  · intro key c hc
    have hvalue := Contents.holds_iff.1 hc
    simp [Contents.value?_of_size h.size] at hvalue

/-- What holds of the records that were written, and of every record that the command makes,
holds after it. -/
theorem forall_log_command {P : Record → Prop} {i : Nat} {c : Command}
    (hcipher : w.fleet.HasCipher a) (hlog : ∀ x ∈ w.log, P x.record)
    (hmakes : ∀ time r, w.fleet.ambient.Ticked (w.command a i c).fleet.ambient time →
      c.Makes a w.fleet.ambient.engine time r → P r) :
    ∀ x ∈ (w.command a i c).log, P x.record := by
  intro x hx
  rcases List.mem_append.1 hx with hx | hx
  · exact hlog x hx
  · obtain ⟨time, hticked, hmade⟩ :=
      Command.made_of_writing (hcipher i) (Option.mem_toList.1 hx)
    exact hmakes time x.record hticked hmade

namespace IsTracked

/-- A record that is read was written. -/
theorem exists_of_record? (h : w.IsTracked a) {path : String} {r : Record}
    (hread : w.fleet.ambient.engine.record? a path = .ok (some r)) :
    ∃ x ∈ w.log, x.record = r := by
  rcases Engine.cases_of_record? hread with ⟨hnone, -⟩ | ⟨c, p, s, hsome, hvalue, hdecrypt, hbytes⟩
  · simp at hnone
  · obtain rfl : r = s := by simpa using hsome
    obtain ⟨x, hx, hplain⟩ := h.held path c (Contents.holds_of_value? hvalue)
    have hparse := (Record.ofBytes_eq_ok hbytes).1
    have hsame : x.record.toBytes = p := by
      rw [hplain] at hdecrypt
      injection hdecrypt
    rw [← hsame] at hparse
    exact ⟨x, hx, Record.eq_of_isProper (h.log x hx) hparse⟩

/-- A command makes a proper record at the path that it names. -/
theorem isProper_of_makes (h : w.IsTracked a) {c : Command} (hc : c.IsLegible) {time : Instant}
    (htime : time.IsProper) {r : Record}
    (hmakes : c.Makes a w.fleet.ambient.engine time r) : r.IsProper := by
  have hcounter : ∀ {next}, next < Cursor.wordLimit → (Counter.fieldsFor next).IsLegible :=
    fun hnext => (Counter.readsBack_fieldsFor hnext).1
  cases hmakes with
  | create _ => exact ⟨hc, htime, htime⟩
  | setFirst _ _ => exact ⟨hc, htime, htime⟩
  | @setNext ctx raw fields mode r _ hread =>
    obtain ⟨x, hx, rfl⟩ := h.exists_of_record? hread
    have hold := h.log x hx
    refine ⟨?_, hold.createdAt, Instant.isProper_later htime hold.createdAt⟩
    cases mode with
    | replace => exact hc
    | merge => exact Json.Value.Legible.merge hold.fields hc
  | firstBatch _ hnext _ => exact ⟨hcounter hnext, htime, htime⟩
  | nextBatch _ hnext hread =>
    obtain ⟨x, hx, rfl⟩ := h.exists_of_record? hread
    exact ⟨hcounter hnext, (h.log x hx).createdAt, htime⟩

/-- Every command with legible fields keeps a watch tracked. -/
theorem command (ha : a.Lawful) (h : w.IsTracked a) (i : Nat) {c : Command} (hc : c.IsLegible) :
    (w.command a i c).IsTracked a := by
  have hyields := c.yields_run (s := w.fleet.scene i) ha (h.cipher i)
  refine ⟨h.cipher.withScene (hyields.cipher (h.cipher i)), ?_, ?_, ?_, ?_⟩
  · intro n
    show ((c.run a (w.fleet.scene i)).ambient.clock.readings n).IsProper
    rw [hyields.readings]
    exact h.clock n
  · apply forall_log_command h.cipher h.log
    rintro time r ⟨n, -, -, rfl⟩ hmakes
    exact h.isProper_of_makes hc (h.clock n) hmakes
  · apply forall_log_command (P := fun r => Path.IsLocation r.path) h.cipher h.placed
    intro time r _ hmakes
    exact hmakes.isLocation
  · intro key value hvalue
    rcases hyields.holds key value hvalue with hold | ⟨y, hy, hciphertext⟩
    · obtain ⟨x, hx, hdecrypt⟩ := h.held key value hold
      exact ⟨x, List.mem_append_left _ hx, hdecrypt⟩
    · exact ⟨y, List.mem_append_right _ (Option.mem_toList.2 hy),
        Stream.decrypt_ciphertext ha hciphertext⟩

end IsTracked

/-- In every run of commands with legible fields, what is stored is what was written. -/
theorem isTracked_perform (k : Key) (hw : w.IsNew) {steps : List (Nat × Command)}
    (hsteps : ∀ q ∈ steps, q.2.IsLegible) : (w.perform k.cipher steps).IsTracked k.cipher :=
  perform_induction hw.isTracked fun _ i _ hmem h => h.command k.lawful_cipher i (hsteps _ hmem)

/-- An engine without faults stays so. -/
theorem isSteady_perform (a : Aead) (steps : List (Nat × Command))
    (hw : w.fleet.ambient.engine.IsSteady) :
    (w.perform a steps).fleet.ambient.engine.IsSteady := by
  refine perform_induction (P := fun v => v.fleet.ambient.engine.IsSteady) hw ?_
  intro v i c _ hv
  exact (c.leads_run a (v.fleet.scene i)).isSteady hv

/-- Closed stores with the standard settings over an empty volatile engine. -/
def fresh (clock : Clock) : Watch :=
  ⟨⟨fun _ => .new .standard, { engine := default, clock, entropy := ⟨UInt8.ofNat, 0⟩ }⟩,
    fun _ => none, []⟩

/-- The fresh watch is new. -/
theorem isNew_fresh {clock : Clock} (h : clock.IsProper) : (fresh clock).IsNew :=
  ⟨fun _ => rfl, rfl, rfl, h⟩

/-- The engine of the fresh watch is without faults. -/
theorem isSteady_fresh (clock : Clock) : (fresh clock).fleet.ambient.engine.IsSteady :=
  ⟨⟨.inl rfl, rfl, trivial⟩, trivial⟩

end Watch

end Strongbox
