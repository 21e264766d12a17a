import Strongbox.Proofs.Cipher.Splicing
import Strongbox.Proofs.Counter
import Strongbox.Proofs.Store.Reading

/-!
# What operations write

Of every operation that writes, the calls up to the writing form its draft.  The record that
the draft ends with is the only thing that the operation encrypts, and its ciphertext is the
only thing that it adds to the engine.
-/

set_option autoImplicit false

namespace Strongbox

open Call (Respects)

/-! ## Drafts -/

/-- A record that is about to be written, and the cipher under which this is done. -/
structure Draft where
  cipher : Aead
  record : Record

/-- The encryption of a record: the source of random octets that it draws from, and the
record, which is short enough to be encrypted. -/
structure Writing where
  entropy : Entropy
  record : Record
  fits : Stream.Fits record.toBytes

/-- The encryption of the record's bytes. -/
def Writing.call (x : Writing) : Stream.Call := ⟨x.entropy, x.record.toBytes, x.fits⟩

/-- The encryption with which a draft is written, if its record is short enough. -/
def Draft.writing? (d : Draft) (s : Scene) : Option Writing :=
  if h : Stream.Fits d.record.toBytes then some ⟨s.ambient.entropy, d.record, h⟩ else none

namespace Store

open StoreCall

/-- The creation of a document up to the writing. -/
def createDraft (ctx : Context) (raw : String) (fields : Fields) : StoreCall Draft := do
  boundary ctx
  let path ← writable raw
  let s ← openSession
  let found ← onBarrier path (Barrier.exists? path)
  if found then
    throw (.pathExists path)
  else
    let time ← now
    pure ⟨s.cipher, ⟨path, fields, time, time⟩⟩

/-- `create` writes its draft. -/
theorem create_eq (ctx : Context) (raw : String) (fields : Fields) :
    create ctx raw fields = (do
      let d ← createDraft ctx raw fields
      writeRecord d.cipher d.record
      tell (.created d.record.path)) := by
  unfold create createDraft
  simp only [bind_assoc]
  refine bind_congr fun _ => bind_congr fun path => bind_congr fun s => bind_congr fun found => ?_
  split
  · rfl
  · simp only [bind_assoc, pure_bind]

/-- The writing of a document up to the writing proper. -/
def setDraft (ctx : Context) (raw : String) (fields : Fields) (mode : WriteMode) :
    StoreCall Draft := do
  boundary ctx
  let path ← writable raw
  let s ← openSession
  let time ← now
  let stored ← readRecord s.cipher path
  let record :=
    match stored with
    | none => ⟨path, fields, time, time⟩
    | some r => revise mode fields time r
  pure ⟨s.cipher, record⟩

/-- `set` writes its draft. -/
theorem set_eq (ctx : Context) (raw : String) (fields : Fields) (mode : WriteMode) :
    set ctx raw fields mode = (do
      let d ← setDraft ctx raw fields mode
      writeRecord d.cipher d.record
      tell (.written (WriteMode.isMerge mode) d.record.path)) := by
  unfold set setDraft
  simp only [bind_assoc]
  refine bind_congr fun _ => bind_congr fun path => bind_congr fun s => bind_congr fun time =>
    bind_congr fun stored => ?_
  exact (pure_bind _ _).symm

/-- The reservation of a batch up to the writing, with the cursor of the batch. -/
def reserveDraft (a : Aead) (path : String) : StoreCall (Draft × Cursor) := do
  let stored ← readRecord a path
  let start ← batchStart path stored
  match Cursor.reserve start with
  | none => throw (.incrementExhausted path)
  | some (cursor, next) =>
    let time ← now
    let createdAt :=
      match stored with
      | none => time
      | some r => r.createdAt
    pure (⟨a, ⟨path, Counter.fieldsFor next, createdAt, time⟩⟩, cursor)

/-- A reservation writes its draft. -/
theorem reserve_eq (a : Aead) (path : String) :
    reserve a path = (do
      let x ← reserveDraft a path
      writeRecord x.1.cipher x.1.record
      tell (.reserved (x.2.ceiling + 1) path)
      pure x.2) := by
  unfold reserve reserveDraft
  simp only [bind_assoc]
  refine bind_congr fun stored => bind_congr fun start => ?_
  cases hreserve : Cursor.reserve start with
  | none => rfl
  | some batch =>
    obtain ⟨cursor, next⟩ := batch
    obtain ⟨-, rfl, rfl⟩ := Cursor.reserve_eq_some hreserve
    dsimp only
    rw [bind_assoc]
    refine bind_congr fun time => ?_
    exact (pure_bind _ _).symm

/-- The batch that the next identifier of a counter needs, if any, up to the writing. -/
def batchDraft (session : Session) (path : String) : StoreCall (Option Draft) :=
  match session.cursors.find? path with
  | some cursor => if cursor.isSpent then reserved else pure none
  | none => reserved
where
  reserved : StoreCall (Option Draft) := do
    let x ← reserveDraft session.cipher path
    pure (some x.1)

/-- The increment of a counter up to the writing, if it writes. -/
def incrementDraft (ctx : Context) (raw : String) : StoreCall (Option Draft) := do
  boundary ctx
  let path ← writable raw
  let s ← openSession
  batchDraft s path

end Store

/-! ## Where drafts come from -/

/-- A reading of the clock, or the time of creation of a record that the engine holds. -/
def Scene.HasTime (a : Aead) (s : Scene) (time : Time.Instant) : Prop :=
  (∃ i, s.ambient.clock.readings i = time) ∨
    ∃ key c r, s.ambient.engine.Holds key c ∧ Entry.Reads a (key, c) (Record.toDocument r) ∧
      r.createdAt = time

/-- A time behind a call that only reads is one from before. -/
theorem Scene.HasTime.of_keeps {a : Aead} {s t : Scene} {time : Time.Instant}
    (h : t.HasTime a time) (hkeeps : s.Keeps t) : s.HasTime a time := by
  rcases h with ⟨i, hi⟩ | ⟨key, c, r, hc, hreads, hr⟩
  · rw [hkeeps.readings] at hi
    exact .inl ⟨i, hi⟩
  · exact .inr ⟨key, c, r, hkeeps.holds hc, hreads, hr⟩

/-- A draft has the cipher of the session, and its times are times of the scene. -/
structure Draft.IsOf (d : Draft) (s : Scene) : Prop where
  cipher : ∃ session, s.store.session = some session ∧ session.cipher = d.cipher
  createdAt : s.HasTime d.cipher d.record.createdAt
  updatedAt : s.HasTime d.cipher d.record.updatedAt

namespace Store

open StoreCall

/-- A draft of a creation only reads. -/
theorem leads_createDraft (ctx : Context) (raw : String) (fields : Fields) :
    Respects (Scene.Leads Effect.Reads) (createDraft ctx raw fields) := by
  refine leads_bind (leads_boundary ctx) fun _ => leads_bind (leads_writable raw) fun path =>
    leads_bind leads_openSession fun s =>
      leads_bind (leads_onBarrier (Barrier.leads_exists? path)) fun found => ?_
  split
  · exact leads_throw _
  · exact leads_bind leads_now fun _ => leads_pure _

/-- What `create` drafts is of its scene. -/
theorem isOf_createDraft {ctx : Context} {raw : String} {fields : Fields} {s t : Scene} {d : Draft}
    (h : createDraft ctx raw fields s = .ok d t) : d.IsOf s := by
  obtain ⟨session, u, -, hsession, hboundary, hrest⟩ := exists_of_writable h
  have hu := (leads_boundary ctx).keeps.ok hboundary
  obtain ⟨found, x, hexists, hrest⟩ := Call.exists_of_bind_ok hrest
  have hx := (leads_onBarrier (Barrier.leads_exists? _)).keeps.ok hexists
  split at hrest
  · exact absurd hrest Call.throw_ne_ok
  · obtain ⟨time, y, hnow, hpure⟩ := Call.exists_of_bind_ok hrest
    injection hpure with hpure
    have htime := now_eq_ok hnow
    rw [hx.readings, hu.readings] at htime
    rw [← hpure]
    exact ⟨⟨session, hsession, rfl⟩, .inl htime, .inl htime⟩

/-- A draft of a writing only reads. -/
theorem leads_setDraft (ctx : Context) (raw : String) (fields : Fields) (mode : WriteMode) :
    Respects (Scene.Leads Effect.Reads) (setDraft ctx raw fields mode) :=
  leads_bind (leads_boundary ctx) fun _ => leads_bind (leads_writable raw) fun _ =>
    leads_bind leads_openSession fun _ => leads_bind leads_now fun _ =>
      leads_bind (leads_readRecord _ _) fun _ => leads_pure _

/-- The later of two times of a scene is a time of it. -/
theorem hasTime_later {a : Aead} {s : Scene} {x y : Time.Instant} (hx : s.HasTime a x)
    (hy : s.HasTime a y) : s.HasTime a (Time.Instant.later x y) := by
  unfold Time.Instant.later
  split
  · exact hy
  · exact hx

/-- What `set` drafts is of its scene. -/
theorem isOf_setDraft {ctx : Context} {raw : String} {fields : Fields} {mode : WriteMode}
    {s t : Scene} {d : Draft} (h : setDraft ctx raw fields mode s = .ok d t) : d.IsOf s := by
  obtain ⟨session, u, -, hsession, hboundary, hrest⟩ := exists_of_writable h
  have hu := (leads_boundary ctx).keeps.ok hboundary
  obtain ⟨time, x, hnow, hrest⟩ := Call.exists_of_bind_ok hrest
  have hx := Scene.Keeps.trans _ _ _ hu ((leads_now).keeps.ok hnow)
  obtain ⟨stored, y, hread, hpure⟩ := Call.exists_of_bind_ok hrest
  injection hpure with hpure
  have htime := now_eq_ok hnow
  rw [hu.readings] at htime
  rw [← hpure]
  cases stored with
  | none => exact ⟨⟨session, hsession, rfl⟩, .inl htime, .inl htime⟩
  | some r =>
    obtain ⟨c, hc, hreads⟩ := exists_of_readRecord hread
    have hcreated : s.HasTime session.cipher r.createdAt :=
      .inr ⟨_, c, r, hx.holds hc, hreads, rfl⟩
    exact ⟨⟨session, hsession, rfl⟩, hcreated, hasTime_later (.inl htime) hcreated⟩

/-- A draft of a reservation only reads. -/
theorem leads_reserveDraft (a : Aead) (path : String) :
    Respects (Scene.Leads Effect.Reads) (reserveDraft a path) := by
  refine leads_bind (leads_readRecord a path) fun stored =>
    leads_bind (leads_batchStart path stored) fun start => ?_
  cases Cursor.reserve start with
  | none => exact leads_throw _
  | some batch => exact leads_bind leads_now fun _ => leads_pure _

/-- So does the draft of an increment, which reserves a batch at most. -/
theorem leads_incrementDraft (ctx : Context) (raw : String) :
    Respects (Scene.Leads Effect.Reads) (incrementDraft ctx raw) := by
  have hreserved : ∀ (session : Session) (path : String),
      Respects (Scene.Leads Effect.Reads) (batchDraft.reserved session path) :=
    fun session path => leads_bind (leads_reserveDraft session.cipher path) fun _ => leads_pure _
  refine leads_bind (leads_boundary ctx) fun _ => leads_bind (leads_writable raw) fun path =>
    leads_bind leads_openSession fun session => ?_
  unfold batchDraft
  split
  · split
    · exact hreserved session path
    · exact leads_pure none
  · exact hreserved session path

/-- What a reservation drafts has the given cipher and times of its scene. -/
theorem times_of_reserveDraft {a : Aead} {path : String} {s t : Scene} {x : Draft × Cursor}
    (h : reserveDraft a path s = .ok x t) :
    x.1.cipher = a ∧ s.HasTime a x.1.record.createdAt ∧ s.HasTime a x.1.record.updatedAt := by
  obtain ⟨stored, u, hread, hrest⟩ := Call.exists_of_bind_ok h
  have hu := (leads_readRecord a path).keeps.ok hread
  obtain ⟨start, v, hbatch, hrest⟩ := Call.exists_of_bind_ok hrest
  have hv := Scene.Keeps.trans _ _ _ hu ((leads_batchStart path stored).keeps.ok hbatch)
  cases hreserve : Cursor.reserve start with
  | none =>
    rw [hreserve] at hrest
    exact absurd hrest Call.throw_ne_ok
  | some batch =>
    rw [hreserve] at hrest
    obtain ⟨time, w, hnow, hpure⟩ := Call.exists_of_bind_ok hrest
    injection hpure with hpure
    have htime := now_eq_ok hnow
    rw [hv.readings] at htime
    rw [← hpure]
    cases stored with
    | none => exact ⟨rfl, .inl htime, .inl htime⟩
    | some r =>
      obtain ⟨c, hc, hreads⟩ := exists_of_readRecord hread
      exact ⟨rfl, .inr ⟨path, c, r, hc, hreads, rfl⟩, .inl htime⟩

/-- What `increment` drafts is of its scene. -/
theorem isOf_incrementDraft {ctx : Context} {raw : String} {s t : Scene} {d : Draft}
    (h : incrementDraft ctx raw s = .ok (some d) t) : d.IsOf s := by
  obtain ⟨session, u, -, hsession, hboundary, hbatch⟩ := exists_of_writable h
  have hu := (leads_boundary ctx).keeps.ok hboundary
  have hreserved : ∀ {t : Scene},
      batchDraft.reserved session (Path.normalize raw) u = .ok (some d) t → d.IsOf s := by
    intro t hrun
    obtain ⟨x, y, hreserve, hpure⟩ := Call.exists_of_bind_ok hrun
    injection hpure with hpure
    injection hpure with hpure
    obtain ⟨hcipher, hcreated, hupdated⟩ := times_of_reserveDraft hreserve
    rw [← hpure]
    refine ⟨⟨session, hsession, hcipher.symm⟩, ?_, ?_⟩
    · rw [hcipher]
      exact hcreated.of_keeps hu
    · rw [hcipher]
      exact hupdated.of_keeps hu
  unfold batchDraft at hbatch
  cases hfind : session.cursors.find? (Path.normalize raw) with
  | none =>
    rw [hfind] at hbatch
    exact hreserved hbatch
  | some cursor =>
    rw [hfind] at hbatch
    dsimp only at hbatch
    cases hspent : cursor.isSpent with
    | true =>
      rw [hspent, if_pos rfl] at hbatch
      exact hreserved hbatch
    | false =>
      rw [hspent, if_neg Bool.false_ne_true] at hbatch
      injection hbatch with hnone
      exact absurd hnone (by simp)

end Store

/-! ## What operations do -/

namespace Store

open StoreCall

/-- The place that a raw path names, if it is below the root. -/
def Names (raw key : String) : Prop := Path.isRoot raw = false ∧ key = Path.normalize raw

/-- A document is created at the place that is named. -/
theorem names_of_createDraft {ctx : Context} {raw : String} {fields : Fields} {s t : Scene}
    {d : Draft} (h : createDraft ctx raw fields s = .ok d t) : Names raw d.record.path := by
  obtain ⟨session, u, hroot, -, -, hrest⟩ := exists_of_writable h
  obtain ⟨found, x, -, hrest⟩ := Call.exists_of_bind_ok hrest
  split at hrest
  · exact absurd hrest Call.throw_ne_ok
  · obtain ⟨time, y, -, hpure⟩ := Call.exists_of_bind_ok hrest
    injection hpure with hd
    rw [← hd]
    exact ⟨hroot, rfl⟩

/-- A document is written at the place that is named, since a stored record is only read where
it belongs. -/
theorem names_of_setDraft {ctx : Context} {raw : String} {fields : Fields} {mode : WriteMode}
    {s t : Scene} {d : Draft} (h : setDraft ctx raw fields mode s = .ok d t) :
    Names raw d.record.path := by
  obtain ⟨session, u, hroot, -, -, hrest⟩ := exists_of_writable h
  obtain ⟨time, x, -, hrest⟩ := Call.exists_of_bind_ok hrest
  obtain ⟨stored, y, hread, hpure⟩ := Call.exists_of_bind_ok hrest
  injection hpure with hd
  rw [← hd]
  cases stored with
  | none => exact ⟨hroot, rfl⟩
  | some r =>
    have hpath : r.path = Path.normalize raw :=
      Engine.path_of_record? (record?_of_readRecord hread)
    exact ⟨hroot, hpath⟩

/-- A batch is reserved at the place of its counter. -/
theorem path_of_reserveDraft {a : Aead} {path : String} {s t : Scene} {x : Draft × Cursor}
    (h : reserveDraft a path s = .ok x t) : x.1.record.path = path := by
  obtain ⟨stored, u, -, hrest⟩ := Call.exists_of_bind_ok h
  obtain ⟨start, v, -, hrest⟩ := Call.exists_of_bind_ok hrest
  cases hreserve : Cursor.reserve start with
  | none =>
    rw [hreserve] at hrest
    exact absurd hrest Call.throw_ne_ok
  | some batch =>
    rw [hreserve] at hrest
    obtain ⟨time, w, -, hpure⟩ := Call.exists_of_bind_ok hrest
    rw [← (EStateM.Result.ok.inj hpure).1]

/-- `create` alters its path only. -/
theorem leads_create (ctx : Context) (raw : String) (fields : Fields) :
    Respects (Scene.Leads (Effect.Alters (Names raw))) (create ctx raw fields) := by
  rw [create_eq]
  refine Respects.bind_of_ok Scene.Leads.trans
    ((leads_createDraft ctx raw fields).mono fun _ he => he.allowed) fun d s t hdraft => ?_
  exact leads_bind (leads_writeRecord _ _ (names_of_createDraft hdraft)) fun _ => leads_tell _

/-- `set` alters its path only. -/
theorem leads_set (ctx : Context) (raw : String) (fields : Fields) (mode : WriteMode) :
    Respects (Scene.Leads (Effect.Alters (Names raw))) (set ctx raw fields mode) := by
  rw [set_eq]
  refine Respects.bind_of_ok Scene.Leads.trans
    ((leads_setDraft ctx raw fields mode).mono fun _ he => he.allowed) fun d s t hdraft => ?_
  exact leads_bind (leads_writeRecord _ _ (names_of_setDraft hdraft)) fun _ => leads_tell _

/-- A reservation writes under its path only, and it deletes, opens and closes nothing. -/
theorem leads_reserve {K : String → Prop} (a : Aead) {path : String} (hpath : K path) :
    Respects (Scene.Leads (Effect.Counts K)) (reserve a path) := by
  rw [reserve_eq]
  refine Respects.bind_of_ok Scene.Leads.trans
    ((leads_reserveDraft a path).mono fun _ he => he.allowed) fun x s t hdraft => ?_
  have hkey : K x.1.record.path := by
    rw [path_of_reserveDraft hdraft]
    exact hpath
  exact leads_bind (leads_writeRecord _ _ hkey) fun _ => leads_bind (leads_tell _) fun _ =>
    leads_pure _

/-- `increment` writes under its path only, and it deletes, opens and closes nothing. -/
theorem leads_increment (ctx : Context) (raw : String) :
    Respects (Scene.Leads (Effect.Counts (Names raw))) (increment ctx raw) := by
  refine leads_bind (leads_boundary ctx) fun _ => leads_writing fun hroot => ?_
  have hreserve : ∀ a, Respects (Scene.Leads (Effect.Counts (Names raw)))
      (reserve a (Path.normalize raw)) := fun a => leads_reserve a ⟨hroot, rfl⟩
  refine leads_bind leads_openSession fun session => leads_bind ?_ fun cursor => ?_
  · unfold cursorFor
    split
    · exact hreserve _
    · split
      · exact hreserve _
      · exact leads_pure _
  · split
    · exact leads_throw _
    · refine leads_bind (leads_keepCursor _ _ trivial) fun _ => ?_
      split
      · exact leads_pure _
      · exact leads_throw _

/-- `delete` removes its path only. -/
theorem leads_delete (ctx : Context) (raw : String) :
    Respects (Scene.Leads (Effect.Removes (Names raw))) (delete ctx raw) :=
  leads_bind (leads_boundary ctx) fun _ => leads_writing fun hroot =>
    leads_bind leads_openSession fun _ =>
      leads_bind (leads_onBarrier (Barrier.leads_delete _ ⟨hroot, rfl⟩)) fun _ =>
        leads_bind (leads_tell _) fun _ => leads_pure _

/-- The deletion of a batch removes no other keys than those that its paths name. -/
theorem leads_deleteEach {K : String → Prop} (ctx : Context) (removed : Nat)
    {paths : List String} (hpaths : ∀ raw ∈ paths, ∀ key, Names raw key → K key) :
    Respects (Scene.Leads (Effect.Removes K)) (deleteEach ctx removed paths) := by
  induction paths generalizing removed with
  | nil => exact leads_pure removed
  | cons raw rest ih =>
    refine leads_bind (leads_boundary ctx) fun _ => leads_writing fun hroot => ?_
    have hkey : K (Path.normalize raw) := hpaths raw List.mem_cons_self _ ⟨hroot, rfl⟩
    exact leads_bind (leads_onBarrier (Barrier.leads_delete _ hkey)) fun _ =>
      ih _ fun other hother => hpaths other (List.mem_cons_of_mem _ hother)

/-- `deleteAll` removes its paths only. -/
theorem leads_deleteAll (ctx : Context) (paths : List String) :
    Respects (Scene.Leads (Effect.Removes fun key => ∃ raw ∈ paths, Names raw key))
      (deleteAll ctx paths) :=
  leads_bind (leads_boundary ctx) fun _ => leads_bind leads_openSession fun _ =>
    leads_bind (leads_deleteEach ctx 0 fun raw hmem _ hnames => ⟨raw, hmem, hnames⟩) fun _ =>
      leads_tell _

/-- `open` does no more than open. -/
theorem leads_openWith (ctx : Context) (a : Aead) :
    Respects (Scene.Leads Effect.Opens) (openWith ctx a) :=
  leads_bind (leads_prepare ctx) fun _ => leads_install a trivial

/-- `close` does no more than close. -/
theorem leads_close : Respects (Scene.Leads Effect.Closes) close :=
  leads_bind leads_openSession fun session _ =>
    Scene.Leads.trans _ _ _ (.single (e := .close) trivial .close)
      (leads_tell (.closed session.generation) _)

end Store

/-! ## What operations leave -/

/-- What a call with at most one encryption leaves: the same cipher and clock, and the contents
from before, or these with the ciphertext at the path of the encrypted record. -/
structure Scene.Writes (a : Aead) (x : Option Writing) (s t : Scene) : Prop where
  cipher : (∀ session, s.store.session = some session → session.cipher = a) →
    ∀ session, t.store.session = some session → session.cipher = a
  readings : t.ambient.clock.readings = s.ambient.clock.readings
  contents : t.ambient.engine.contents = s.ambient.engine.contents ∨
    ∃ y ∈ x, ∃ c, y.call.ciphertext a = .ok c ∧
      t.ambient.engine.contents = s.ambient.engine.contents.put y.record.path c

namespace Scene.Writes

variable {a : Aead} {x : Option Writing} {s t u : Scene}

/-- A call that only reads writes nothing. -/
theorem of_keeps (h : s.Keeps t) : s.Writes a x t := by
  refine ⟨?_, h.readings, .inl h.contents⟩
  rw [h.store]
  exact id

/-- What only reads may go before a writing. -/
theorem keeps_trans (hst : s.Keeps t) (htu : t.Writes a x u) : s.Writes a x u := by
  refine ⟨?_, htu.readings.trans hst.readings, ?_⟩
  · rw [← hst.store]
    exact htu.cipher
  · rw [← hst.contents]
    exact htu.contents

/-- What writes nothing may follow a writing. -/
theorem trans_none (hst : s.Writes a x t) (htu : t.Writes a none u) : s.Writes a x u := by
  refine ⟨fun h => htu.cipher (hst.cipher h), htu.readings.trans hst.readings, ?_⟩
  rcases htu.contents with hsame | ⟨y, hy, -⟩
  · rw [hsame]
    exact hst.contents
  · exact absurd hy (by simp)

/-- What writes nothing writes at most what it may. -/
theorem of_none (h : s.Writes a none t) : s.Writes a x t :=
  trans_none (of_keeps (Scene.Keeps.refl s)) h

end Scene.Writes

/-- What a call with at most one encryption leaves at most: the same cipher and clock, and no
entries but those from before and the ciphertext. -/
structure Scene.Yields (a : Aead) (x : Option Writing) (s t : Scene) : Prop where
  cipher : (∀ session, s.store.session = some session → session.cipher = a) →
    ∀ session, t.store.session = some session → session.cipher = a
  readings : t.ambient.clock.readings = s.ambient.clock.readings
  holds : ∀ key c, t.ambient.engine.Holds key c →
    s.ambient.engine.Holds key c ∨ ∃ y ∈ x, y.call.ciphertext a = .ok c

namespace Scene.Yields

variable {a : Aead} {x : Option Writing} {s t u : Scene}

/-- What a call writes is all that it yields. -/
theorem of_writes (h : s.Writes a x t) : s.Yields a x t := by
  refine ⟨h.cipher, h.readings, ?_⟩
  intro key c hc
  unfold Engine.Holds at hc ⊢
  rcases h.contents with hsame | ⟨y, hy, c', hciphertext, hput⟩
  · rw [hsame] at hc
    exact .inl hc
  · rw [hput] at hc
    rcases Contents.holds_put hc with ⟨-, rfl⟩ | hold
    · exact .inr ⟨y, hy, hciphertext⟩
    · exact .inl hold

/-- A call that only reads yields nothing. -/
theorem of_keeps (h : s.Keeps t) : s.Yields a x t := of_writes (.of_keeps h)

/-- What only removes keys yields nothing. -/
theorem of_removes {K : String → Prop} (h : s.Leads (Effect.Removes K) t) : s.Yields a x t := by
  refine ⟨?_, h.readings_eq, fun key c hc => .inl (h.holds (fun _ => id) hc)⟩
  rw [(h.mono fun _ he => he.alters).store_eq]
  exact id

end Scene.Yields

/-- The encryption to which a draft leads. -/
def StoreCall.writingOf (draft : StoreCall (Option Draft)) (s : Scene) : Option Writing :=
  match draft s with
  | .ok (some d) t => d.writing? t
  | _ => none

/-- An encryption that is made is that of a draft. -/
theorem StoreCall.exists_of_writingOf {draft : StoreCall (Option Draft)} {s : Scene} {x : Writing}
    (h : writingOf draft s = some x) :
    ∃ d t, draft s = .ok (some d) t ∧ x.record = d.record := by
  unfold writingOf at h
  cases hdraft : draft s with
  | error e t =>
    rw [hdraft] at h
    exact absurd h (by simp)
  | ok y t =>
    rw [hdraft] at h
    cases y with
    | none => exact absurd h (by simp)
    | some d =>
      dsimp only at h
      unfold Draft.writing? at h
      split at h
      · injection h with h
        rw [← h]
        exact ⟨d, t, rfl, rfl⟩
      · exact absurd h (by simp)

namespace Store

open StoreCall

variable {a : Aead}

/-- Writing a record writes its encryption. -/
theorem writes_writeRecord (ha : a.Lawful) {d : Draft} (hd : d.cipher = a) (s : Scene) :
    s.Writes a (d.writing? s) (Call.after (writeRecord d.cipher d.record s)) := by
  subst hd
  rcases writeRecord_cases ha d.record s with
    ⟨c, t, hencrypt, -, hstore, hcontents, hclock, hrun⟩ | ⟨e, t, ht, hrun⟩
  · rw [hrun]
    refine ⟨?_, congrArg Clock.readings hclock, .inr ?_⟩
    · show _ → ∀ session, t.store.session = some session → _
      rw [hstore]
      exact id
    · have hfits := Stream.fits_of_encrypt hencrypt
      refine ⟨⟨s.ambient.entropy, d.record, hfits⟩, ?_, c, hencrypt, hcontents⟩
      unfold Draft.writing?
      rw [dif_pos hfits]
      rfl
  · rw [hrun]
    exact .of_keeps ht

/-- An operation that begins with a draft writes the draft's record. -/
theorem writes_of_draft {α β : Type} (ha : a.Lawful) {s : Scene} {draft : StoreCall β}
    (hkeeps : Respects Scene.Keeps draft) (f : β → Draft)
    (hcipher : ∀ x t, draft s = .ok x t → (f x).cipher = a) {rest : β → StoreCall α}
    (hrest : ∀ x, Respects (Scene.Writes a none) (rest x)) :
    s.Writes a (writingOf (do let x ← draft; pure (some (f x))) s)
      (Call.after ((do let x ← draft; writeRecord (f x).cipher (f x).record; rest x) s)) := by
  cases hrun : draft s with
  | error e t =>
    rw [Call.bind_error hrun]
    exact .of_keeps (hkeeps.error hrun)
  | ok x t =>
    have hwrite := writes_writeRecord ha (hcipher x t hrun) t
    have hwriting : writingOf (do let x ← draft; pure (some (f x))) s = (f x).writing? t := by
      unfold writingOf
      rw [Call.bind_ok hrun]
      rfl
    rw [hwriting, Call.bind_ok hrun]
    refine .keeps_trans (hkeeps.ok hrun) ?_
    cases hwritten : writeRecord (f x).cipher (f x).record t with
    | error e u =>
      rw [hwritten] at hwrite
      rw [Call.bind_error hwritten]
      exact hwrite
    | ok y u =>
      rw [hwritten] at hwrite
      rw [Call.bind_ok hwritten]
      exact hwrite.trans_none (hrest x u)

/-- `create` writes the encryption of its draft. -/
theorem writes_create (ha : a.Lawful) (ctx : Context) (raw : String) (fields : Fields) {s : Scene}
    (hcipher : ∀ session, s.store.session = some session → session.cipher = a) :
    s.Writes a (writingOf (do let d ← createDraft ctx raw fields; pure (some d)) s)
      (Call.after (create ctx raw fields s)) := by
  rw [create_eq]
  refine writes_of_draft ha (leads_createDraft ctx raw fields).keeps (fun d => d) ?_ ?_
  · intro d t hrun
    obtain ⟨session, hsession, hsame⟩ := (isOf_createDraft hrun).cipher
    rw [← hsame]
    exact hcipher session hsession
  · intro d t
    exact .of_keeps ((leads_tell _).keeps t)

/-- `set` writes the encryption of its draft. -/
theorem writes_set (ha : a.Lawful) (ctx : Context) (raw : String) (fields : Fields)
    (mode : WriteMode) {s : Scene}
    (hcipher : ∀ session, s.store.session = some session → session.cipher = a) :
    s.Writes a (writingOf (do let d ← setDraft ctx raw fields mode; pure (some d)) s)
      (Call.after (set ctx raw fields mode s)) := by
  rw [set_eq]
  refine writes_of_draft ha (leads_setDraft ctx raw fields mode).keeps (fun d => d) ?_ ?_
  · intro d t hrun
    obtain ⟨session, hsession, hsame⟩ := (isOf_setDraft hrun).cipher
    rw [← hsame]
    exact hcipher session hsession
  · intro d t
    exact .of_keeps ((leads_tell _).keeps t)

/-- An operation and its draft may begin with the same call, if that only reads. -/
theorem writes_bind {α β : Type} {x : StoreCall β} (hx : Respects Scene.Keeps x)
    {f : β → StoreCall α} {draft : β → StoreCall (Option Draft)} {s : Scene}
    (hrest : ∀ y t, x s = .ok y t →
      t.Writes a (writingOf (draft y) t) (Call.after (f y t))) :
    s.Writes a (writingOf (x >>= draft) s) (Call.after ((x >>= f) s)) := by
  cases hrun : x s with
  | error e t =>
    rw [Call.bind_error hrun]
    exact .of_keeps (hx.error hrun)
  | ok y t =>
    have hwriting : writingOf (x >>= draft) s = writingOf (draft y) t := by
      unfold writingOf
      rw [Call.bind_ok hrun]
    rw [hwriting, Call.bind_ok hrun]
    exact .keeps_trans (hx.ok hrun) (hrest y t hrun)

/-- Keeping a cursor writes nothing. -/
theorem writes_keepCursor (path : String) (cursor : Cursor) :
    Respects (Scene.Writes a none) (keepCursor path cursor) := by
  intro s
  refine ⟨?_, rfl, .inl rfl⟩
  intro hcipher session hsession
  obtain ⟨old, hold, hsame⟩ := Option.map_eq_some_iff.1 hsession
  rw [← hsame]
  exact hcipher old hold

/-- The batch that an increment needs is the only thing that it writes. -/
theorem writes_cursorFor (ha : a.Lawful) {session : Session} (hcipher : session.cipher = a)
    (path : String) {α : Type} {rest : Cursor → StoreCall α}
    (hrest : ∀ cursor, Respects (Scene.Writes a none) (rest cursor)) (s : Scene) :
    s.Writes a (writingOf (batchDraft session path) s)
      (Call.after ((cursorFor session path >>= rest) s)) := by
  have hreserved : s.Writes a (writingOf (batchDraft.reserved session path) s)
      (Call.after ((reserve session.cipher path >>= rest) s)) := by
    rw [reserve_eq]
    simp only [bind_assoc, pure_bind]
    refine writes_of_draft ha (leads_reserveDraft session.cipher path).keeps (fun x => x.1) ?_ ?_
    · intro x t hrun
      rw [(times_of_reserveDraft hrun).1]
      exact hcipher
    · intro x t
      exact .keeps_trans ((leads_tell _).keeps t) (hrest x.2 _)
  unfold batchDraft cursorFor
  cases session.cursors.find? path with
  | none => exact hreserved
  | some cursor =>
    dsimp only
    cases cursor.isSpent with
    | true => exact hreserved
    | false => exact .of_none (hrest cursor s)

/-- `increment` writes the encryption of its draft. -/
theorem writes_increment (ha : a.Lawful) (ctx : Context) (raw : String) {s : Scene}
    (hcipher : ∀ session, s.store.session = some session → session.cipher = a) :
    s.Writes a (writingOf (incrementDraft ctx raw) s) (Call.after (increment ctx raw s)) := by
  refine writes_bind (leads_boundary ctx).keeps fun _ t ht => ?_
  have hstore := ((leads_boundary ctx).keeps.ok ht).store
  refine writes_bind (leads_writable raw).keeps fun path u hu => ?_
  have hstore' := ((leads_writable raw).keeps.ok hu).store
  refine writes_bind leads_openSession.keeps fun session v hv => ?_
  obtain ⟨hsession, -⟩ := openSession_eq_ok hv
  rw [hstore', hstore] at hsession
  refine writes_cursorFor ha (hcipher session hsession) path (fun cursor => ?_) v
  cases cursor.advance with
  | none => exact fun w => .of_keeps ((leads_throw _).keeps w)
  | some next =>
    intro w
    refine (writes_keepCursor path next.2 w).trans_none ?_
    dsimp only
    cases Counter.formatId next.1 with
    | none => exact .of_keeps ((leads_throw _).keeps _)
    | some text => exact .of_keeps ((leads_pure text).keeps _)

/-- `open` yields nothing. -/
theorem yields_openWith (ctx : Context) (s : Scene) :
    s.Yields a none (Call.after (openWith ctx a s)) := by
  have hleads := leads_openWith ctx a s
  refine ⟨fun hcipher session hopen => ?_, hleads.readings_eq,
    fun _ _ hc => .inl (hleads.holds (fun _ => id) hc)⟩
  -- A session that was not there before has the cipher that was given.
  rcases fails_or_ok (leads_prepare ctx).keeps (fun _ => install a) s with
    ⟨e, t, ht, hrun⟩ | ⟨_, t, ht, -, hrun⟩
  · have hrun : openWith ctx a s = .error e t := hrun
    rw [hrun] at hopen
    exact hcipher session (ht.store ▸ hopen)
  · have hrun : openWith ctx a s = install a t := hrun
    rw [hrun] at hopen
    injection hopen with hopen
    rw [← hopen]

/-- `close` yields nothing. -/
theorem yields_close (s : Scene) : s.Yields a none (Call.after (close s)) := by
  have hleads := leads_close s
  refine ⟨fun hcipher session hopen => ?_, hleads.readings_eq,
    fun _ _ hc => .inl (hleads.holds (fun _ => id) hc)⟩
  rcases fails_or_ok leads_openSession.keeps _ s with ⟨e, t, ht, hrun⟩ | ⟨_, t, -, -, hrun⟩
  · have hrun : close s = .error e t := hrun
    rw [hrun] at hopen
    exact hcipher session (ht.store ▸ hopen)
  · have hrun : close s = _ := hrun
    rw [hrun] at hopen
    exact absurd hopen (by simp [Call.after, Scene.tell])

end Store

end Strongbox
