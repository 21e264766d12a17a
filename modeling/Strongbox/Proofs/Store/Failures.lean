import Mathlib.Tactic.SplitIfs
import Strongbox.Cipher.Key
import Strongbox.Host.Files
import Strongbox.Proofs.Pages
import Strongbox.Proofs.Store.Listing
import Strongbox.Proofs.Store.Writing

/-!
# What failures leave

An operation that fails has changed neither its store nor the contents of the engine, no
matter at which of its calls it failed.  The deletion of a batch goes on up to the first path
at which it fails, and leaves the contents without the paths before that one.  An opening that
fails leaves every engine, every store and the disk as they were.  The main result is
`Strongbox.failures_keep`.
-/

set_option autoImplicit false

namespace Strongbox

open Call (Respects)

/-! ## Operations that fail safely -/

/-- A change of the contents that fails has at most asked the fault plan. -/
theorem Engine.leads_of_update_eq_error {α : Type} {operation : Operation} {key : String}
    {f : Contents → Except StorageError (α × Contents)} {e e' : Engine} {error : StorageError}
    (h : (do Engine.consult operation key; Engine.update f) e = .error error e') :
    e.Leads Effect.Reads e' := by
  rcases Call.cases_of_bind_error h with hconsult | ⟨_, u, hconsult, hupdate⟩
  · exact (Engine.leads_consult operation key).error hconsult
  · have hu : e.Leads Effect.Reads u := (Engine.leads_consult operation key).ok hconsult
    unfold Engine.update at hupdate
    split at hupdate
    · cases hcall : f u.contents with
      | ok x =>
        rw [hcall] at hupdate
        exact absurd hupdate (by simp)
      | error error' =>
        rw [hcall] at hupdate
        injection hupdate with _ hsame
        exact hsame ▸ hu
    · injection hupdate with _ hsame
      exact hsame ▸ hu

namespace Barrier

/-- So has a call of the barrier that changes the contents. -/
theorem leads_of_onEngine_eq_error {α : Type} {call : EngineCall α} {s t : Ambient}
    {e : BarrierError} (h : onEngine call s = .error e t)
    (hcall : ∀ {error e'}, call s.engine = .error error e' →
      s.engine.Leads Effect.Reads e') : s.Leads Effect.Reads t := by
  obtain ⟨cause, e', hrun, -, rfl⟩ := onEngine_eq_error h
  exact hcall hrun s

/-- A value that is not stored was encrypted at most. -/
theorem leads_of_put_eq_error {a : Aead} {key : String} {plaintext : Bytes} {s t : Ambient}
    {e : BarrierError} (h : put a key plaintext s = .error e t) : s.Leads Effect.Reads t := by
  rcases Call.cases_of_bind_error h with hencrypt | ⟨ciphertext, u, hencrypt, hput⟩
  · exact (leads_encrypt a plaintext).error hencrypt
  · exact Ambient.Leads.trans _ _ _ ((leads_encrypt a plaintext).ok hencrypt)
      (leads_of_onEngine_eq_error hput Engine.leads_of_update_eq_error)

end Barrier

namespace StoreCall

/-- Where the call fails, it has only read. -/
def FailsSafely {α : Type} (call : StoreCall α) : Prop :=
  ∀ ⦃s : Scene⦄ ⦃e : StoreError⦄ ⦃t : Scene⦄, call s = .error e t → s.Leads Effect.Reads t

variable {α β : Type}

/-- Behind a call that only reads, a chain fails safely if its rest does. -/
theorem FailsSafely.bind {x : StoreCall α} {f : α → StoreCall β}
    (hx : Respects (Scene.Leads Effect.Reads) x) (hf : ∀ a, (f a).FailsSafely) :
    (x >>= f).FailsSafely := by
  intro s e t h
  rcases Call.cases_of_bind_error h with hfirst | ⟨a, u, hfirst, hrest⟩
  · exact hx.error hfirst
  · exact Scene.Leads.trans _ _ _ (hx.ok hfirst) (hf a hrest)

/-- A chain whose rest cannot fail fails safely if its first call does. -/
theorem FailsSafely.bind_of_never {x : StoreCall α} {f : α → StoreCall β} (hx : x.FailsSafely)
    (hf : ∀ a s e t, f a s ≠ .error e t) : (x >>= f).FailsSafely := by
  intro s e t h
  rcases Call.cases_of_bind_error h with hfirst | ⟨a, u, -, hrest⟩
  · exact hx hfirst
  · exact absurd hrest (hf a u e t)

/-- Telling does not fail. -/
theorem tell_never_fails (event : Event) (s : Scene) (e : StoreError) (t : Scene) :
    tell event s ≠ .error e t := by
  unfold tell
  simp

/-- A deletion that fails reports the failure of the engine, and has only read. -/
theorem onBarrier_delete_eq_error {path : String} {s t : Scene} {e : StoreError}
    (h : onBarrier path (Barrier.delete path) s = .error e t) :
    s.Leads Effect.Reads t ∧ ∃ cause, e = .storage cause ∧
      Engine.delete path s.ambient.engine = .error cause t.ambient.engine := by
  cases hdelete : Engine.delete path s.ambient.engine with
  | ok found engine =>
    have hcall : Barrier.delete path s.ambient = .ok found { s.ambient with engine } :=
      Barrier.onEngine_ok hdelete
    rw [onBarrier_ok hcall] at h
    exact absurd h (by simp)
  | error cause engine =>
    have hcall : Barrier.delete path s.ambient =
        .error (.storage cause) { s.ambient with engine } := Barrier.onEngine_error hdelete
    rw [onBarrier_error hcall] at h
    injection h with herror hscene
    rw [← hscene]
    exact ⟨Engine.leads_of_update_eq_error hdelete s.ambient s.store, cause, herror.symm, rfl⟩

/-- A deletion fails safely. -/
theorem failsSafely_delete (path : String) : (onBarrier path (Barrier.delete path)).FailsSafely :=
  fun _ _ _ h => (onBarrier_delete_eq_error h).1

/-- A record that is not written leaves the contents, whatever the cipher is. -/
theorem failsSafely_writeRecord (a : Aead) (r : Record) : (writeRecord a r).FailsSafely := by
  intro s e t h
  unfold writeRecord at h
  cases hcall : Barrier.put a r.path r.toBytes s.ambient with
  | ok _ ambient =>
    rw [onBarrier_ok hcall] at h
    exact absurd h (by simp)
  | error cause ambient =>
    rw [onBarrier_error hcall] at h
    injection h with _ hscene
    rw [← hscene]
    exact Barrier.leads_of_put_eq_error hcall s.store

end StoreCall

namespace Store

open StoreCall

/-- A document that is not created leaves the store and the contents. -/
theorem failsSafely_create (ctx : Context) (raw : String) (fields : Fields) :
    (create ctx raw fields).FailsSafely := by
  rw [create_eq]
  exact .bind (leads_createDraft ctx raw fields) fun d =>
    .bind_of_never (failsSafely_writeRecord _ _) fun _ => tell_never_fails _

/-- So does one that is not set. -/
theorem failsSafely_set (ctx : Context) (raw : String) (fields : Fields) (mode : WriteMode) :
    (set ctx raw fields mode).FailsSafely := by
  rw [set_eq]
  exact .bind (leads_setDraft ctx raw fields mode) fun d =>
    .bind_of_never (failsSafely_writeRecord _ _) fun _ => tell_never_fails _

/-- So does one that is not deleted. -/
theorem failsSafely_remove (ctx : Context) (raw : String) : (delete ctx raw).FailsSafely := by
  refine .bind (leads_boundary ctx) fun _ => .bind (leads_writable raw) fun path =>
    .bind leads_openSession fun _ => ?_
  refine .bind_of_never (failsSafely_delete path) fun removed s e t h => ?_
  exact absurd h (by simp [StoreCall.tell, bind, EStateM.bind, pure, EStateM.pure])

/-- A store that is not opened stays as it is. -/
theorem failsSafely_openWith (ctx : Context) (cipher : Aead) :
    (openWith ctx cipher).FailsSafely := by
  refine .bind (leads_prepare ctx) fun _ s e t h => ?_
  unfold install at h
  exact absurd h (by simp)

/-- So does one that is not closed. -/
theorem failsSafely_close : close.FailsSafely :=
  .bind leads_openSession fun _ _ _ _ h => absurd h (by simp)

/-- An operation of a store has failed in the scene `s` with the error `e` and has left the
scene `t`. -/
inductive Fails (s : Scene) (e : StoreError) (t : Scene) : Prop where
  | create {ctx : Context} {raw : String} {fields : Fields}
      (h : create ctx raw fields s = .error e t)
  | set {ctx : Context} {raw : String} {fields : Fields} {mode : WriteMode}
      (h : set ctx raw fields mode s = .error e t)
  | delete {ctx : Context} {raw : String} (h : delete ctx raw s = .error e t)
  | exists? {ctx : Context} {raw : String} (h : exists? ctx raw s = .error e t)
  | get {ctx : Context} {raw : String} (h : get ctx raw s = .error e t)
  | getAll {ctx : Context} {paths : List String} (h : getAll ctx paths s = .error e t)
  | last {ctx : Context} {stem : String} (h : last ctx stem s = .error e t)
  | collections {ctx : Context} {parent : String} (h : collections ctx parent s = .error e t)
  | list {ctx : Context} {parent : String} {window : Window}
      (h : list ctx parent window s = .error e t)
  | documents {ctx : Context} {parent : String} {window : Window}
      (h : documents ctx parent window s = .error e t)
  | count {ctx : Context} {parent stem : String} (h : count ctx parent stem s = .error e t)
  | openWith {ctx : Context} {cipher : Aead} (h : openWith ctx cipher s = .error e t)
  | close (h : close s = .error e t)

/-- A single operation that fails has only read. -/
theorem Fails.leads {s t : Scene} {e : StoreError} (h : Fails s e t) :
    s.Leads Effect.Reads t := by
  cases h with
  | create h => exact failsSafely_create _ _ _ h
  | set h => exact failsSafely_set _ _ _ _ h
  | delete h => exact failsSafely_remove _ _ h
  | exists? h => exact (leads_exists? _ _).error h
  | get h => exact (leads_get _ _).error h
  | getAll h => exact (leads_getAll _ _).error h
  | last h => exact (leads_last _ _).error h
  | collections h => exact (leads_collections _ _).error h
  | list h => exact (leads_list _ _ _).error h
  | documents h => exact (leads_documents _ _ _).error h
  | count h => exact (leads_count _ _ _).error h
  | openWith h => exact failsSafely_openWith _ _ h
  | close h => exact failsSafely_close h

/-! ## Batches -/

/-- The deletion of one path of a batch. -/
def deleteOne (ctx : Context) (raw : String) : StoreCall Bool := do
  boundary ctx
  let path ← writable raw
  onBarrier path (Barrier.delete path)

/-- Several documents are deleted one after the other. -/
theorem deleteEach_cons (ctx : Context) (removed : Nat) (raw : String) (rest : List String) :
    deleteEach ctx removed (raw :: rest) =
      deleteOne ctx raw >>= fun found =>
        deleteEach ctx (if found then removed + 1 else removed) rest := by
  unfold deleteOne
  simp only [bind_assoc]
  rfl

/-- Why the deletion of a batch fails at the path `raw`: the caller stops it, the path is the
root, or the engine fails. -/
inductive StopsAt (ctx : Context) (raw : String) (s t : Scene) : StoreError → Prop where
  | interrupted {i : Interruption} (h : ctx.verdict s.ambient.boundaries = some i) :
      StopsAt ctx raw s t (.ofInterruption i)
  | root (h : Path.isRoot raw = true) :
      StopsAt ctx raw s t (.invalidPath (Path.normalize raw) rootReason)
  | engine {cause : StorageError} (hroot : Path.isRoot raw = false)
      (h : Engine.delete (Path.normalize raw) s.ambient.engine = .error cause t.ambient.engine) :
      StopsAt ctx raw s t (.storage cause)

/-- A deletion that fails keeps the scene and stops the batch. -/
theorem stopsAt_of_deleteOne {ctx : Context} {raw : String} {s t : Scene} {e : StoreError}
    (h : deleteOne ctx raw s = .error e t) : s.Keeps t ∧ StopsAt ctx raw s t e := by
  have hsafe : (deleteOne ctx raw).FailsSafely :=
    .bind (leads_boundary ctx) fun _ => .bind (leads_writable raw) failsSafely_delete
  refine ⟨(hsafe h).keeps, ?_⟩
  unfold deleteOne at h
  cases hboundary : boundary ctx s with
  | error e' u =>
    rw [Call.bind_error hboundary] at h
    injection h with herror
    obtain ⟨i, hi, he⟩ := boundary_eq_error hboundary
    rw [← herror, he]
    exact .interrupted hi
  | ok _ u =>
    rw [Call.bind_ok hboundary] at h
    have hu := boundary_eq_ok hboundary
    by_cases hroot : Path.isRoot raw = true
    · rw [Call.bind_error (writable_of_isRoot hroot u)] at h
      injection h with herror
      rw [← herror]
      exact .root hroot
    · rw [Call.bind_ok (writable_of_not_isRoot hroot u)] at h
      obtain ⟨-, cause, he, hdelete⟩ := onBarrier_delete_eq_error h
      rw [he]
      rw [hu] at hdelete
      exact .engine (Bool.eq_false_iff.2 hroot) hdelete

/-- A deletion that succeeds leaves all bindings but that of its path. -/
theorem bindings_of_deleteOne {ctx : Context} {raw : String} {s t : Scene} {found : Bool}
    (h : deleteOne ctx raw s = .ok found t) :
    t.store = s.store ∧ Path.isRoot raw = false ∧
      t.ambient.engine.contents.bindings =
        s.ambient.engine.contents.bindingsWithout [Path.normalize raw] := by
  obtain ⟨_, u, hboundary, hrest⟩ := Call.exists_of_bind_ok h
  obtain ⟨path, v, hwritable, hcall⟩ := Call.exists_of_bind_ok hrest
  obtain ⟨hroot, hpath, hv⟩ := writable_eq_ok hwritable
  have hu := (leads_boundary ctx).keeps.ok hboundary
  subst hv hpath
  obtain ⟨face, ⟨answer, contents, hcontents, hdelete⟩ | ⟨error, hdelete⟩⟩ :=
    Engine.update_outcome .delete (Path.normalize raw) (·.delete (Path.normalize raw))
      v.ambient.engine
  · have hbarrier : Barrier.delete (Path.normalize raw) v.ambient =
        .ok answer { v.ambient with engine := { v.ambient.engine with face, contents } } :=
      Barrier.onEngine_ok hdelete
    rw [onBarrier_ok hbarrier] at hcall
    injection hcall with _ hscene
    rw [← hscene, ← hu.contents]
    exact ⟨hu.store, hroot, Contents.bindings_of_delete hcontents⟩
  · have hbarrier : Barrier.delete (Path.normalize raw) v.ambient =
        .error (.storage error) { v.ambient with engine := { v.ambient.engine with face } } :=
      Barrier.onEngine_error hdelete
    rw [onBarrier_error hbarrier] at hcall
    exact absurd hcall (by simp)

/-- The given paths were deleted one after the other. -/
inductive Deleted (ctx : Context) : Scene → List String → Scene → Prop where
  | nil (s : Scene) : Deleted ctx s [] s
  | cons {raw : String} {rest : List String} {found : Bool} {s t u : Scene}
      (h : deleteOne ctx raw s = .ok found t) (later : Deleted ctx t rest u) :
      Deleted ctx s (raw :: rest) u

/-- Deletions that succeed leave all bindings but those of their paths. -/
theorem Deleted.bindings {ctx : Context} {s t : Scene} {paths : List String}
    (h : Deleted ctx s paths t) :
    t.store = s.store ∧ t.ambient.engine.contents.bindings =
      s.ambient.engine.contents.bindingsWithout (paths.map Path.normalize) := by
  induction h with
  | nil s => exact ⟨rfl, (Contents.bindingsWithout_nil _).symm⟩
  | cons h _ ih =>
    obtain ⟨hstore, -, hbindings⟩ := bindings_of_deleteOne h
    refine ⟨ih.1.trans hstore, ih.2.trans ?_⟩
    rw [List.map_cons, ← Contents.bindingsWithout_cons hbindings]

/-- A batch that fails has deleted the paths before the one at which it fails. -/
theorem exists_of_deleteEach {ctx : Context} {removed : Nat} {paths : List String} {s t : Scene}
    {e : StoreError} (h : deleteEach ctx removed paths s = .error e t) :
    ∃ i raw u, paths[i]? = some raw ∧ Deleted ctx s (paths.take i) u ∧ u.Keeps t ∧
      StopsAt ctx raw u t e := by
  induction paths generalizing removed s with
  | nil => exact absurd h (by simp [deleteEach, pure, EStateM.pure])
  | cons raw rest ih =>
    rw [deleteEach_cons] at h
    cases hone : deleteOne ctx raw s with
    | error e' u =>
      rw [Call.bind_error hone] at h
      injection h with herror hscene
      subst herror hscene
      obtain ⟨hkeeps, hstops⟩ := stopsAt_of_deleteOne hone
      exact ⟨0, raw, s, rfl, .nil s, hkeeps, hstops⟩
    | ok found u =>
      rw [Call.bind_ok hone] at h
      obtain ⟨i, raw', v, hat, hdeleted, hkeeps, hstops⟩ := ih h
      exact ⟨i + 1, raw', v, hat, .cons hone hdeleted, hkeeps, hstops⟩

/-- The deletion of a batch has failed at its path with the index `i`, or, for the index zero,
before its first path.  The paths before that one are gone, and nothing else is. -/
structure HaltsAt (ctx : Context) (paths : List String) (i : Nat) (s : Scene) (e : StoreError)
    (t : Scene) : Prop where
  store : t.store = s.store
  bindings : t.ambient.engine.contents.bindings =
    s.ambient.engine.contents.bindingsWithout ((paths.take i).map Path.normalize)
  stops :
    (i = 0 ∧ ((s.store.session = none ∧ e = .notOpen) ∨
      ∃ j, ctx.verdict s.ambient.boundaries = some j ∧ e = .ofInterruption j)) ∨
    ∃ raw start u, paths[i]? = some raw ∧ s.Keeps start ∧ Deleted ctx start (paths.take i) u ∧
      StopsAt ctx raw u t e

/-- A batch that fails has halted at one of its places. -/
theorem exists_haltsAt {ctx : Context} {paths : List String} {s t : Scene} {e : StoreError}
    (h : deleteAll ctx paths s = .error e t) : ∃ i, HaltsAt ctx paths i s e t := by
  -- In front of the first path nothing has been deleted.
  have hstart : ∀ {u}, s.Keeps u → u.ambient.engine.contents.bindings =
      s.ambient.engine.contents.bindingsWithout ((paths.take 0).map Path.normalize) := by
    intro u hu
    rw [hu.contents]
    exact (Contents.bindingsWithout_nil _).symm
  unfold deleteAll at h
  cases hboundary : boundary ctx s with
  | error e' u =>
    rw [Call.bind_error hboundary] at h
    injection h with herror hscene
    have hu := (leads_boundary ctx).keeps.error hboundary
    obtain ⟨j, hj, he⟩ := boundary_eq_error hboundary
    rw [← herror, ← hscene]
    exact ⟨0, hu.store, hstart hu, .inl ⟨rfl, .inr ⟨j, hj, he⟩⟩⟩
  | ok _ u =>
    rw [Call.bind_ok hboundary] at h
    have hu := (leads_boundary ctx).keeps.ok hboundary
    cases hsession : u.store.session with
    | none =>
      have hopen : openSession u = .error .notOpen u := by
        unfold openSession
        rw [hsession]
      rw [Call.bind_error hopen] at h
      injection h with herror hscene
      rw [← herror, ← hscene]
      rw [hu.store] at hsession
      exact ⟨0, hu.store, hstart hu, .inl ⟨rfl, .inl ⟨hsession, rfl⟩⟩⟩
    | some session =>
      have hopen : openSession u = .ok session u := openSession_of_isOpen hsession
      rw [Call.bind_ok hopen] at h
      cases heach : deleteEach ctx 0 paths u with
      | ok removed v =>
        rw [Call.bind_ok heach] at h
        exact absurd h (tell_never_fails _ _ _ _)
      | error e' v =>
        rw [Call.bind_error heach] at h
        injection h with herror hscene
        subst herror hscene
        obtain ⟨i, raw, w, hat, hdeleted, hkeeps, hstops⟩ := exists_of_deleteEach heach
        obtain ⟨hstore, hbindings⟩ := hdeleted.bindings
        refine ⟨i, ?_, ?_, .inr ⟨raw, u, w, hat, hu, hdeleted, hstops⟩⟩
        · exact hkeeps.store.trans (hstore.trans hu.store)
        · rw [hkeeps.contents, hbindings, hu.contents]

end Store

/-! ## Openings by the settings -/

namespace Host

/-- The same contents of all engines, the same stores with their sessions, and everything that
was on the disk still in its place.  Directories may have been made on the way to a log. -/
structure Untouched (h h' : Host) : Prop where
  media : ∀ medium contents, h.media.find? medium = some contents →
    h'.media.find? medium = some contents
  stores : ∀ name, (h'.slot name).store = (h.slot name).store
  handles : ∀ name, (h'.slot name).handle = (h.slot name).handle
  places : ∀ key place, h.places.find? key = some place → h'.places.find? key = some place

/-- A host is untouched by nothing. -/
theorem Untouched.refl (h : Host) : h.Untouched h :=
  ⟨fun _ _ hc => hc, fun _ => rfl, fun _ => rfl, fun _ _ hp => hp⟩

/-- What is left untouched twice is left untouched. -/
theorem Untouched.trans {h h' h'' : Host} (h₁ : h.Untouched h') (h₂ : h'.Untouched h'') :
    h.Untouched h'' :=
  ⟨fun medium contents hc => h₂.media medium contents (h₁.media medium contents hc),
    fun name => (h₂.stores name).trans (h₁.stores name),
    fun name => (h₂.handles name).trans (h₁.handles name),
    fun key place hp => h₂.places key place (h₁.places key place hp)⟩

/-- Telling an event touches nothing else. -/
theorem untouched_tell (h : Host) (e : Event) : h.Untouched (h.tell e) :=
  ⟨fun _ _ hc => hc, fun _ => rfl, fun _ => rfl, fun _ _ hp => hp⟩

/-- An engine with the same contents leaves every medium as it was. -/
theorem media_withEngine {h : Host} {handle : HandleId} {e : Engine}
    (he : e.contents = (h.engineOf handle).contents) (medium : MediumId) (contents : Contents)
    (hc : h.media.find? medium = some contents) :
    (h.withEngine handle e).media.find? medium = some contents := by
  unfold withEngine
  cases hhandle : h.handles.find? handle with
  | none => exact hc
  | some d =>
    dsimp only
    by_cases hsame : medium = d.medium
    · have hown : (h.engineOf handle).contents = contents := by
        unfold engineOf
        rw [hhandle]
        dsimp only
        rw [← hsame, hc]
        rfl
      rw [hsame, Table.find?_insert_self, he, hown]
    · rw [Table.find?_insert_of_ne _ _ hsame]
      exact hc

/-- Putting an engine in place leaves the stores. -/
theorem stores_withEngine (h : Host) (handle : HandleId) (e : Engine) :
    (h.withEngine handle e).stores = h.stores := by
  unfold withEngine
  cases h.handles.find? handle <;> rfl

/-- It leaves the settings. -/
theorem config_withEngine (h : Host) (handle : HandleId) (e : Engine) :
    (h.withEngine handle e).config = h.config := by
  unfold withEngine
  cases h.handles.find? handle <;> rfl

/-- It leaves the places of the files. -/
theorem places_withEngine (h : Host) (handle : HandleId) (e : Engine) :
    (h.withEngine handle e).places = h.places := by
  unfold withEngine
  cases h.handles.find? handle <;> rfl

/-- What surroundings with the same contents leave of a host. -/
theorem untouched_withAmbient {h : Host} {handle : Option HandleId} {a : Ambient}
    (ha : a.engine.contents = (h.ambient handle).engine.contents) :
    h.Untouched (h.withAmbient handle a) := by
  cases handle with
  | none => exact ⟨fun _ _ hc => hc, fun _ => rfl, fun _ => rfl, fun _ _ hp => hp⟩
  | some handle =>
    have hslot : ∀ name, (h.withAmbient (some handle) a).slot name = h.slot name := by
      intro name
      show ((h.withEngine handle a.engine).stores.find? name).getD
        { store := .new (h.withEngine handle a.engine).config } = _
      rw [stores_withEngine, config_withEngine]
      rfl
    refine ⟨media_withEngine ha, ?_, ?_, fun key place hp => ?_⟩
    · intro name
      rw [hslot]
    · intro name
      rw [hslot]
    · show (h.withEngine handle a.engine).places.find? key = some place
      rw [places_withEngine]
      exact hp

/-- The store that a name stands for after the slot of one name was written. -/
theorem slot_insert (h : Host) (name : String) (s : StoreSlot) (other : String) :
    ({ h with stores := h.stores.insert name s } : Host).slot other =
      if other = name then s else h.slot other := by
  unfold slot
  dsimp only
  split_ifs with hsame
  · rw [hsame, Table.find?_insert_self]
    rfl
  · rw [Table.find?_insert_of_ne _ _ hsame]

/-- A slot that is written back with its store and its engine leaves the host. -/
theorem untouched_setSlot {h : Host} {name : String} {s : StoreSlot}
    (hstore : s.store = (h.slot name).store) (hhandle : s.handle = (h.slot name).handle) :
    h.Untouched { h with stores := h.stores.insert name s } := by
  refine ⟨fun _ _ hc => hc, ?_, ?_, fun _ _ hp => hp⟩
  · intro other
    rw [slot_insert]
    split_ifs with hsame
    · rw [hsame, hstore]
    · rfl
  · intro other
    rw [slot_insert]
    split_ifs with hsame
    · rw [hsame, hhandle]
    · rfl

/-- A host after an operation has the surroundings and the store that the operation left. -/
theorem exists_withScene_eq (h : Host) (name : String) (s : StoreSlot) (handle : Option HandleId)
    (x : Scene) : ∃ (a : Ambient) (s' : StoreSlot), a.engine = x.ambient.engine ∧
      s'.store = x.store ∧ s'.handle = s.handle ∧ h.withScene name s handle x =
        { h.withAmbient handle a with
          stores := (h.withAmbient handle a).stores.insert name s' } := by
  cases hclock : s.clock with
  | none =>
    refine ⟨x.ambient, { s with store := x.store, clock := none }, rfl, rfl, rfl, ?_⟩
    unfold withScene
    rw [hclock]
    rfl
  | some clock =>
    refine ⟨{ x.ambient with clock := h.clock },
      { s with store := x.store, clock := some x.ambient.clock }, rfl, rfl, rfl, ?_⟩
    unfold withScene
    rw [hclock]
    rfl

/-- An operation that keeps its scene leaves the host. -/
theorem untouched_act {α : Type} {h : Host} {name : String} {call : StoreCall α}
    (hcall : Respects Scene.Keeps call) : h.Untouched (h.act name call).2 := by
  have hscene := hcall (h.scene (h.slot name) (h.slot name).handle)
  have hleft : (h.act name call).2 = h.withScene name (h.slot name) (h.slot name).handle
      (Call.after (call (h.scene (h.slot name) (h.slot name).handle))) := by
    unfold act
    dsimp only
    cases call (h.scene (h.slot name) (h.slot name).handle) <;> rfl
  rw [hleft]
  obtain ⟨a, s, hengine, hstore, hhandle, heq⟩ := exists_withScene_eq h name (h.slot name)
    (h.slot name).handle (Call.after (call (h.scene (h.slot name) (h.slot name).handle)))
  rw [heq]
  have ha : h.Untouched (h.withAmbient (h.slot name).handle a) := by
    apply untouched_withAmbient
    rw [hengine]
    exact hscene.contents
  refine ha.trans (untouched_setSlot ?_ ?_)
  · rw [hstore, ha.stores]
    exact hscene.store
  · rw [hhandle, ha.handles]

/-- A tree file that is not opened is not made either. -/
theorem openTreeFile_eq_error {h h' : Host} {file : String} {e : StorageError}
    (hopen : h.openTreeFile file = (.error e, h')) : h' = h := by
  unfold openTreeFile makeTreeFile at hopen
  split at hopen
  · exact (Prod.mk.inj hopen).2.symm
  · split at hopen
    · exact absurd (Prod.mk.inj hopen).1 (by simp)
    · exact absurd (Prod.mk.inj hopen).1 (by simp)
    · exact (Prod.mk.inj hopen).2.symm
    · split_ifs at hopen
      · exact (Prod.mk.inj hopen).2.symm
      · exact absurd (Prod.mk.inj hopen).1 (by simp)
    · exact (Prod.mk.inj hopen).2.symm

/-- Something is put in a place of the disk where there was nothing. -/
theorem untouched_setPlace {h : Host} {t : Trail} {p : Place} (habsent : h.placeAt t = none) :
    h.Untouched (h.setPlace t p) := by
  have hfree : h.places.find? (trailKey t) = none := by
    unfold placeAt at habsent
    split at habsent
    · exact absurd habsent (by simp)
    · exact habsent
  refine ⟨fun _ _ hc => hc, fun _ => rfl, fun _ => rfl, fun key place hp => ?_⟩
  have hne : key ≠ trailKey t := by
    rintro rfl
    exact absurd (hfree.symm.trans hp) (by simp)
  unfold setPlace
  dsimp only
  rw [Table.find?_insert_of_ne p h.places hne]
  exact hp

/-- A directory is made only where there was nothing. -/
theorem untouched_of_enter {h h' : Host} {t : Trail} {names : List String}
    (henter : h.enter t names = some h') : h.Untouched h' := by
  unfold enter at henter
  cases hplace : h.placeAt t with
  | none =>
    rw [hplace] at henter
    dsimp only at henter
    split_ifs at henter
    injection henter with hsame
    exact hsame ▸ untouched_setPlace hplace
  | some place =>
    rw [hplace] at henter
    dsimp only at henter
    split_ifs at henter
    injection henter with hsame
    exact hsame ▸ Untouched.refl h

/-- The directories on the way along a trail are made one after the other, wherever it ends. -/
theorem untouched_reachFrom (h : Host) (t : Trail) (names : List String) :
    h.Untouched (h.reachFrom t names).2 := by
  induction names generalizing h t with
  | nil => exact Untouched.refl h
  | cons name rest ih =>
    unfold reachFrom
    cases henter : h.enter t (name :: rest) with
    | none => exact Untouched.refl h
    | some h' =>
      have hentered := untouched_of_enter henter
      dsimp only
      cases step? t name with
      | none => exact hentered
      | some t' => exact hentered.trans (ih h' t')

/-- Looking for a file touches nothing. -/
theorem untouched_reach (h : Host) (file : String) : h.Untouched (h.reach file).2 := by
  unfold reach
  cases h.names? file with
  | none => exact Untouched.refl h
  | some names => exact untouched_reachFrom h [] names

/-- A log that is not found is not made either, though directories on the way to it may be. -/
theorem untouched_of_findLog {h h' : Host} {file : String} {e : StorageError}
    (hfind : h.findLog file = (.error e, h')) : h.Untouched h' := by
  have hreach := untouched_reach h file
  unfold findLog at hfind
  cases hway : h.reach file with
  | mk trail h₁ =>
    rw [hway] at hfind hreach
    cases trail with
    | none => exact (Prod.mk.inj hfind).2 ▸ hreach
    | some t =>
      dsimp only at hfind
      split_ifs at hfind
      · exact (Prod.mk.inj hfind).2 ▸ hreach
      · cases hlog : h₁.logAt t with
        | none =>
          rw [hlog] at hfind
          exact (Prod.mk.inj hfind).2 ▸ hreach
        | some found =>
          rw [hlog] at hfind
          exact absurd (Prod.mk.inj hfind).1 (by simp)

/-- A log directory that does not open touches nothing. -/
theorem untouched_of_openLogDirectory {h h' : Host} {file : String} {raw : List (Bytes × Bytes)}
    {e : StorageError} (hopen : h.openLogDirectory file raw = (.error e, h')) :
    h.Untouched h' := by
  unfold openLogDirectory at hopen
  cases hfind : h.findLog file with
  | mk answer h₁ =>
    rw [hfind] at hopen
    cases answer with
    | ok medium => exact absurd (Prod.mk.inj hopen).1 (by simp)
    | error cause =>
      rw [← (Prod.mk.inj hopen).2]
      exact untouched_of_findLog hfind

/-- A server that is not reached touches nothing. -/
theorem untouched_of_reachServer {h h' : Host} {connect : String → Except String MediumId}
    {address : String} {e : StorageError}
    (hreach : h.reachServer connect address = (.error e, h')) : h.Untouched h' := by
  unfold reachServer at hreach
  cases hconnect : connect address with
  | ok medium =>
    rw [hconnect] at hreach
    exact absurd (Prod.mk.inj hreach).1 (by simp)
  | error reason =>
    rw [hconnect] at hreach
    exact (Prod.mk.inj hreach).2 ▸ Untouched.refl h

/-- What fails for a store has failed for a cause. -/
theorem exists_of_forStore {r : Except StorageError MediumId × Host} {h' : Host} {e : StoreError}
    (h : forStore r = (.error e, h')) : ∃ cause, r = (.error cause, h') := by
  obtain ⟨answer, h₁⟩ := r
  cases answer with
  | ok medium => exact absurd (Prod.mk.inj h).1 (by simp)
  | error cause => exact ⟨cause, by rw [← (Prod.mk.inj h).2]⟩

/-- Whichever engine the settings name and whether or not the program is built with it, an
opening that fails leaves the host. -/
theorem untouched_of_launch {h h' : Host} {kind : EngineKind} {file : String} {e : StoreError}
    (hlaunch : h.launch kind file = (.error e, h')) : h.Untouched h' := by
  unfold launch at hlaunch
  cases kind with
  | volatile => exact absurd (Prod.mk.inj hlaunch).1 (by simp)
  | treeFile =>
    dsimp only at hlaunch
    split_ifs at hlaunch
    · obtain ⟨cause, hopen⟩ := exists_of_forStore hlaunch
      rw [openTreeFile_eq_error hopen]
      exact untouched_tell h _
    · exact (Prod.mk.inj hlaunch).2 ▸ Untouched.refl h
  | logDirectory =>
    dsimp only at hlaunch
    split_ifs at hlaunch
    · obtain ⟨cause, hopen⟩ := exists_of_forStore hlaunch
      exact (untouched_tell h _).trans (untouched_of_openLogDirectory hopen)
    · exact (Prod.mk.inj hlaunch).2 ▸ Untouched.refl h
  | server =>
    dsimp only at hlaunch
    cases hserver : h.build.server with
    | none =>
      rw [hserver] at hlaunch
      exact (Prod.mk.inj hlaunch).2 ▸ Untouched.refl h
    | some connect =>
      rw [hserver] at hlaunch
      obtain ⟨cause, hreach⟩ := exists_of_forStore hlaunch
      exact (untouched_tell h _).trans (untouched_of_reachServer hreach)

/-- A store that is prepared is installed without failure. -/
theorem act_install_ne_error (h : Host) (name : String) (cipher : Aead) (e : StoreError)
    (h' : Host) : h.act name (Store.install cipher) ≠ (.error e, h') := by
  intro hact
  exact absurd (Prod.mk.inj hact).1 (by simp)

/-- An opening by the settings that fails leaves the host. -/
theorem untouched_of_openStoreAt {h h' : Host} {name file : String} {ctx : Context}
    {cipher : Aead} {e : StoreError}
    (hopen : h.openStoreAt name ctx file cipher = (.error e, h')) : h.Untouched h' := by
  have hprepare : h.Untouched (h.act name (Store.prepare ctx)).2 :=
    untouched_act (StoreCall.leads_prepare ctx).keeps
  unfold openStoreAt at hopen
  cases hact : h.act name (Store.prepare ctx) with
  | mk answer h₁ =>
    rw [hact] at hopen hprepare
    cases answer with
    | error e₁ =>
      rw [← (Prod.mk.inj hopen).2]
      exact hprepare
    | ok _ =>
      dsimp only at hopen
      cases hlaunch : h₁.launch (h₁.slot name).store.config.engine file with
      | mk answer h₂ =>
        rw [hlaunch] at hopen
        cases answer with
        | error e₂ =>
          rw [← (Prod.mk.inj hopen).2]
          exact hprepare.trans (untouched_of_launch hlaunch)
        | ok medium =>
          dsimp only at hopen
          split at hopen
          · exact absurd (Prod.mk.inj hopen).1 (by simp)
          · rename_i hinstall
            exact absurd hinstall (act_install_ne_error _ _ _ _ _)

end Host

/-! ## The main result -/

/-- An operation that fails leaves its store, with its session and cursors, and the contents of
the engine; the deletion of a batch that fails has deleted the paths before the one at which it
fails, and nothing else; and an opening by the settings that fails leaves the host. -/
theorem failures_keep :
    (∀ s e t, Store.Fails s e t →
      t.store = s.store ∧ t.ambient.engine.contents = s.ambient.engine.contents) ∧
    (∀ ctx paths s e t, Store.deleteAll ctx paths s = .error e t →
      ∃ i, Store.HaltsAt ctx paths i s e t) ∧
    (∀ h name ctx file cipher e h', Host.openStoreAt h name ctx file cipher = (.error e, h') →
      h.Untouched h') :=
  ⟨fun _ _ _ h => ⟨h.leads.keeps.store, h.leads.keeps.contents⟩,
    fun _ _ _ _ _ => Store.exists_haltsAt,
    fun _ _ _ _ _ _ _ => Host.untouched_of_openStoreAt⟩

/-- A deletion fails because the engine does; a batch whose second path is the root stops
there, with its first path deleted and its third one not; and an opening of a log directory
fails at a plain file in its way, behind a directory that it has made. -/
theorem failures_keep_at_three_failures :
    let scene (face : Face) : Scene :=
      ⟨{ config := .standard, session := some ⟨1, (Key.uniform 7).cipher, .empty⟩ },
        { engine := { contents := .volatile ⟨[("/a", [1]), ("/b", [2])], by decide⟩, face }
          clock := .standard
          entropy := ⟨fun _ => 0, 0⟩ }⟩
    let faulty := scene (.watched [⟨.delete, none, 0, none, .deleting, "disk", 0⟩])
    let host : Host :=
      { home := "/data", clock := .standard, entropy := ⟨fun _ => 0, 0⟩, config := .standard,
        places := (Table.empty.insert "" .directory).insert "plain" .other }
    (∃ t, Store.delete .background "/a" faulty =
        .error (.storage ⟨.deleting, "/a", some "disk"⟩) t ∧
      t.store = faulty.store ∧ t.ambient.engine.contents = faulty.ambient.engine.contents) ∧
    (∃ t i, Store.deleteAll .background ["/a", "//", "/b"] (scene .bare) =
        .error (.invalidPath "/" StoreCall.rootReason) t ∧
      t.ambient.engine.contents.bindings = [(Utf8.encode "/b", [2])] ∧
      Store.HaltsAt .background ["/a", "//", "/b"] i (scene .bare)
        (.invalidPath "/" StoreCall.rootReason) t) ∧
    ∃ h', host.openStoreAt "main" .background "x/../plain/db" (Key.uniform 7).cipher =
        (.error (.storage ⟨.opening, "/data/x/../plain/db", none⟩), h') ∧
      h'.places.find? "x" = some .directory ∧ host.Untouched h' := by
  intro scene faulty host
  obtain ⟨hkeep, hbatch, hopening⟩ := failures_keep
  refine ⟨?_, ?_, ?_⟩
  · have hfails : Store.delete .background "/a" faulty =
        .error (.storage ⟨.deleting, "/a", some "disk"⟩) _ :=
      Call.eq_error_of_answer (by
        unfold faulty scene
        decide +kernel)
    exact ⟨_, hfails, hkeep _ _ _ (.delete hfails)⟩
  · have hfails : Store.deleteAll .background ["/a", "//", "/b"] (scene .bare) =
        .error (.invalidPath "/" StoreCall.rootReason) _ :=
      Call.eq_error_of_answer (by
        unfold scene
        decide +kernel)
    obtain ⟨i, hi⟩ := hbatch _ _ _ _ _ hfails
    refine ⟨_, i, hfails, ?_, hi⟩
    unfold scene
    decide +kernel
  · have hfails : host.openStoreAt "main" .background "x/../plain/db" (Key.uniform 7).cipher =
        (.error (.storage ⟨.opening, "/data/x/../plain/db", none⟩), _) :=
      Prod.ext (by
        unfold host
        decide +kernel) rfl
    refine ⟨_, hfails, ?_, hopening _ _ _ _ _ _ _ hfails⟩
    unfold host
    decide +kernel

end Strongbox
