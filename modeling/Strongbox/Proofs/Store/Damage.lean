import Strongbox.Proofs.Store.Changes

/-!
# Reports of damaged records

A call that comes upon a record which it cannot read fails and accuses the record by its key.
The engine then holds a value under that key which fails so, and the log has grown by what
belongs to the failure.  Only calls that read records accuse any.  The main statement is
`StoreCall.isFair_readRecord`.
-/

set_option autoImplicit false

namespace Strongbox

open Call (Respects)

/-! ## Failures that accuse a record -/

namespace StoreError

/-- The key of the record that a failure accuses. -/
def accused? : StoreError → Option String
  | .decryption path _ => some path
  | .codec path _ => some path
  | .pathMismatch expected _ => some expected
  | _ => none

/-- What is told of every record that names another path. -/
def misplacements : StoreError → List Event
  | .pathMismatch expected actual => [.misplaced actual expected]
  | _ => []

/-- What is told of a record that is read by its path. -/
def warnings : StoreError → List Event
  | .decryption path _ => [.unauthentic path]
  | e => e.misplacements

/-- What the cipher refuses accuses the path if it was to be decrypted. -/
theorem ofBarrier_crypto (path : String) (cause : CryptoError) :
    (ofBarrier path (.crypto cause)).accused? = none ∨
      ofBarrier path (.crypto cause) = .decryption path cause := by
  cases cause with
  | encryption reason => exact .inl rfl
  | _ => exact .inr rfl

end StoreError

/-- How a value that is bound to a path fails when it is read as the record of that path, or as
that of a counter. -/
inductive Flaw (a : Aead) (path : String) (value : Bytes) : StoreError → Prop
  /-- It cannot be decrypted. -/
  | unauthentic {cause : CryptoError} (h : Stream.decrypt a value = .error cause) :
    Flaw a path value (.decryption path cause)
  /-- It is not that of a record. -/
  | illegible {plaintext : Bytes} {fault : Json.Fault}
      (hdecrypt : Stream.decrypt a value = .ok plaintext)
      (hparse : Record.parse plaintext = .error fault) :
    Flaw a path value (.codec path (fault.describe plaintext))
  /-- Its record names another path. -/
  | misplaced {plaintext : Bytes} {r : Record}
      (hdecrypt : Stream.decrypt a value = .ok plaintext)
      (hparse : Record.parse plaintext = .ok r) (hpath : r.path ≠ path) :
    Flaw a path value (.pathMismatch path r.path)
  /-- Its record is not that of a counter. -/
  | noCounter {plaintext : Bytes} {r : Record}
      (hdecrypt : Stream.decrypt a value = .ok plaintext)
      (hparse : Record.parse plaintext = .ok r) (hpath : r.path = path)
      (hcounter : Counter.stored? r.fields = none) :
    Flaw a path value (.codec path Store.noCounter)

/-- Decrypted octets that are not the record of their key hold none, or one of another path. -/
theorem Record.ofBytes_eq_error {path : String} {plaintext : Bytes} {e : StoreError}
    (h : ofBytes path plaintext = .error e) :
    (∃ fault, parse plaintext = .error fault ∧ e = .codec path (fault.describe plaintext)) ∨
      ∃ r, parse plaintext = .ok r ∧ r.path ≠ path ∧ e = .pathMismatch path r.path := by
  unfold ofBytes at h
  cases hparse : parse plaintext with
  | error fault =>
    rw [hparse] at h
    injection h with h
    exact .inl ⟨fault, rfl, h.symm⟩
  | ok r =>
    rw [hparse] at h
    dsimp only at h
    split at h
    · exact absurd h (by simp)
    · rename_i hpath
      injection h with h
      exact .inr ⟨r, rfl, hpath, h.symm⟩

/-- A plaintext that is not the record of its path is a flaw of its value. -/
theorem Flaw.of_ofBytes {a : Aead} {path : String} {value plaintext : Bytes} {e : StoreError}
    (hdecrypt : Stream.decrypt a value = .ok plaintext)
    (h : Record.ofBytes path plaintext = .error e) : Flaw a path value e := by
  rcases Record.ofBytes_eq_error h with ⟨fault, hparse, rfl⟩ | ⟨r, hparse, hpath, rfl⟩
  · exact .illegible hdecrypt hparse
  · exact .misplaced hdecrypt hparse hpath

/-- A value that was decrypted is not warned of as one that was not. -/
theorem StoreError.warnings_of_ofBytes {path : String} {plaintext : Bytes} {e : StoreError}
    (h : Record.ofBytes path plaintext = .error e) : e.warnings = e.misplacements := by
  rcases Record.ofBytes_eq_error h with ⟨fault, -, rfl⟩ | ⟨r, -, -, rfl⟩
  · rfl
  · rfl

/-! ## Failures of the barrier -/

/-- What the engine answers for a key is bound to it. -/
theorem Engine.get_eq_ok {key : String} {e f : Engine} {x : Option Bytes}
    (h : get key e = .ok x f) : e.value? key = x := by
  obtain ⟨face, ⟨value, contents, ⟨hvalue, -⟩, hget⟩ | ⟨error, hget⟩⟩ := get_outcome key e
  · rw [h] at hget
    injection hget with hget
    rw [hget]
    exact hvalue
  · rw [h] at hget
    exact absurd hget (by simp)

namespace Barrier

variable {α : Type} {a : Aead} {s t : Ambient} {e : BarrierError}

/-- What fails to be decrypted is refused by the cipher. -/
theorem decrypt_eq_error {ciphertext : Bytes} (h : decrypt a ciphertext s = .error e t) :
    ∃ cause, Stream.decrypt a ciphertext = .error cause ∧ e = .crypto cause ∧ t = s := by
  cases hdecrypt : Stream.decrypt a ciphertext with
  | ok plaintext =>
    rw [decrypt_ok hdecrypt] at h
    exact absurd h (by simp)
  | error cause =>
    rw [decrypt_error hdecrypt] at h
    injection h with herror hstate
    exact ⟨cause, rfl, herror.symm, hstate.symm⟩

/-! ### What is found and decrypted -/

/-- What a call of the engine finds, with its value decrypted. -/
def decryptFound {β γ : Type} (a : Aead) (value : β → Bytes) (give : β → Bytes → γ)
    (call : EngineCall (Option β)) : BarrierCall (Option γ) := do
  match ← onEngine call with
  | none => pure none
  | some x =>
    let plaintext ← decrypt a (value x)
    pure (some (give x plaintext))

/-- Reading a key is decrypting what is found under it. -/
theorem get_eq (a : Aead) (key : String) :
    get a key = decryptFound a id (fun _ plaintext => plaintext) (Engine.get key) := by
  unfold get decryptFound
  refine bind_congr fun x => ?_
  cases x with
  | none => rfl
  | some ciphertext => rfl

/-- Reading the last entry is decrypting what is found last. -/
theorem last_eq (a : Aead) (stem : String) :
    last a stem = decryptFound a Prod.snd (fun entry plaintext => (entry.1, plaintext))
      (Engine.last stem) := by
  unfold last decryptFound
  refine bind_congr fun x => ?_
  cases x with
  | none => rfl
  | some entry => rfl

section Found

variable {β γ : Type} {value : β → Bytes} {give : β → Bytes → γ} {call : EngineCall (Option β)}

/-- What is found decrypted was found, and its value is decrypted to that. -/
theorem decryptFound_eq_some {y : γ} (h : decryptFound a value give call s = .ok (some y) t) :
    ∃ x f plaintext, call s.engine = .ok (some x) f ∧
      Stream.decrypt a (value x) = .ok plaintext ∧ give x plaintext = y := by
  obtain ⟨x, u, hengine, hrest⟩ := Call.exists_of_bind_ok h
  obtain ⟨f, hcall⟩ := onEngine_eq_ok hengine
  cases x with
  | none =>
    injection hrest with hnone
    exact absurd hnone (by simp)
  | some x =>
    obtain ⟨plaintext, v, hdecrypt, hpure⟩ := Call.exists_of_bind_ok hrest
    injection hpure with hgive
    injection hgive with hgive
    exact ⟨x, f, plaintext, hcall, decrypt_eq_ok hdecrypt, hgive⟩

/-- Nothing is read if the engine fails, or if what it finds cannot be decrypted. -/
theorem decryptFound_eq_error (h : decryptFound a value give call s = .error e t) :
    (∃ cause, e = .storage cause) ∨
      ∃ x f cause, call s.engine = .ok (some x) f ∧
        Stream.decrypt a (value x) = .error cause ∧ e = .crypto cause := by
  rcases Call.cases_of_bind_error h with hengine | ⟨x, u, hengine, hrest⟩
  · obtain ⟨cause, -, -, herror, -⟩ := onEngine_eq_error hengine
    exact .inl ⟨cause, herror⟩
  obtain ⟨f, hcall⟩ := onEngine_eq_ok hengine
  cases x with
  | none => exact absurd hrest Call.pure_ne_error
  | some x =>
    rcases Call.cases_of_bind_error hrest with hdecrypt | ⟨plaintext, v, -, hpure⟩
    · obtain ⟨cause, hcause, herror, -⟩ := decrypt_eq_error hdecrypt
      exact .inr ⟨x, f, cause, hcall, hcause, herror⟩
    · exact absurd hpure Call.pure_ne_error

end Found

/-- A value that is read is what the bound one is decrypted to. -/
theorem get_eq_some {key : String} {plaintext : Bytes}
    (h : get a key s = .ok (some plaintext) t) :
    ∃ value, s.engine.value? key = some value ∧ Stream.decrypt a value = .ok plaintext := by
  rw [get_eq] at h
  obtain ⟨value, f, p, hget, hdecrypt, rfl⟩ := decryptFound_eq_some h
  exact ⟨value, Engine.get_eq_ok hget, hdecrypt⟩

/-- A key fails to be read if the engine fails or what is bound to it cannot be decrypted. -/
theorem get_eq_error {key : String} (h : get a key s = .error e t) :
    (∃ cause, e = .storage cause) ∨
      ∃ value cause, s.engine.value? key = some value ∧
        Stream.decrypt a value = .error cause ∧ e = .crypto cause := by
  rw [get_eq] at h
  refine (decryptFound_eq_error h).imp_right ?_
  rintro ⟨value, f, cause, hget, hcause, herror⟩
  exact ⟨value, cause, Engine.get_eq_ok hget, hcause, herror⟩

/-- The last entry fails to be read if the engine fails or its value cannot be decrypted. -/
theorem last_eq_error {stem : String} (h : last a stem s = .error e t) :
    (∃ cause, e = .storage cause) ∨
      ∃ entry cause, s.engine.contents.last stem = .ok (some entry) ∧
        Stream.decrypt a entry.2 = .error cause ∧ e = .crypto cause := by
  rw [last_eq] at h
  refine (decryptFound_eq_error h).imp_right ?_
  rintro ⟨entry, f, cause, hlast, hcause, herror⟩
  exact ⟨entry, cause, Engine.last_eq_ok hlast, hcause, herror⟩

/-- A value fails to be written if it is too long or if the engine fails. -/
theorem put_eq_error {key : String} {plaintext : Bytes} (h : put a key plaintext s = .error e t) :
    (∃ cause, e = .storage cause) ∨ ∃ reason, e = .crypto (.encryption reason) := by
  rcases Call.cases_of_bind_error h with hencrypt | ⟨ciphertext, u, -, hengine⟩
  · -- Whatever fits is sealed by any cipher.
    refine .inr ⟨Stream.refusal, ?_⟩
    unfold encrypt Stream.encrypt at hencrypt
    dsimp only at hencrypt
    by_cases hfits : Stream.Fits plaintext
    · rw [Stream.encryptWith_eq hfits] at hencrypt
      exact absurd hencrypt (by simp)
    · rw [Stream.encryptWith_eq_error hfits] at hencrypt
      injection hencrypt with herror
      exact herror.symm
  · obtain ⟨cause, -, -, herror, -⟩ := onEngine_eq_error hengine
    exact .inl ⟨cause, herror⟩

end Barrier

/-! ## Calls that accuse rightly -/

/-- A failure that accuses a record which the engine held and which fails so, after `told` was
told. -/
structure Scene.Reports (a : Aead) (told : List Event) (s : Scene) (e : StoreError) (t : Scene) :
    Prop where
  flaw : ∃ path value, s.ambient.engine.value? path = some value ∧ Flaw a path value e
  events : t.ambient.events = told ++ s.ambient.events

/-- A report behind a call that only listens is one from before it. -/
theorem Scene.Reports.of_listens {a : Aead} {told : List Event} {s t u : Scene} {e : StoreError}
    (hu : s.Leads Effect.Listens u) (h : u.Reports a told e t) : s.Reports a told e t := by
  obtain ⟨path, value, hvalue, hflaw⟩ := h.flaw
  rw [hu.value?_eq id id] at hvalue
  exact ⟨⟨path, value, hvalue, hflaw⟩, by rw [h.events, hu.events_eq]⟩

namespace StoreCall

variable {α β : Type} {a : Aead} {tells : StoreError → List Event}

/-- A call that accuses no record. -/
def IsInnocent (x : StoreCall α) : Prop :=
  ∀ ⦃s : Scene⦄ ⦃e : StoreError⦄ ⦃t : Scene⦄, x s = .error e t → e.accused? = none

/-- A call that accuses no record but one that the engine holds and that fails so, after it has
told what belongs to the failure. -/
def IsFair (a : Aead) (tells : StoreError → List Event) (x : StoreCall α) : Prop :=
  ∀ ⦃s : Scene⦄ ⦃e : StoreError⦄ ⦃t : Scene⦄, x s = .error e t →
    e.accused? = none ∨ s.Reports a (tells e) e t

/-- What accuses nothing accuses nothing wrongly. -/
theorem IsInnocent.isFair {x : StoreCall α} (h : x.IsInnocent) : x.IsFair a tells :=
  fun _ _ _ hrun => .inl (h hrun)

/-- A value accuses nothing. -/
theorem isInnocent_pure (x : α) : (pure x : StoreCall α).IsInnocent :=
  fun _ _ _ h => absurd h Call.pure_ne_error

/-- A failure that accuses nothing may be thrown. -/
theorem isInnocent_throw {e : StoreError} (he : e.accused? = none) :
    (throw e : StoreCall α).IsInnocent := by
  intro s e' t h
  have herror : (.error e s : EStateM.Result StoreError Scene α) = .error e' t := h
  injection herror with herror
  rw [← herror]
  exact he

/-- A chain of calls that accuse nothing accuses nothing. -/
theorem IsInnocent.bind {x : StoreCall α} {f : α → StoreCall β} (hx : x.IsInnocent)
    (hf : ∀ y, (f y).IsInnocent) : (x >>= f).IsInnocent := by
  intro s e t h
  rcases Call.cases_of_bind_error h with hfirst | ⟨y, u, -, hrest⟩
  · exact hx hfirst
  · exact hf y hrest

/-- A chain is fair if its first call is and what follows accuses nothing. -/
theorem IsFair.bind_isInnocent {x : StoreCall α} {f : α → StoreCall β} (hx : x.IsFair a tells)
    (hf : ∀ y, (f y).IsInnocent) : (x >>= f).IsFair a tells := by
  intro s e t h
  rcases Call.cases_of_bind_error h with hfirst | ⟨y, u, -, hrest⟩
  · exact hx hfirst
  · exact .inl (hf y hrest)

/-- A chain is fair if its first call is, and tells nothing unless it fails, and the rest is. -/
theorem IsFair.bind {x : StoreCall α} {f : α → StoreCall β} (hx : x.IsFair a tells)
    (hlistens : ∀ ⦃s y t⦄, x s = .ok y t → s.Leads Effect.Listens t)
    (hf : ∀ y, (f y).IsFair a tells) : (x >>= f).IsFair a tells := by
  intro s e t h
  rcases Call.cases_of_bind_error h with hfirst | ⟨y, u, hfirst, hrest⟩
  · exact hx hfirst
  -- The report counts from the scene in front of the first call.
  · exact (hf y hrest).imp_right (Scene.Reports.of_listens (hlistens hfirst))

/-! ### Calls that accuse nothing -/

/-- An interruption accuses nothing. -/
theorem isInnocent_boundary (ctx : Context) : (boundary ctx).IsInnocent := by
  intro s e t h
  obtain ⟨i, -, rfl⟩ := boundary_eq_error h
  cases i with
  | cancelled => rfl
  | deadlineExceeded => rfl

/-- A closed store accuses nothing. -/
theorem isInnocent_openSession : openSession.IsInnocent := by
  intro s e t h
  unfold openSession at h
  cases hsession : s.store.session with
  | none =>
    rw [hsession] at h
    injection h with herror
    rw [← herror]
    rfl
  | some session =>
    rw [hsession] at h
    exact absurd h (by simp)

/-- The root accuses nothing. -/
theorem isInnocent_writable (raw : String) : (writable raw).IsInnocent := by
  unfold writable
  split
  · exact isInnocent_throw rfl
  · exact isInnocent_pure _

/-- The clock does not fail. -/
theorem isInnocent_now : now.IsInnocent := by
  intro s e t h
  exact absurd h (by simp [now])

/-- Telling does not fail. -/
theorem isInnocent_tell (event : Event) : (tell event).IsInnocent := by
  intro s e t h
  exact absurd h (by simp [tell])

/-- What fails over the barrier has failed in it. -/
theorem onBarrier_eq_error {path : String} {call : BarrierCall α} {s t : Scene} {e : StoreError}
    (h : onBarrier path call s = .error e t) :
    ∃ cause, call s.ambient = .error cause t.ambient ∧ e = .ofBarrier path cause := by
  cases hrun : call s.ambient with
  | ok x ambient =>
    rw [onBarrier_ok hrun] at h
    exact absurd h (by simp)
  | error cause ambient =>
    rw [onBarrier_error hrun] at h
    injection h with herror hscene
    rw [← hscene]
    exact ⟨cause, rfl, herror.symm⟩

/-- What is written was not read, so that its failure accuses no stored record. -/
theorem isInnocent_writeRecord (a : Aead) (r : Record) : (writeRecord a r).IsInnocent := by
  intro s e t h
  obtain ⟨cause, hput, rfl⟩ := onBarrier_eq_error h
  rcases Barrier.put_eq_error hput with ⟨fault, rfl⟩ | ⟨reason, rfl⟩
  · rfl
  · rfl

/-- What begins at a boundary and needs an open store accuses a record only in its session. -/
theorem cases_of_opened {ctx : Context} {f : Session → StoreCall α} {s t : Scene} {e : StoreError}
    (h : (boundary ctx >>= fun _ => openSession >>= f) s = .error e t) :
    e.accused? = none ∨
      ∃ session u, s.store.session = some session ∧ s.Leads Effect.Listens u ∧
        f session u = .error e t := by
  rcases Call.cases_of_bind_error h with hboundary | ⟨_, u, hboundary, h⟩
  · exact .inl (isInnocent_boundary ctx hboundary)
  rcases Call.cases_of_bind_error h with hopen | ⟨session, v, hopen, hrest⟩
  · exact .inl (isInnocent_openSession hopen)
  have hu : s.Leads Effect.Listens u := (leads_boundary ctx).ok hboundary
  obtain ⟨hsession, rfl⟩ := openSession_eq_ok hopen
  rw [hu.keeps_of_listens.store] at hsession
  exact .inr ⟨session, v, hsession, hu, hrest⟩

/-- What is to write at a path and needs an open store accuses a record only in its session. -/
theorem cases_of_writable {ctx : Context} {raw : String} {f : String → Session → StoreCall α}
    {s t : Scene} {e : StoreError}
    (h : (boundary ctx >>= fun _ => writable raw >>= fun path => openSession >>= f path) s =
      .error e t) :
    e.accused? = none ∨
      ∃ session u, s.store.session = some session ∧ s.Leads Effect.Listens u ∧
        f (Path.normalize raw) session u = .error e t := by
  rcases Call.cases_of_bind_error h with hboundary | ⟨_, u, hboundary, h⟩
  · exact .inl (isInnocent_boundary ctx hboundary)
  rcases Call.cases_of_bind_error h with hwritable | ⟨path, v, hwritable, h⟩
  · exact .inl (isInnocent_writable raw hwritable)
  rcases Call.cases_of_bind_error h with hopen | ⟨session, w, hopen, hrest⟩
  · exact .inl (isInnocent_openSession hopen)
  have hu : s.Leads Effect.Listens u := (leads_boundary ctx).ok hboundary
  obtain ⟨-, rfl, rfl⟩ := writable_eq_ok hwritable
  obtain ⟨hsession, rfl⟩ := openSession_eq_ok hopen
  rw [hu.keeps_of_listens.store] at hsession
  exact .inr ⟨session, w, hsession, hu, hrest⟩

/-! ### Reading a record -/

/-- A failure is thrown after it was told if its record is misplaced. -/
theorem fail_eq_error {e e' : StoreError} {s t : Scene}
    (h : (fail e : StoreCall α) s = .error e' t) :
    e' = e ∧ t.ambient.events = e.misplacements ++ s.ambient.events := by
  cases e with
  | pathMismatch expected actual =>
    injection h with herror hscene
    rw [← herror, ← hscene]
    exact ⟨rfl, rfl⟩
  | _ =>
    injection h with herror hscene
    rw [← herror, ← hscene]
    exact ⟨rfl, rfl⟩

/-- A value that is not the record of its key is reported as such. -/
theorem decode_eq_error {path : String} {plaintext : Bytes} {s t : Scene} {e : StoreError}
    (h : decode path plaintext s = .error e t) :
    Record.ofBytes path plaintext = .error e ∧
      t.ambient.events = e.misplacements ++ s.ambient.events := by
  unfold decode at h
  cases hbytes : Record.ofBytes path plaintext with
  | ok r =>
    rw [hbytes] at h
    exact absurd h Call.pure_ne_error
  | error e' =>
    rw [hbytes] at h
    obtain ⟨rfl, hevents⟩ := fail_eq_error h
    exact ⟨rfl, hevents⟩

/-- A record that is decoded is decoded in silence. -/
theorem listens_of_decode {path : String} {plaintext : Bytes} {s t : Scene} {r : Record}
    (h : decode path plaintext s = .ok r t) : s.Leads Effect.Listens t := by
  rw [decode_ok (decode_eq_ok h)] at h
  injection h with _ hscene
  rw [← hscene]
  exact Scene.Leads.refl s

/-- What is read as a record was read over the barrier. -/
theorem onRecord_eq_ok {path : String} {call : BarrierCall α} {s t : Scene} {x : α}
    (h : onRecord path call s = .ok x t) : onBarrier path call s = .ok x t := by
  unfold onRecord at h
  cases hrun : onBarrier path call s with
  | ok y u =>
    rw [hrun] at h
    exact h
  | error e u =>
    rw [hrun] at h
    exact absurd h (by simp)

/-- A record that is read is read in silence. -/
theorem listens_of_readRecord {path : String} {s t : Scene} {x : Option Record}
    (h : readRecord a path s = .ok x t) : s.Leads Effect.Listens t := by
  obtain ⟨plaintext, u, hget, hrest⟩ := Call.exists_of_bind_ok h
  have hu : s.Leads Effect.Listens u :=
    (leads_onBarrier (Barrier.leads_get a path)).ok (onRecord_eq_ok hget)
  cases plaintext with
  | none =>
    injection hrest with _ hscene
    rw [← hscene]
    exact hu
  | some plaintext =>
    obtain ⟨r, v, hdecode, hpure⟩ := Call.exists_of_bind_ok hrest
    injection hpure with _ hscene
    rw [← hscene]
    exact Scene.Leads.trans _ _ _ hu (listens_of_decode hdecode)

/-- A value that is read by its path and cannot be decrypted is warned of. -/
theorem isFair_onRecord (a : Aead) (path : String) :
    (onRecord path (Barrier.get a path)).IsFair a StoreError.warnings := by
  intro s e t h
  unfold onRecord at h
  cases hrun : onBarrier path (Barrier.get a path) s with
  | ok x u =>
    rw [hrun] at h
    exact absurd h (by simp)
  | error e' u =>
    rw [hrun] at h
    injection h with herror hscene
    subst herror
    obtain ⟨cause, hget, rfl⟩ := onBarrier_eq_error hrun
    rcases Barrier.get_eq_error hget with ⟨fault, rfl⟩ | ⟨value, cause, hvalue, hdecrypt, rfl⟩
    · exact .inl rfl
    -- A failure to encrypt would accuse nothing, and any other is one to decrypt.
    rcases StoreError.ofBarrier_crypto path cause with hnone | hsame
    · exact .inl hnone
    · have hu : s.Leads Effect.Listens u :=
        (leads_onBarrier (Barrier.leads_get a path)).error hrun
      rw [hsame] at hscene ⊢
      refine .inr ⟨⟨path, value, hvalue, .unauthentic hdecrypt⟩, ?_⟩
      rw [← hscene, ← hu.events_eq]
      rfl

/-- A record that is read by its path and cannot be read is warned of, unless it was decrypted
and is not legible. -/
theorem isFair_readRecord (a : Aead) (path : String) :
    (readRecord a path).IsFair a StoreError.warnings := by
  intro s e t h
  rcases Call.cases_of_bind_error h with hget | ⟨x, u, hget, hrest⟩
  · exact isFair_onRecord a path hget
  have hbarrier := onRecord_eq_ok hget
  cases x with
  | none => exact absurd hrest Call.pure_ne_error
  | some plaintext =>
    rcases Call.cases_of_bind_error hrest with hdecode | ⟨r, v, -, hpure⟩
    · obtain ⟨value, hvalue, hdecrypt⟩ := Barrier.get_eq_some (onBarrier_eq_ok hbarrier)
      obtain ⟨hbytes, hevents⟩ := decode_eq_error hdecode
      have hu : s.Leads Effect.Listens u :=
        (leads_onBarrier (Barrier.leads_get a path)).ok hbarrier
      refine .inr ⟨⟨path, value, hvalue, .of_ofBytes hdecrypt hbytes⟩, ?_⟩
      rw [hevents, hu.events_eq, StoreError.warnings_of_ofBytes hbytes]
    · exact absurd hpure Call.pure_ne_error

end StoreCall

end Strongbox
