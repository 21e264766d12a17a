import Strongbox.Cipher.Key
import Strongbox.Proofs.Store.Damage

/-!
# Warnings of damaged records

The operations that read records accuse the record that they could not read, with one exception:
the last record of a range that cannot be decrypted is not named, but the beginning of the range
in its place.  A record that names another path is always warned of, one that cannot be decrypted
only where it is read by its path.  The main statements are `Lookup.accuses_flawed` and
`integrity_warnings`.
-/

set_option autoImplicit false

namespace Strongbox

open Call (Respects)

/-! ## Operations on single paths -/

/-- A failure that accuses no record, or rightly one under the cipher of the session. -/
def Scene.Accounts (told : List Event) (s : Scene) (e : StoreError) (t : Scene) : Prop :=
  e.accused? = none ∨
    ∃ session, s.store.session = some session ∧ s.Reports session.cipher told e t

namespace Store

open StoreCall

variable {s t : Scene} {e : StoreError}

/-- What needs an open store accounts for its failures if the rest is fair. -/
theorem accounts_of_opened {α : Type} {ctx : Context} {tells : StoreError → List Event}
    {f : Session → StoreCall α} (hf : ∀ session, (f session).IsFair session.cipher tells)
    (h : (boundary ctx >>= fun _ => openSession >>= f) s = .error e t) :
    s.Accounts (tells e) e t := by
  rcases cases_of_opened h with hnone | ⟨session, u, hsession, hu, hrest⟩
  · exact .inl hnone
  · exact (hf session hrest).imp_right fun hreports => ⟨session, hsession, hreports.of_listens hu⟩

/-- What is to write accounts for its failures if the rest is fair. -/
theorem accounts_of_writable {α : Type} {ctx : Context} {raw : String}
    {tells : StoreError → List Event} {f : String → Session → StoreCall α}
    (hf : ∀ path session, (f path session).IsFair session.cipher tells)
    (h : (boundary ctx >>= fun _ => writable raw >>= fun path => openSession >>= f path) s =
      .error e t) :
    s.Accounts (tells e) e t := by
  rcases cases_of_writable h with hnone | ⟨session, u, hsession, hu, hrest⟩
  · exact .inl hnone
  · exact (hf _ session hrest).imp_right fun hreports => ⟨session, hsession, hreports.of_listens hu⟩

/-- `get` accounts for its failures. -/
theorem accounts_get {ctx : Context} {raw : String} (h : get ctx raw s = .error e t) :
    s.Accounts e.warnings e t :=
  accounts_of_opened
    (fun session => (isFair_readRecord session.cipher _).bind_isInnocent fun _ =>
      isInnocent_pure _) h

/-- Reading paths in turn is fair. -/
theorem isFair_getEach (ctx : Context) (a : Aead) (paths : List String) :
    (getEach ctx a paths).IsFair a StoreError.warnings := by
  induction paths with
  | nil => exact (isInnocent_pure _).isFair
  | cons raw rest ih =>
    refine (isInnocent_boundary ctx).isFair.bind (fun _ _ _ => (leads_boundary ctx).ok)
      fun _ => ?_
    refine (isFair_readRecord a _).bind (fun _ _ _ => listens_of_readRecord) fun x => ?_
    refine ih.bind_isInnocent fun documents => ?_
    cases x with
    | none => exact isInnocent_pure _
    | some r => exact isInnocent_pure _

/-- `getAll` accounts for its failures. -/
theorem accounts_getAll {ctx : Context} {paths : List String}
    (h : getAll ctx paths s = .error e t) : s.Accounts e.warnings e t :=
  accounts_of_opened (fun session => isFair_getEach ctx session.cipher paths) h

/-- `set` accounts for its failures. -/
theorem accounts_set {ctx : Context} {raw : String} {fields : Fields} {mode : WriteMode}
    (h : set ctx raw fields mode s = .error e t) : s.Accounts e.warnings e t := by
  refine accounts_of_writable (fun path session => ?_) h
  refine isInnocent_now.isFair.bind (fun _ _ _ => (leads_now).ok) fun time => ?_
  refine (isFair_readRecord session.cipher path).bind_isInnocent fun stored => ?_
  exact (isInnocent_writeRecord session.cipher _).bind fun _ => isInnocent_tell _

/-- A record without the number of a counter fails as that of a counter. -/
theorem cases_of_batchStart {a : Aead} {path : String} {stored : Option Record} {s u t : Scene}
    {e : StoreError} (hread : readRecord a path s = .ok stored u)
    (h : batchStart path stored u = .error e t) : s.Reports a e.warnings e t := by
  cases stored with
  | none => exact absurd h Call.pure_ne_error
  | some r =>
    unfold batchStart at h
    dsimp only at h
    cases hcounter : Counter.stored? r.fields with
    | some n =>
      rw [hcounter] at h
      exact absurd h Call.pure_ne_error
    | none =>
      rw [hcounter] at h
      injection h with herror hscene
      rcases Engine.cases_of_record? (record?_of_readRecord hread) with
        ⟨hnone, -⟩ | ⟨value, plaintext, r', hsome, hvalue, hdecrypt, hbytes⟩
      · exact absurd hnone (by simp)
      injection hsome with hsame
      subst hsame
      obtain ⟨hparse, hpath⟩ := Record.ofBytes_eq_ok hbytes
      rw [← herror, ← hscene]
      exact ⟨⟨path, value, hvalue, .noCounter hdecrypt hparse hpath hcounter⟩,
        (listens_of_readRecord hread).events_eq⟩

/-- A reservation is fair. -/
theorem isFair_reserve (a : Aead) (path : String) :
    (reserve a path).IsFair a StoreError.warnings := by
  intro s e t h
  rcases Call.cases_of_bind_error h with hread | ⟨stored, u, hread, hrest⟩
  · exact isFair_readRecord a path hread
  rcases Call.cases_of_bind_error hrest with hstart | ⟨start, v, -, hrest⟩
  · exact .inr (cases_of_batchStart hread hstart)
  -- From here on records are only written.
  refine .inl ?_
  cases hreserve : Cursor.reserve start with
  | none =>
    rw [hreserve] at hrest
    exact isInnocent_throw rfl hrest
  | some batch =>
    rw [hreserve] at hrest
    have hwrite : ∀ createdAt time, (do
        writeRecord a ⟨path, Counter.fieldsFor batch.2, createdAt, time⟩
        tell (.reserved batch.2 path)
        pure batch.1 : StoreCall Cursor).IsInnocent := fun createdAt time =>
      (isInnocent_writeRecord a _).bind fun _ => (isInnocent_tell _).bind fun _ =>
        isInnocent_pure _
    exact isInnocent_now.bind (fun time => hwrite _ time) hrest

/-- Choosing a cursor is fair. -/
theorem isFair_cursorFor (session : Session) (path : String) :
    (cursorFor session path).IsFair session.cipher StoreError.warnings := by
  unfold cursorFor
  split
  · exact isFair_reserve session.cipher path
  · split
    · exact isFair_reserve session.cipher path
    · exact (isInnocent_pure _).isFair

/-- `increment` accounts for its failures. -/
theorem accounts_increment {ctx : Context} {raw : String}
    (h : increment ctx raw s = .error e t) : s.Accounts e.warnings e t := by
  refine accounts_of_writable (fun path session => ?_) h
  refine (isFair_cursorFor session path).bind_isInnocent fun cursor => ?_
  cases cursor.advance with
  | none => exact isInnocent_throw rfl
  | some issued =>
    have hkeep : (keepCursor path issued.2).IsInnocent := fun _ _ _ hkeep =>
      absurd hkeep (by simp [keepCursor])
    refine hkeep.bind fun _ => ?_
    cases Counter.formatId issued.1 with
    | none => exact isInnocent_throw rfl
    | some text => exact isInnocent_pure text

end Store

/-! ## The last record of a range -/

/-- The last record of the keys that begin with `stem` lies under another key and cannot be
decrypted, and the failure accuses `stem`. -/
def Engine.Mistakes (a : Aead) (stem : String) (g : Engine) (e : StoreError) : Prop :=
  ∃ key value cause, g.contents.last stem = .ok (some (key, value)) ∧ key ≠ stem ∧
    Stream.decrypt a value = .error cause ∧ e = .decryption stem cause

/-- What is mistaken behind a call that only reads was mistaken before. -/
theorem Engine.Mistakes.of_keeps {a : Aead} {stem : String} {s t : Scene} {e : StoreError}
    (hkeeps : s.Keeps t) (h : t.ambient.engine.Mistakes a stem e) :
    s.ambient.engine.Mistakes a stem e := by
  unfold Mistakes at h ⊢
  rw [← hkeeps.contents]
  exact h

namespace Store

open StoreCall

variable {a : Aead} {stem : String} {s t : Scene} {e : StoreError}

/-- The last value of a range that cannot be decrypted is accused only if its key is where the
range begins. -/
theorem cases_of_onBarrier_last (h : onBarrier stem (Barrier.last a stem) s = .error e t) :
    e.accused? = none ∨ s.Reports a e.misplacements e t ∨
      (s.ambient.engine.Mistakes a stem e ∧ t.ambient.events = s.ambient.events) := by
  have ht : s.Leads Effect.Listens t := (leads_onBarrier (Barrier.leads_last a stem)).error h
  have hevents := ht.events_eq
  obtain ⟨failure, hcall, rfl⟩ := onBarrier_eq_error h
  rcases Barrier.last_eq_error hcall with ⟨fault, rfl⟩ | ⟨⟨key, value⟩, cause, hlast, hcause, rfl⟩
  · exact .inl rfl
  rcases StoreError.ofBarrier_crypto stem cause with hnone | hsame
  · exact .inl hnone
  rw [hsame]
  -- The beginning of the range may itself be the key of its last record.
  by_cases hkey : key = stem
  · subst hkey
    have hvalue := Contents.holds_iff.1 (Contents.holds_of_last hlast)
    exact .inr (.inl ⟨⟨key, value, hvalue, .unauthentic hcause⟩, hevents⟩)
  · exact .inr (.inr ⟨⟨key, value, cause, hlast, hkey, hcause, rfl⟩, hevents⟩)

/-- The last value of a range that can be decrypted, but is not the record of its key, is
accused. -/
theorem reports_of_decode_last {key : String} {plaintext : Bytes} {u : Scene}
    (hlast : onBarrier stem (Barrier.last a stem) s = .ok (some (key, plaintext)) u)
    (h : decode key plaintext u = .error e t) : s.Reports a e.misplacements e t := by
  have hu : s.Leads Effect.Listens u := (leads_onBarrier (Barrier.leads_last a stem)).ok hlast
  obtain ⟨value, f, hengine, hdecrypt⟩ := Barrier.exists_of_last (onBarrier_eq_ok hlast)
  have hvalue := Contents.holds_iff.1 (Contents.holds_of_last (Engine.last_eq_ok hengine))
  obtain ⟨hbytes, hlog⟩ := decode_eq_error h
  rw [hu.events_eq] at hlog
  exact ⟨⟨key, value, hvalue, .of_ofBytes hdecrypt hbytes⟩, hlog⟩

/-- The last record of a range is accused rightly, unless it cannot be decrypted: then the
beginning of the range is accused, and nothing is told. -/
theorem cases_of_last {ctx : Context} (h : last ctx stem s = .error e t) :
    s.Accounts e.misplacements e t ∨
      ∃ session, s.store.session = some session ∧
        s.ambient.engine.Mistakes session.cipher (Path.anchored stem) e ∧
        t.ambient.events = s.ambient.events := by
  rcases cases_of_opened h with hnone | ⟨session, u, hsession, hu, hrest⟩
  · exact .inl (.inl hnone)
  rcases Call.cases_of_bind_error hrest with hlast | ⟨x, v, hlast, hrest⟩
  · rcases cases_of_onBarrier_last hlast with hnone | hreports | ⟨hmistake, hevents⟩
    · exact .inl (.inl hnone)
    · exact .inl (.inr ⟨session, hsession, hreports.of_listens hu⟩)
    · exact .inr ⟨session, hsession, hmistake.of_keeps hu.keeps_of_listens,
        hevents.trans hu.events_eq⟩
  · cases x with
    | none => exact absurd hrest Call.pure_ne_error
    | some entry =>
      rcases Call.cases_of_bind_error hrest with hdecode | ⟨r, w, -, hpure⟩
      · exact .inl (.inr ⟨session, hsession, (reports_of_decode_last hlast hdecode).of_listens hu⟩)
      · exact absurd hpure Call.pure_ne_error

end Store

/-! ## Listings -/

namespace Listing

/-- A step of a listing that tells nothing unless it fails, and that accuses no record but that
of an entry that the listing may come upon. -/
structure FairSpec {α : Type} (w : Walk) (r : EStateM.Result StoreError Walk α) : Prop where
  keeps : w.Keeps (Call.after r)
  silent : ∀ x v, r = .ok x v → v.scene.ambient.events = w.scene.ambient.events
  fails : ∀ e v, r = .error e v → e.accused? = none ∨
    w.listing.pathsOnly = false ∧
    (∃ session entry, w.scene.store.session = some session ∧ w.Offers entry ∧
      Flaw session.cipher entry.1 entry.2 e) ∧
    v.scene.ambient.events = e.misplacements ++ w.scene.ambient.events

variable {α β : Type} {w v : Walk}

/-- A silent step that succeeds is fair. -/
theorem fairSpec_ok (hkeeps : w.Keeps v)
    (hevents : v.scene.ambient.events = w.scene.ambient.events) (x : α) :
    FairSpec w (.ok x v) := by
  refine ⟨hkeeps, ?_, fun _ _ h => absurd h (by simp)⟩
  intro y u h
  injection h with _ hstate
  rw [← hstate]
  exact hevents

/-- A step whose failure accuses no record is fair. -/
theorem fairSpec_error {e : StoreError} (hkeeps : w.Keeps v) (he : e.accused? = none) :
    FairSpec w (.error e v : EStateM.Result StoreError Walk α) := by
  refine ⟨hkeeps, fun _ _ h => absurd h (by simp), ?_⟩
  intro e' u h
  injection h with herror
  rw [← herror]
  exact .inl he

/-- What is fair behind a silent step is fair from before it. -/
theorem FairSpec.of_silent {u : Walk} {r : EStateM.Result StoreError Walk α} (hkeeps : u.Keeps w)
    (hevents : w.scene.ambient.events = u.scene.ambient.events) (h : FairSpec w r) :
    FairSpec u r := by
  refine ⟨Walk.Keeps.trans _ _ _ hkeeps h.keeps, ?_, ?_⟩
  · intro x v hr
    rw [h.silent x v hr, hevents]
  · intro e v hr
    rcases h.fails e v hr with hnone | ⟨hdata, ⟨session, entry, hsession, hentry, hflaw⟩, hlog⟩
    · exact .inl hnone
    · rw [hkeeps.pathsOnly] at hdata
      rw [hkeeps.scene.store] at hsession
      exact .inr ⟨hdata, ⟨session, entry, hsession, hkeeps.offers hdata hentry, hflaw⟩,
        by rw [hlog, hevents]⟩

/-- A chain of steps is fair if the first one is and what follows it is. -/
theorem FairSpec.bind {u : Walk} {x : Step α} {f : α → Step β} (hx : FairSpec u (x w))
    (hf : ∀ y v, x w = .ok y v → u.Keeps v →
      v.scene.ambient.events = u.scene.ambient.events → FairSpec u (f y v)) :
    FairSpec u ((x >>= f) w) := by
  have hkeeps := hx.keeps
  cases hrun : x w with
  | ok y v =>
    rw [hrun] at hkeeps
    rw [Call.bind_ok hrun]
    exact hf y v hrun hkeeps (hx.silent y v hrun)
  | error e v =>
    rw [hrun] at hkeeps
    rw [Call.bind_error hrun]
    refine ⟨hkeeps, fun _ _ h => absurd h (by simp), ?_⟩
    intro e' v' h
    injection h with herror hstate
    exact hx.fails e' v' (by rw [hrun, herror, hstate])

/-- A store call that only listens and is innocent is fair in a listing. -/
theorem fairSpec_onStore {call : StoreCall α}
    (hlistens : Respects (Scene.Leads Effect.Listens) call) (hinnocent : call.IsInnocent)
    (w : Walk) : FairSpec w (onStore call w) := by
  have hw := keeps_onStore (hlistens.mono fun _ he => he.allowed) w
  cases hrun : call w.scene with
  | ok x s =>
    rw [onStore_ok hrun] at hw ⊢
    exact fairSpec_ok hw (hlistens.ok hrun).events_eq x
  | error e s =>
    rw [onStore_error hrun] at hw ⊢
    exact fairSpec_error hw (hinnocent hrun)

/-- Reading a page is innocent. -/
theorem isInnocent_readPage (l : Listing) : (readPage l).IsInnocent := by
  intro s e t h
  obtain ⟨cause, hcall, rfl⟩ := StoreCall.onBarrier_eq_error h
  split at hcall
  · rcases Call.cases_of_bind_error hcall with hscan | ⟨keys, u, -, hpure⟩
    · obtain ⟨fault, -, -, rfl, -⟩ := Barrier.onEngine_eq_error hscan
      rfl
    · exact absurd hpure Call.pure_ne_error
  · obtain ⟨fault, -, -, rfl, -⟩ := Barrier.onEngine_eq_error hcall
    rfl

/-- Refilling the buffer is fair. -/
theorem fairSpec_refill (w : Walk) : FairSpec w (refill w) := by
  have hkeeps := keeps_refill w
  unfold refill at hkeeps ⊢
  rw [Call.bind_ok (current_eq w)] at hkeeps ⊢
  split
  · rename_i hempty
    rw [if_pos hempty] at hkeeps
    cases hpage : readPage w.listing w.scene with
    | error e s =>
      rw [Call.bind_error (onStore_error hpage)] at hkeeps ⊢
      exact fairSpec_error hkeeps (isInnocent_readPage w.listing hpage)
    | ok page s =>
      rw [Call.bind_ok (onStore_ok hpage)] at hkeeps ⊢
      have hs : w.scene.Leads Effect.Listens s := (leads_readPage w.listing).ok hpage
      exact fairSpec_ok hkeeps hs.events_eq ()
  · exact fairSpec_ok (Walk.Keeps.refl w) rfl ()

/-- Taking an entry is fair. -/
theorem fairSpec_take (w : Walk) : FairSpec w (take w) := by
  refine (fairSpec_refill w).bind ?_
  intro _ u _ hu hevents
  rw [Call.bind_ok (current_eq u)]
  cases hbuffer : u.listing.buffer with
  | nil => exact fairSpec_ok hu hevents none
  | cons e rest =>
    have hrest : w.Keeps { u with listing := { u.listing with buffer := rest } } := by
      refine ⟨hu.leads, hu.listing.trans ⟨rfl, rfl, rfl, rfl, rfl, rfl⟩, fun hdata f hf => ?_⟩
      apply hu.buffer hdata
      rw [hbuffer]
      exact List.mem_cons_of_mem e hf
    exact fairSpec_ok hrest hevents (some e)

/-- An entry that cannot be read is accused, and it is warned of only if it is misplaced. -/
theorem decode_eq_error {a : Aead} {e : Entry} {s t : Scene} {error : StoreError}
    (h : decode a e s = .error error t) :
    error.accused? = none ∨
      Flaw a e.1 e.2 error ∧ t.ambient.events = error.misplacements ++ s.ambient.events := by
  rcases Call.cases_of_bind_error h with hdecrypt | ⟨plaintext, u, hdecrypt, hrest⟩
  · obtain ⟨failure, hcall, rfl⟩ := StoreCall.onBarrier_eq_error hdecrypt
    obtain ⟨cause, hcause, rfl, hsame⟩ := Barrier.decrypt_eq_error hcall
    rcases StoreError.ofBarrier_crypto e.1 cause with hnone | hdecryption
    · exact .inl hnone
    · rw [hdecryption, hsame]
      exact .inr ⟨.unauthentic hcause, rfl⟩
  rcases Call.cases_of_bind_error hrest with hdecode | ⟨r, v, -, hpure⟩
  · have hu : s.Leads Effect.Listens u :=
      (StoreCall.leads_onBarrier (Barrier.leads_decrypt a e.2)).ok hdecrypt
    have hplain := Barrier.decrypt_eq_ok (StoreCall.onBarrier_eq_ok hdecrypt)
    obtain ⟨hbytes, hevents⟩ := StoreCall.decode_eq_error hdecode
    rw [hu.events_eq] at hevents
    exact .inr ⟨.of_ofBytes hplain hbytes, hevents⟩
  · exact absurd hpure Call.pure_ne_error

/-- A decoding that succeeds only listens. -/
theorem listens_of_decode {a : Aead} {e : Entry} {s t : Scene} {d : Document}
    (h : decode a e s = .ok d t) : s.Leads Effect.Listens t := by
  obtain ⟨plaintext, u, hdecrypt, hrest⟩ := Call.exists_of_bind_ok h
  obtain ⟨r, v, hdecode, hpure⟩ := Call.exists_of_bind_ok hrest
  have hu : s.Leads Effect.Listens u :=
    (StoreCall.leads_onBarrier (Barrier.leads_decrypt a e.2)).ok hdecrypt
  injection hpure with _ hscene
  rw [← hscene]
  exact Scene.Leads.trans _ _ _ hu (StoreCall.listens_of_decode hdecode)

variable {u : Walk} {session : Session}

/-- Decoding an offered entry, or putting it back, is fair. -/
theorem fairSpec_decodeOrPutBack {e : Entry} (huw : u.Keeps w)
    (hevents : w.scene.ambient.events = u.scene.ambient.events)
    (hsession : u.scene.store.session = some session) (hdata : u.listing.pathsOnly = false)
    (he : u.Offers e) : FairSpec u (decodeOrPutBack session.cipher e w) := by
  have hkeeps := keeps_decodeOrPutBack (a := session.cipher) huw fun _ => he
  unfold decodeOrPutBack onStore at hkeeps ⊢
  cases hrun : decode session.cipher e w.scene with
  | ok d s =>
    rw [hrun] at hkeeps
    exact fairSpec_ok hkeeps ((listens_of_decode hrun).events_eq.trans hevents) d
  | error error s =>
    rw [hrun] at hkeeps
    refine ⟨hkeeps, fun _ _ h => absurd h (by simp [putBack, change]), ?_⟩
    intro error' v h
    injection h with herror hstate
    subst herror
    rcases decode_eq_error hrun with hnone | ⟨hflaw, hlog⟩
    · exact .inl hnone
    · rw [hevents] at hlog
      rw [← hstate]
      exact .inr ⟨hdata, ⟨session, e, hsession, he, hflaw⟩, hlog⟩

/-- Handing out an offered entry is fair. -/
theorem fairSpec_hand {e : Entry} (huw : u.Keeps w)
    (hevents : w.scene.ambient.events = u.scene.ambient.events)
    (hsession : u.scene.store.session = some session)
    (he : u.listing.pathsOnly = false → u.Offers e) : FairSpec u (hand session.cipher e w) := by
  have hcount : ∀ v : Walk, u.Keeps v → v.scene.ambient.events = u.scene.ambient.events →
      ∀ d : Document, FairSpec u
        (.ok d { v with listing := { v.listing with yielded := v.listing.yielded + 1 } }) := by
    intro v hv hlog d
    apply fairSpec_ok
    · exact ⟨hv.leads, hv.listing.trans ⟨rfl, rfl, rfl, rfl, rfl, rfl⟩, hv.buffer⟩
    · exact hlog
  unfold hand
  rw [Call.bind_ok (current_eq w)]
  split
  · exact hcount w huw hevents _
  · rename_i hdata
    rw [huw.pathsOnly, Bool.not_eq_true] at hdata
    refine (fairSpec_decodeOrPutBack huw hevents hsession hdata (he hdata)).bind ?_
    intro d v _ hv hlog
    exact hcount v hv hlog d

/-- A step in the store's session is fair. -/
theorem fairSpec_nextFrom (skip : Nat) (hsession : w.scene.store.session = some session) :
    FairSpec w (nextFrom session.cipher skip w) := by
  -- An entry that is passed over is taken from the buffer and not decrypted.
  induction skip generalizing w with
  | zero =>
    refine (fairSpec_take w).bind ?_
    intro x v htake hv hevents
    cases x with
    | none => exact fairSpec_ok hv hevents none
    | some e =>
      have he : w.listing.pathsOnly = false → w.Offers e := fun hdata => offers_of_take hdata htake
      refine (fairSpec_hand hv hevents hsession he).bind ?_
      intro d v' _ hv' hevents'
      exact fairSpec_ok hv' hevents' (some d)
  | succ skip ih =>
    refine (fairSpec_take w).bind ?_
    intro x v htake hv hevents
    cases x with
    | none => exact fairSpec_ok hv hevents none
    | some e =>
      have hopen := hv.scene.store.symm ▸ hsession
      have hnext := ih (w := { v with listing := { v.listing with skip } }) hopen
      exact hnext.of_silent (hv.pass skip) hevents

/-- Every step is fair. -/
theorem fairSpec_next (ctx : Context) (w : Walk) : FairSpec w (next ctx w) := by
  unfold next
  rw [Call.bind_ok (current_eq w)]
  split
  · exact fairSpec_error (Walk.Keeps.refl w) rfl
  refine (fairSpec_onStore (StoreCall.leads_boundary ctx)
    (StoreCall.isInnocent_boundary ctx) w).bind ?_
  intro _ v _ hv hevents
  split
  · exact fairSpec_ok hv hevents none
  cases hrun : Listing.session w.listing v with
  | ok session v' =>
    rw [Call.bind_ok hrun]
    obtain ⟨hsession, rfl⟩ := session_eq_ok hrun
    exact (fairSpec_nextFrom w.listing.skip hsession).of_silent hv hevents
  | error e v' =>
    rw [Call.bind_error hrun]
    have hkeeps := Walk.Keeps.trans _ _ _ hv ((keeps_session w.listing).error hrun)
    unfold Listing.session at hrun
    split at hrun
    · split at hrun
      · exact absurd hrun (by simp)
      · injection hrun with herror
        exact fairSpec_error hkeeps (by rw [← herror]; rfl)
    · injection hrun with herror
      exact fairSpec_error hkeeps (by rw [← herror]; rfl)

/-- Draining a listing is fair. -/
theorem fairSpec_drain (ctx : Context) (fuel : Nat) (done : List Document) (w : Walk) :
    FairSpec w (drain ctx fuel done w) := by
  induction fuel generalizing done w with
  | zero => exact fairSpec_ok (Walk.Keeps.refl w) rfl _
  | succ fuel ih =>
    refine (fairSpec_next ctx w).bind ?_
    intro x v _ hv hevents
    cases x with
    | none => exact fairSpec_ok hv hevents _
    | some d => exact (ih (d :: done) v).of_silent hv hevents

end Listing

namespace Store

open StoreCall

variable {s t : Scene} {e : StoreError}

/-- `list` is innocent. -/
theorem isInnocent_list (ctx : Context) (parent : String) (window : Window) :
    (list ctx parent window).IsInnocent :=
  (isInnocent_boundary ctx).bind fun _ => isInnocent_openSession.bind fun _ =>
    (isInnocent_tell _).bind fun _ _ _ _ h => absurd h (by simp)

/-- `list` tells the range that it lists. -/
theorem events_list {ctx : Context} {parent : String} {window : Window} {l : Listing}
    (h : list ctx parent window s = .ok l t) :
    t.ambient.events = .listed (Path.listingRange parent window.stem) :: s.ambient.events := by
  obtain ⟨_, u, hboundary, hrest⟩ := Call.exists_of_bind_ok h
  obtain ⟨session, v, hopen, hrest⟩ := Call.exists_of_bind_ok hrest
  obtain ⟨_, w, htell, hlist⟩ := Call.exists_of_bind_ok hrest
  obtain ⟨-, hv⟩ := openSession_eq_ok hopen
  injection htell with _ hw
  injection hlist with _ ht
  have hu : s.Leads Effect.Listens u := (leads_boundary ctx).ok hboundary
  rw [← ht, ← hw, hv, ← hu.events_eq]
  rfl

/-- A listing that is collected at once accuses rightly, and warns only of misplaced records. -/
theorem accounts_documents {ctx : Context} {parent : String} {window : Window}
    (h : documents ctx parent window s = .error e t) :
    s.Accounts (e.misplacements ++ [.listed (Path.listingRange parent window.stem)]) e t := by
  rcases Call.cases_of_bind_error h with hlist | ⟨l, u, hlist, hrest⟩
  · exact .inl (isInnocent_list ctx parent window hlist)
  rcases Call.cases_of_bind_error hrest with hcollect | ⟨x, v, -, hpure⟩
  · have hu := (leads_list ctx parent window).keeps.ok hlist
    have hspec := Listing.fairSpec_drain ctx (Listing.bound ⟨l, u⟩) [] ⟨l, u⟩
    unfold Listing.run Listing.collect at hcollect
    cases hdrain : Listing.drain ctx (Listing.bound ⟨l, u⟩) [] ⟨l, u⟩ with
    | ok ds v =>
      rw [hdrain] at hcollect
      exact absurd hcollect (by simp)
    | error error v =>
      rw [hdrain] at hcollect
      injection hcollect with herror hscene
      subst herror
      rcases hspec.fails error v hdrain with
        hnone | ⟨-, ⟨session, entry, hsession, hentry, hflaw⟩, hevents⟩
      · exact .inl hnone
      refine .inr ⟨session, hu.store ▸ hsession, ⟨entry.1, entry.2, ?_, hflaw⟩, ?_⟩
      · rcases hentry with hbuffer | hholds
        -- A new listing has read nothing yet, so that the entry is one of the engine.
        · rw [(list_eq_ok hlist).1] at hbuffer
          exact absurd hbuffer List.not_mem_nil
        · exact Contents.holds_iff.1 (hu.holds hholds)
      · rw [← hscene, hevents, events_list hlist, List.append_assoc]
        rfl
  · exact absurd hpure Call.pure_ne_error

end Store

/-! ## Operations that read records -/

/-- The failure of a flawed value accuses its path. -/
theorem Flaw.accused?_eq {a : Aead} {path : String} {value : Bytes} {e : StoreError}
    (h : Flaw a path value e) : e.accused? = some path := by
  cases h with
  | unauthentic => rfl
  | illegible => rfl
  | misplaced => rfl
  | noCounter => rfl

/-- An operation that reads records. -/
inductive Lookup where
  | get (ctx : Context) (raw : String)
  | getAll (ctx : Context) (paths : List String)
  | set (ctx : Context) (raw : String) (fields : Fields) (mode : WriteMode)
  | increment (ctx : Context) (raw : String)
  | last (ctx : Context) (stem : String)
  | documents (ctx : Context) (parent : String) (window : Window)

namespace Lookup

/-- In the scene `s` the operation fails, and leaves the scene `t`. -/
def Fails (l : Lookup) (s : Scene) (e : StoreError) (t : Scene) : Prop :=
  match l with
  | .get ctx raw => Store.get ctx raw s = .error e t
  | .getAll ctx paths => Store.getAll ctx paths s = .error e t
  | .set ctx raw fields mode => Store.set ctx raw fields mode s = .error e t
  | .increment ctx raw => Store.increment ctx raw s = .error e t
  | .last ctx stem => Store.last ctx stem s = .error e t
  | .documents ctx parent window => Store.documents ctx parent window s = .error e t

/-- Whether the operation reads records by their paths. -/
def isByPath : Lookup → Bool
  | .last _ _ => false
  | .documents _ _ _ => false
  | _ => true

/-- What the operation tells if it fails with an error that accuses a record, the latest event
first. -/
def told (l : Lookup) (e : StoreError) : List Event :=
  match l with
  | .last _ _ => e.misplacements
  | .documents _ parent window =>
    e.misplacements ++ [.listed (Path.listingRange parent window.stem)]
  | _ => e.warnings

/-- A failing operation accounts for its failure, or it is `last` and mistakes its stem. -/
theorem cases_of_fails {l : Lookup} {s t : Scene} {e : StoreError} (h : l.Fails s e t) :
    s.Accounts (l.told e) e t ∨
      ∃ ctx stem session, l = .last ctx stem ∧ s.store.session = some session ∧
        s.ambient.engine.Mistakes session.cipher (Path.anchored stem) e ∧
        t.ambient.events = s.ambient.events := by
  cases l with
  | get ctx raw => exact .inl (Store.accounts_get h)
  | getAll ctx paths => exact .inl (Store.accounts_getAll h)
  | set ctx raw fields mode => exact .inl (Store.accounts_set h)
  | increment ctx raw => exact .inl (Store.accounts_increment h)
  | last ctx stem =>
    refine (Store.cases_of_last h).imp_right ?_
    rintro ⟨session, hsession, hmistake, hevents⟩
    exact ⟨ctx, stem, session, rfl, hsession, hmistake, hevents⟩
  | documents ctx parent window => exact .inl (Store.accounts_documents h)

/-- A failure that accuses a record accuses one that the engine holds under that key and that
fails so, unless the last record of a range cannot be decrypted: then the beginning of the range
is accused. -/
theorem accuses_flawed {l : Lookup} {s t : Scene} {e : StoreError} {path : String}
    (hfails : l.Fails s e t) (hpath : e.accused? = some path) :
    ∃ session, s.store.session = some session ∧
      ((∃ value, s.ambient.engine.value? path = some value ∧ Flaw session.cipher path value e) ∨
        ∃ ctx stem, l = .last ctx stem ∧ path = Path.anchored stem ∧
          s.ambient.engine.Mistakes session.cipher path e) := by
  rcases cases_of_fails hfails with (hnone | ⟨session, hsession, ⟨key, value, hvalue, hflaw⟩, -⟩) |
    ⟨ctx, stem, session, hlast, hsession, hmistake, -⟩
  · rw [hpath] at hnone
    exact absurd hnone (by simp)
  · rw [hflaw.accused?_eq] at hpath
    injection hpath with hpath
    rw [← hpath]
    exact ⟨session, hsession, .inl ⟨value, hvalue, hflaw⟩⟩
  · obtain ⟨key, value, cause, hentry, hkey, hcause, rfl⟩ := hmistake
    injection hpath with hpath
    rw [← hpath]
    exact ⟨session, hsession,
      .inr ⟨ctx, stem, hlast, rfl, key, value, cause, hentry, hkey, hcause, rfl⟩⟩

end Lookup

/-- An open store over an engine that holds one value, of which nothing is left. -/
def Scene.ofEmptied (key : String) : Scene :=
  ⟨{ config := .standard, session := some ⟨1, (Key.uniform 7).cipher, .empty⟩ },
    { engine := { contents := .volatile (Table.empty.insert key []) }
      clock := .standard
      entropy := ⟨fun _ => 0, 0⟩ }⟩

/-- Read by its path, an emptied record is accused itself. -/
theorem Lookup.accuses_emptied :
    ∃ t session value,
      Lookup.Fails (.get .background "a") (.ofEmptied "/a")
        (.decryption "/a" (.ciphertextTooShort 24 0)) t ∧
      (Scene.ofEmptied "/a").store.session = some session ∧
      (Scene.ofEmptied "/a").ambient.engine.value? "/a" = some value ∧
      Flaw session.cipher "/a" value (.decryption "/a" (.ciphertextTooShort 24 0)) := by
  have hget : Store.get .background "a" (.ofEmptied "/a") =
      .error (.decryption "/a" (.ciphertextTooShort 24 0)) _ := Call.eq_error_of_answer rfl
  have hfails : Lookup.Fails (.get .background "a") _ _ _ := hget
  obtain ⟨session, hsession, ⟨value, hvalue, hflaw⟩ | ⟨_, _, hlast, -⟩⟩ :=
    Lookup.accuses_flawed hfails rfl
  · exact ⟨_, session, value, hfails, hsession, hvalue, hflaw⟩
  · exact absurd hlast (by simp)

/-- Read as the last of a range, an emptied record is not accused, but the beginning of the
range, under which the engine holds nothing. -/
theorem Lookup.accuses_absent :
    ∃ t, Lookup.Fails (.last .background "/a") (.ofEmptied "/a/b")
        (.decryption "/a" (.ciphertextTooShort 24 0)) t ∧
      (Scene.ofEmptied "/a/b").ambient.engine.value? "/a" = none ∧
      (Scene.ofEmptied "/a/b").ambient.engine.value? "/a/b" = some [] := by
  have hlast : Store.last .background "/a" (.ofEmptied "/a/b") =
      .error (.decryption "/a" (.ciphertextTooShort 24 0)) _ := Call.eq_error_of_answer rfl
  exact ⟨_, hlast, rfl, rfl⟩

/-! ## Warnings -/

/-- Between two scenes there was a warning. -/
def Scene.Warns (s t : Scene) : Prop :=
  ∃ told, t.ambient.events = told ++ s.ambient.events ∧ ∃ x ∈ told, x.level = .warn

/-- Whether there was a warning is read off the events that were added. -/
theorem Scene.warns_iff {s t : Scene} {told : List Event}
    (h : t.ambient.events = told ++ s.ambient.events) :
    s.Warns t ↔ ∃ x ∈ told, x.level = .warn := by
  constructor
  · rintro ⟨told', htold, hwarn⟩
    rw [h] at htold
    rw [List.append_cancel_right htold]
    exact hwarn
  · intro hwarn
    exact ⟨told, h, hwarn⟩

namespace StoreError

/-- Whether a failure shows that a stored record is not the one that was written. -/
def isIntegrity : StoreError → Bool
  | .decryption _ _ => true
  | .pathMismatch _ _ => true
  | _ => false

/-- An integrity failure accuses a record. -/
theorem exists_accused_of_isIntegrity {e : StoreError} (h : e.isIntegrity = true) :
    ∃ path, e.accused? = some path := by
  cases e with
  | decryption path cause => exact ⟨path, rfl⟩
  | pathMismatch expected actual => exact ⟨expected, rfl⟩
  | _ => exact absurd h (by simp [isIntegrity])

/-- Among the misplacements only a path mismatch is a warning. -/
theorem exists_warning_misplacements (e : StoreError) :
    (∃ x ∈ e.misplacements, x.level = .warn) ↔
      ∃ expected actual, e = .pathMismatch expected actual := by
  cases e with
  | pathMismatch expected actual => simp [misplacements, Event.level]
  | _ => simp [misplacements]

/-- Every integrity failure comes with a warning where records are read by path. -/
theorem exists_warning {e : StoreError} (h : e.isIntegrity = true) :
    ∃ x ∈ e.warnings, x.level = .warn := by
  cases e with
  | decryption path cause => exact ⟨.unauthentic path, List.mem_singleton.2 rfl, rfl⟩
  | pathMismatch expected actual =>
    exact ⟨.misplaced actual expected, List.mem_singleton.2 rfl, rfl⟩
  | _ => exact absurd h (by simp [isIntegrity])

end StoreError

/-- An operation warns of an integrity failure if it reads by path or the path is mismatched. -/
theorem Lookup.exists_warning_told {e : StoreError} (h : e.isIntegrity = true) (l : Lookup) :
    (∃ x ∈ l.told e, x.level = .warn) ↔
      l.isByPath = true ∨ ∃ expected actual, e = .pathMismatch expected actual := by
  cases l with
  | last ctx stem => simpa [told, isByPath] using e.exists_warning_misplacements
  | documents ctx parent window =>
    rw [← e.exists_warning_misplacements]
    simp [told, isByPath, Event.level]
  | _ => simpa [told, isByPath] using StoreError.exists_warning h

/-- A record that was found misplaced is warned of by every operation and every step of a
listing, one that could not be decrypted only by the operations that read it by its path. -/
theorem integrity_warnings {e : StoreError} (he : e.isIntegrity = true) :
    (∀ (l : Lookup) (s t : Scene), l.Fails s e t →
      (s.Warns t ↔ l.isByPath = true ∨ ∃ expected actual, e = .pathMismatch expected actual)) ∧
    ∀ (ctx : Context) (w v : Walk), Listing.next ctx w = .error e v →
      (w.scene.Warns v.scene ↔ ∃ expected actual, e = .pathMismatch expected actual) := by
  obtain ⟨path, hpath⟩ := StoreError.exists_accused_of_isIntegrity he
  constructor
  · intro l s t hfails
    have hevents : t.ambient.events = l.told e ++ s.ambient.events := by
      rcases Lookup.cases_of_fails hfails with (hnone | ⟨session, -, hreports⟩) |
        ⟨ctx, stem, session, rfl, -, ⟨key, value, cause, -, -, -, rfl⟩, hsame⟩
      · rw [hpath] at hnone
        exact absurd hnone (by simp)
      · exact hreports.events
      · exact hsame
    rw [Scene.warns_iff hevents, Lookup.exists_warning_told he]
  · intro ctx w v hfails
    rcases (Listing.fairSpec_next ctx w).fails e v hfails with hnone | ⟨-, -, hevents⟩
    · rw [hpath] at hnone
      exact absurd hnone (by simp)
    · rw [Scene.warns_iff hevents, e.exists_warning_misplacements]

/-- An emptied record is warned of where it is read by its path, and not by the listing that
comes upon it. -/
theorem warnings_of_emptied :
    (∃ t, Lookup.Fails (.get .background "a") (.ofEmptied "/a")
        (.decryption "/a" (.ciphertextTooShort 24 0)) t ∧ (Scene.ofEmptied "/a").Warns t) ∧
    ∃ v, Listing.next .background
        ⟨⟨1, "/", 0, 0, false, 10, none, [], false, 0, false⟩, .ofEmptied "/a"⟩ =
          .error (.decryption "/a" (.ciphertextTooShort 24 0)) v ∧
      ¬ (Scene.ofEmptied "/a").Warns v.scene := by
  obtain ⟨hlookups, hsteps⟩ :=
    integrity_warnings (e := .decryption "/a" (.ciphertextTooShort 24 0)) rfl
  constructor
  · have hget : Store.get .background "a" (.ofEmptied "/a") =
        .error (.decryption "/a" (.ciphertextTooShort 24 0)) _ := Call.eq_error_of_answer rfl
    have hfails : Lookup.Fails (.get .background "a") _ _ _ := hget
    exact ⟨_, hfails, (hlookups _ _ _ hfails).2 (.inl rfl)⟩
  · have hnext : Listing.next .background
        ⟨⟨1, "/", 0, 0, false, 10, none, [], false, 0, false⟩, .ofEmptied "/a"⟩ =
          .error (.decryption "/a" (.ciphertextTooShort 24 0)) _ := Call.eq_error_of_answer rfl
    refine ⟨_, hnext, fun hwarns => ?_⟩
    obtain ⟨expected, actual, hmismatch⟩ := (hsteps _ _ _ hnext).1 hwarns
    exact absurd hmismatch (by simp)

/-- The last record of a range is emptied, and nothing is warned of. -/
theorem not_warns_of_emptied_last :
    ∃ t, Lookup.Fails (.last .background "/a") (.ofEmptied "/a")
        (.decryption "/a" (.ciphertextTooShort 24 0)) t ∧ ¬ (Scene.ofEmptied "/a").Warns t := by
  have hlast : Store.last .background "/a" (.ofEmptied "/a") =
      .error (.decryption "/a" (.ciphertextTooShort 24 0)) _ := Call.eq_error_of_answer rfl
  have hevents : (Call.after (Store.last .background "/a" (.ofEmptied "/a"))).ambient.events =
      [] ++ (Scene.ofEmptied "/a").ambient.events := rfl
  exact ⟨_, hlast, mt (Scene.warns_iff hevents).1 (by simp)⟩

end Strongbox
