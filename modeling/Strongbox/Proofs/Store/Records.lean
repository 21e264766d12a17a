import Strongbox.Proofs.Record
import Strongbox.Proofs.Store.Effects

/-!
# Reading and writing records

What a store reads at a path is a function of the engine's contents alone, and what it
writes is read again.  A call that only reads, or that fails, leaves the store and the
contents of the engine as they were.
-/

set_option autoImplicit false

namespace Strongbox

/-- The record at a path, as far as the engine answers. -/
def Engine.record? (a : Aead) (path : String) (e : Engine) : Except StoreError (Option Record) :=
  match e.plaintext? a path with
  | .error cause => .error (.ofBarrier path (.crypto cause))
  | .ok none => .ok none
  | .ok (some plaintext) => (Record.ofBytes path plaintext).map some

/-- The record at a path depends on the engine's value there alone. -/
theorem Engine.record?_congr {a : Aead} {path : String} {e f : Engine}
    (h : e.value? path = f.value? path) : e.record? a path = f.record? a path := by
  unfold record?
  rw [plaintext?_congr h]

/-- A result that maps to a success with a value has that value. -/
theorem exists_of_map_some {ε α : Type} {x : Except ε α} {y : Option α}
    (h : x.map some = .ok y) : ∃ v, y = some v ∧ x = .ok v := by
  cases x with
  | error e => exact absurd h (by simp [Except.map])
  | ok v =>
    injection h with h
    exact ⟨v, h.symm, rfl⟩

/-- A value that decrypts to a record's bytes is that record. -/
theorem Engine.record?_of_decrypt {a : Aead} {path : String} {e : Engine} {c p : Bytes}
    {r : Record} (hvalue : e.value? path = some c) (hdecrypt : Stream.decrypt a c = .ok p)
    (hbytes : Record.ofBytes path p = .ok r) : e.record? a path = .ok (some r) := by
  unfold record? plaintext?
  rw [hvalue]
  dsimp only
  rw [hdecrypt]
  show (Record.ofBytes path p).map some = _
  rw [hbytes]
  rfl

/-- What is read at a path is the decrypted value that the engine holds there. -/
theorem Engine.cases_of_record? {a : Aead} {path : String} {e : Engine} {x : Option Record}
    (h : e.record? a path = .ok x) :
    (x = none ∧ e.value? path = none) ∨
      ∃ c p r, x = some r ∧ e.value? path = some c ∧ Stream.decrypt a c = .ok p ∧
        Record.ofBytes path p = .ok r := by
  unfold record? plaintext? at h
  cases hvalue : e.value? path with
  | none =>
    rw [hvalue] at h
    injection h with h
    exact .inl ⟨h.symm, rfl⟩
  | some c =>
    rw [hvalue] at h
    dsimp only at h
    cases hdecrypt : Stream.decrypt a c with
    | error cause =>
      rw [hdecrypt] at h
      exact absurd h (by simp [Except.map])
    | ok p =>
      rw [hdecrypt] at h
      obtain ⟨r, hx, hbytes⟩ := exists_of_map_some h
      exact .inr ⟨c, p, r, hx, rfl, hdecrypt, hbytes⟩

/-- A record that is read names the path at which it is read. -/
theorem Engine.path_of_record? {a : Aead} {e : Engine} {path : String} {r : Record}
    (h : e.record? a path = .ok (some r)) : r.path = path := by
  rcases cases_of_record? h with ⟨hnone, -⟩ | ⟨c, p, s, hsome, -, -, hbytes⟩
  · simp at hnone
  · obtain rfl : r = s := by simpa using hsome
    exact (Record.ofBytes_eq_ok hbytes).2

namespace StoreCall

open Call (Respects)

/-! ## Calls in front -/

/-- A boundary that is passed is counted. -/
theorem boundary_eq_ok {ctx : Context} {s t : Scene} (h : boundary ctx s = .ok () t) :
    t = { s with ambient := { s.ambient with boundaries := s.ambient.boundaries + 1 } } := by
  unfold boundary at h
  dsimp only at h
  split at h
  · injection h with _ h
    exact h.symm
  · exact absurd h (by simp)

/-- A boundary stops a call as the context says. -/
theorem boundary_eq_error {ctx : Context} {s t : Scene} {e : StoreError}
    (h : boundary ctx s = .error e t) :
    ∃ i, ctx.verdict s.ambient.boundaries = some i ∧ e = .ofInterruption i := by
  unfold boundary at h
  dsimp only at h
  split at h
  · exact absurd h (by simp)
  · rename_i i hi
    injection h with h
    exact ⟨i, hi, h.symm⟩

/-- A failure is reported as it is. -/
theorem exists_fail_eq {α : Type} (e : StoreError) (s : Scene) :
    ∃ t, s.Keeps t ∧ (fail e : StoreCall α) s = .error e t := by
  cases e with
  | pathMismatch expected actual =>
    exact ⟨s.tell (.misplaced actual expected), ⟨rfl, rfl, rfl⟩, rfl⟩
  | _ => exact ⟨s, Scene.Keeps.refl s, rfl⟩

/-- A chain that begins with a call that keeps everything fails there and has changed
nothing, or it goes on behind that call. -/
theorem fails_or_ok {α β : Type} {x : StoreCall α} (hx : Respects Scene.Keeps x)
    (f : α → StoreCall β) (s : Scene) :
    (∃ e t, s.Keeps t ∧ (x >>= f) s = .error e t) ∨
      ∃ y t, s.Keeps t ∧ x s = .ok y t ∧ (x >>= f) s = f y t := by
  cases hrun : x s with
  | error e t => exact .inl ⟨e, t, hx.error hrun, Call.bind_error hrun⟩
  | ok y t => exact .inr ⟨y, t, hx.ok hrun, rfl, Call.bind_ok hrun⟩

/-- An open store gives its session. -/
theorem openSession_of_isOpen {s : Scene} {session : Session}
    (h : s.store.session = some session) : openSession s = .ok session s := by
  unfold openSession
  rw [h]

/-- The session that is given is the store's, and nothing changes. -/
theorem openSession_eq_ok {s t : Scene} {session : Session} (h : openSession s = .ok session t) :
    s.store.session = some session ∧ t = s := by
  unfold openSession at h
  cases hsession : s.store.session with
  | none =>
    rw [hsession] at h
    exact absurd h (by simp)
  | some session' =>
    rw [hsession] at h
    injection h with hsame hscene
    exact ⟨by rw [hsame], hscene.symm⟩

/-- The time that is given is a reading of the clock. -/
theorem now_eq_ok {s t : Scene} {time : Time.Instant} (h : now s = .ok time t) :
    ∃ i, s.ambient.clock.readings i = time := by
  injection h with h
  exact ⟨_, h⟩

/-- The root is not writable. -/
theorem writable_of_isRoot {raw : String} (h : Path.isRoot raw = true) (s : Scene) :
    writable raw s = .error (.invalidPath (Path.normalize raw) rootReason) s := by
  unfold writable
  rw [if_pos h]
  rfl

/-- Every path but the root is writable. -/
theorem writable_of_not_isRoot {raw : String} (h : ¬ Path.isRoot raw = true) (s : Scene) :
    writable raw s = .ok (Path.normalize raw) s := by
  unfold writable
  rw [if_neg h]
  rfl

/-- A path that is writable is not the root, and it is normalized. -/
theorem writable_eq_ok {raw path : String} {s t : Scene} (h : writable raw s = .ok path t) :
    Path.isRoot raw = false ∧ path = Path.normalize raw ∧ t = s := by
  unfold writable at h
  split at h
  · exact absurd h Call.throw_ne_ok
  · rename_i hroot
    injection h with hpath hscene
    exact ⟨Bool.eq_false_iff.2 hroot, hpath.symm, hscene.symm⟩

/-- What begins at a boundary and needs an open store goes on in its session. -/
theorem exists_of_opened {α : Type} {ctx : Context} {f : Session → StoreCall α} {s t : Scene}
    {x : α} (h : (boundary ctx >>= fun _ => openSession >>= f) s = .ok x t) :
    ∃ session u, s.store.session = some session ∧ s.Keeps u ∧ f session u = .ok x t := by
  obtain ⟨_, u, hboundary, hopened⟩ := Call.exists_of_bind_ok h
  obtain ⟨session, v, hopen, hrest⟩ := Call.exists_of_bind_ok hopened
  have hu := (leads_boundary ctx).keeps.ok hboundary
  obtain ⟨hsession, hsame⟩ := openSession_eq_ok hopen
  subst hsame
  rw [hu.store] at hsession
  exact ⟨session, v, hsession, hu, hrest⟩

/-- What is to write at a path and needs an open store fails and has changed nothing, or it
goes on in the session with the normalized path. -/
theorem fails_or_writable {α : Type} (ctx : Context) (raw : String)
    (f : String → Session → StoreCall α) (s : Scene) :
    (∃ e t, s.Keeps t ∧
      (boundary ctx >>= fun _ => writable raw >>= fun path => openSession >>= f path) s =
        .error e t) ∨
    ∃ session u, s.store.session = some session ∧ s.Keeps u ∧
      (boundary ctx >>= fun _ => writable raw >>= fun path => openSession >>= f path) s =
        f (Path.normalize raw) session u := by
  rcases fails_or_ok (leads_boundary ctx).keeps _ s with hfails | ⟨_, t, ht, -, hrun⟩
  · exact .inl hfails
  rw [hrun]
  rcases fails_or_ok (leads_writable raw).keeps _ t with
    ⟨e, u, hu, herror⟩ | ⟨path, u, hu, hpath, hrun⟩
  · exact .inl ⟨e, u, Scene.Keeps.trans _ _ _ ht hu, herror⟩
  rw [hrun]
  obtain ⟨-, rfl, hsame⟩ := writable_eq_ok hpath
  subst hsame
  rcases fails_or_ok leads_openSession.keeps _ u with
    ⟨e, v, hv, herror⟩ | ⟨session, v, hv, hopen, hrun⟩
  · exact .inl ⟨e, v, Scene.Keeps.trans _ _ _ ht hv, herror⟩
  rw [hrun]
  obtain ⟨hsession, hsame⟩ := openSession_eq_ok hopen
  subst hsame
  rw [ht.store] at hsession
  exact .inr ⟨session, v, hsession, ht, rfl⟩

/-- What is to write and succeeds has passed its boundary, on a path that is not the root. -/
theorem exists_of_writable {α : Type} {ctx : Context} {raw : String}
    {f : String → Session → StoreCall α} {s t : Scene} {x : α}
    (h : (boundary ctx >>= fun _ => writable raw >>= fun path => openSession >>= f path) s =
      .ok x t) :
    ∃ session u, Path.isRoot raw = false ∧ s.store.session = some session ∧
      boundary ctx s = .ok () u ∧ f (Path.normalize raw) session u = .ok x t := by
  obtain ⟨_, u, hboundary, h⟩ := Call.exists_of_bind_ok h
  obtain ⟨path, v, hwritable, h⟩ := Call.exists_of_bind_ok h
  obtain ⟨session, w, hopen, hrest⟩ := Call.exists_of_bind_ok h
  obtain ⟨hroot, hpath, hv⟩ := writable_eq_ok hwritable
  obtain ⟨hsession, hw⟩ := openSession_eq_ok hopen
  rw [hw, hv, hpath] at hrest
  rw [hv, ((leads_boundary ctx).keeps.ok hboundary).store] at hsession
  exact ⟨session, u, hroot, hsession, hboundary, hrest⟩

/-- In an open store, what is to write at a path below the root goes on in the session, unless it
is stopped at its boundary. -/
theorem opening_of_verdict {α : Type} {ctx : Context} {session : Session} {raw : String}
    {f : String → Session → StoreCall α} {s : Scene}
    (hctx : ctx.verdict s.ambient.boundaries = none) (hopen : s.store.session = some session)
    (hroot : Path.isRoot raw = false) :
    (boundary ctx >>= fun _ => writable raw >>= fun path => openSession >>= f path) s =
      f (Path.normalize raw) session
        { s with ambient := { s.ambient with boundaries := s.ambient.boundaries + 1 } } := by
  let u : Scene := { s with ambient := { s.ambient with boundaries := s.ambient.boundaries + 1 } }
  have hboundary : boundary ctx s = .ok () u := by
    unfold boundary
    rw [hctx]
  have hpath : writable raw u = .ok (Path.normalize raw) u :=
    writable_of_not_isRoot (Bool.eq_false_iff.1 hroot) u
  have hsession : openSession u = .ok session u := openSession_of_isOpen hopen
  rw [Call.bind_ok hboundary, Call.bind_ok hpath, Call.bind_ok hsession]

/-- What is to write in an open store goes on with the normalized path and the session. -/
theorem opening_of_isOpen {α : Type} {session : Session} {raw : String}
    {f : String → Session → StoreCall α} {s : Scene} (hopen : s.store.session = some session)
    (hroot : Path.isRoot raw = false) :
    (boundary .background >>= fun _ => writable raw >>= fun path => openSession >>= f path) s =
      f (Path.normalize raw) session
        { s with ambient := { s.ambient with boundaries := s.ambient.boundaries + 1 } } :=
  opening_of_verdict rfl hopen hroot

/-! ## Reading a record -/

/-- A barrier call that succeeds changes the scene's ambient only. -/
theorem onBarrier_ok {α : Type} {path : String} {call : BarrierCall α} {s : Scene} {x : α}
    {ambient : Ambient} (h : call s.ambient = .ok x ambient) :
    onBarrier path call s = .ok x { s with ambient } := by
  unfold onBarrier
  rw [h]

/-- A barrier call that fails is reported under its path. -/
theorem onBarrier_error {α : Type} {path : String} {call : BarrierCall α} {s : Scene}
    {e : BarrierError} {ambient : Ambient} (h : call s.ambient = .error e ambient) :
    onBarrier path call s = .error (.ofBarrier path e) { s with ambient } := by
  unfold onBarrier
  rw [h]

/-- So is a call that succeeds while a record is read. -/
theorem onRecord_ok {α : Type} {path : String} {call : BarrierCall α} {s : Scene} {x : α}
    {ambient : Ambient} (h : call s.ambient = .ok x ambient) :
    onRecord path call s = .ok x { s with ambient } := by
  unfold onRecord
  rw [onBarrier_ok h]

/-- A record whose bytes are sound is decoded. -/
theorem decode_ok {path : String} {plaintext : Bytes} {r : Record}
    (h : Record.ofBytes path plaintext = .ok r) (s : Scene) :
    decode path plaintext s = .ok r s := by
  unfold decode
  rw [h]
  rfl

/-- What is decoded is the record of the bytes. -/
theorem decode_eq_ok {path : String} {plaintext : Bytes} {r : Record} {s t : Scene}
    (h : decode path plaintext s = .ok r t) : Record.ofBytes path plaintext = .ok r := by
  unfold decode at h
  cases hbytes : Record.ofBytes path plaintext with
  | ok r' =>
    rw [hbytes] at h
    injection h with h
    rw [h]
  | error e =>
    obtain ⟨u, -, hfail⟩ := exists_fail_eq (α := Record) e s
    rw [hbytes] at h
    dsimp only at h
    rw [hfail] at h
    exact absurd h (by simp)

/-- A record that is read is the one that the contents hold. -/
theorem record?_of_readRecord {a : Aead} {path : String} {s t : Scene} {x : Option Record}
    (h : readRecord a path s = .ok x t) : s.ambient.engine.record? a path = .ok x := by
  unfold readRecord at h
  obtain ⟨plaintext, u, hget, hrest⟩ := Call.exists_of_bind_ok h
  obtain ⟨e, -, ⟨y, hy, hcall⟩ | ⟨error, hcall⟩⟩ := Barrier.get_cases a path s.ambient
  · rw [onRecord_ok hcall] at hget
    injection hget with hget
    subst hget
    unfold Engine.record?
    rw [hy]
    cases y with
    | none =>
      injection hrest with hrest
      rw [← hrest]
    | some plaintext =>
      obtain ⟨r, v, hdecode, hpure⟩ := Call.exists_of_bind_ok hrest
      injection hpure with hpure
      subst hpure
      show (Record.ofBytes path plaintext).map some = _
      rw [decode_eq_ok hdecode]
      rfl
  · unfold onRecord at hget
    rw [onBarrier_error hcall] at hget
    exact absurd hget (by simp)

/-- On a healthy engine a record is read as the contents hold it. -/
theorem readRecord_of_isHealthy {a : Aead} {path : String} {s : Scene} {x : Option Record}
    (hs : s.ambient.engine.IsHealthy) (h : s.ambient.engine.record? a path = .ok x) :
    readRecord a path s = .ok x s := by
  have hget := Barrier.get_of_answer (a := a) (hs.get path)
  unfold Engine.record? at h
  unfold readRecord
  cases hplain : s.ambient.engine.plaintext? a path with
  | error cause =>
    rw [hplain] at h
    exact absurd h (by simp)
  | ok y =>
    rw [hplain] at h hget
    rw [Call.bind_ok (onRecord_ok hget)]
    cases y with
    | none =>
      injection h with h
      rw [← h]
      rfl
    | some plaintext =>
      dsimp only at h ⊢
      cases hbytes : Record.ofBytes path plaintext with
      | error e =>
        rw [hbytes] at h
        exact absurd h (by simp [Except.map])
      | ok r =>
        rw [hbytes] at h
        injection h with h
        rw [Call.bind_ok (decode_ok hbytes _), ← h]
        rfl

/-! ## Writing a record -/

/-- A record is written as its ciphertext, which is decrypted to its bytes, or the writing
fails and changes neither the store nor the contents. -/
theorem writeRecord_cases {a : Aead} (ha : a.Lawful) (r : Record) (s : Scene) :
    (∃ c t, (Stream.encrypt a r.toBytes s.ambient.entropy).1 = .ok c ∧
      Stream.decrypt a c = .ok r.toBytes ∧ t.store = s.store ∧
      t.ambient.engine.contents = s.ambient.engine.contents.put r.path c ∧
      t.ambient.clock = s.ambient.clock ∧ writeRecord a r s = .ok () t) ∨
    ∃ error t, s.Keeps t ∧ writeRecord a r s = .error error t := by
  obtain ⟨e, ⟨c, hencrypt, hdecrypt, hcontents, hput⟩ | ⟨error, hcontents, hput⟩⟩ :=
    Barrier.put_cases ha r.path r.toBytes s.ambient
  · exact .inl ⟨c, { s with ambient := { s.ambient with
      engine := e, entropy := (s.ambient.entropy.draw Stream.drawLength).2 } },
      hencrypt, hdecrypt, rfl, hcontents, rfl, onBarrier_ok hput⟩
  · exact .inr ⟨.ofBarrier r.path error, { s with ambient := { s.ambient with
      engine := e, entropy := (s.ambient.entropy.draw Stream.drawLength).2 } },
      ⟨rfl, hcontents, rfl⟩, onBarrier_error hput⟩

/-- On a healthy engine only a record that is too long fails to be written. -/
theorem writeRecord_of_isHealthy {a : Aead} (ha : a.Lawful) {s : Scene}
    (hs : s.ambient.engine.IsHealthy) (r : Record) :
    (Stream.Fits r.toBytes ∧ ∃ c, Stream.decrypt a c = .ok r.toBytes ∧
      writeRecord a r s = .ok ()
        { s with ambient := { s.ambient with
          engine := { s.ambient.engine with
            contents := s.ambient.engine.contents.put r.path c }
          entropy := (s.ambient.entropy.draw Stream.drawLength).2 } }) ∨
    (¬ Stream.Fits r.toBytes ∧
      writeRecord a r s = .error (.encryption r.path (.encryption Stream.refusal))
        { s with ambient := { s.ambient with
          entropy := (s.ambient.entropy.draw Stream.drawLength).2 } }) := by
  rcases Barrier.put_of_isHealthy ha hs r.path r.toBytes with
    ⟨hfits, c, hdecrypt, hput⟩ | ⟨hfits, hput⟩
  · exact .inl ⟨hfits, c, hdecrypt, onBarrier_ok hput⟩
  · exact .inr ⟨hfits, onBarrier_error hput⟩

end StoreCall

end Strongbox
