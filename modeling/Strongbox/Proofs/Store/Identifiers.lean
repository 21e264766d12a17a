import Strongbox.Store.Identifiers
import Strongbox.Store.Session
import Strongbox.Proofs.Cipher.Galois
import Strongbox.Proofs.Counter
import Strongbox.Proofs.Fleet
import Strongbox.Proofs.Ledger
import Strongbox.Proofs.Store.Records

/-!
# Identifiers are never reused

Whatever happens to a fleet whose stores draw identifiers of one counter, it is a step of
the counter's ledger.  The invariants of the ledger then say that no identifier is returned
twice, and that they ascend while at most one store is open.  The top statement is
`Fleet.nodup_identifiers`.
-/

set_option autoImplicit false

namespace Strongbox

/-! ## The stored start of the next batch -/

/-- The start of the next batch that a stored record holds; the first batch starts at zero. -/
def Counter.startOf? : Option Record → Option Nat
  | none => some 0
  | some r => stored? r.fields

/-- The start of the next batch of the counter at a path, as far as it can be read. -/
def Engine.counterStart? (a : Aead) (path : String) (e : Engine) : Option Nat :=
  match e.record? a path with
  | .error _ => none
  | .ok r => Counter.startOf? r

namespace Engine

/-- A counter starts at a number if its record is read and holds that number, or there is none. -/
theorem counterStart?_eq_some_iff {a : Aead} {path : String} {e : Engine} {n : Nat} :
    e.counterStart? a path = some n ↔
      ∃ x, e.record? a path = .ok x ∧ Counter.startOf? x = some n := by
  unfold counterStart?
  cases e.record? a path with
  | error error => simp
  | ok x => simp

/-- Where a counter starts depends on the value of its path only. -/
theorem counterStart?_congr {a : Aead} {path : String} {e f : Engine}
    (h : e.value? path = f.value? path) : e.counterStart? a path = f.counterStart? a path := by
  unfold counterStart?
  rw [record?_congr h]

/-- Where a counter was stored, no other start than the stored one is read. -/
theorem eq_of_counterStart? {a : Aead} {path : String} {e : Engine} {c : Bytes} {r : Record}
    {next n : Nat} (hvalue : e.value? path = some c) (hdecrypt : Stream.decrypt a c = .ok r.toBytes)
    (hfields : r.fields = Counter.fieldsFor next) (hnext : next < Cursor.wordLimit)
    (h : e.counterStart? a path = some n) : n = next := by
  have hreadsBack : r.fields.ReadsBack := by
    rw [hfields]
    exact Counter.readsBack_fieldsFor hnext
  obtain ⟨x, hrecord, hstart⟩ := counterStart?_eq_some_iff.1 h
  rcases cases_of_record? hrecord with ⟨-, hnone⟩ | ⟨c', p, r', rfl, hvalue', hplain, hbytes⟩
  · rw [hvalue] at hnone
    exact absurd hnone (by simp)
  · rw [hvalue] at hvalue'
    injection hvalue' with hsame
    rw [← hsame, hdecrypt] at hplain
    injection hplain with hplain
    rw [← hplain] at hbytes
    have hread := (Record.eq_of_parse_toBytes hreadsBack (Record.ofBytes_eq_ok hbytes).1).2
    have hstored : Counter.stored? r'.fields = some n := hstart
    rw [hread, hfields, Counter.stored?_fieldsFor hnext] at hstored
    injection hstored with hstored
    exact hstored.symm

end Engine

/-! ## Increments -/

/-- A batch is reserved: the start of the next one is stored, under the time of creation of what
was stored before, if anything was, and nothing else changes. -/
structure Reserves (a : Aead) (path : String) (start : Nat) (s t : Scene) : Prop where
  store : t.store = s.store
  stored : s.ambient.engine.counterStart? a path = some start
  isWord : start + 1000 < Cursor.wordLimit
  written : ∃ c createdAt updatedAt, t.ambient.engine.value? path = some c ∧
    Stream.decrypt a c =
      .ok (Record.toBytes ⟨path, Counter.fieldsFor (start + 1000), createdAt, updatedAt⟩) ∧
    (∃ i, s.ambient.clock.readings i = updatedAt) ∧
    ∀ x, s.ambient.engine.record? a path = .ok x → createdAt = x.elim updatedAt Record.createdAt
  others : ∀ other, other ≠ path → t.ambient.engine.value? other = s.ambient.engine.value? other

/-- No other start of the next batch is read than the one that follows. -/
theorem Reserves.next {a : Aead} {path : String} {start : Nat} {s t : Scene}
    (h : Reserves a path start s t) {n : Nat}
    (hn : t.ambient.engine.counterStart? a path = some n) : n = start + 1000 := by
  obtain ⟨c, _, _, hvalue, hdecrypt, -, -⟩ := h.written
  exact Engine.eq_of_counterStart? hvalue hdecrypt rfl h.isWord hn

/-- What keeps the contents keeps every value. -/
theorem Scene.Keeps.value?_eq {s t : Scene} (h : s.Keeps t) (path : String) :
    t.ambient.engine.value? path = s.ambient.engine.value? path := by
  unfold Engine.value?
  rw [h.contents]

/-- A batch that is reserved behind a call that only reads is reserved from before it. -/
theorem Reserves.of_keeps {a : Aead} {path : String} {start : Nat} {s t u : Scene}
    (h : Reserves a path start t u) (hkeeps : s.Keeps t) : Reserves a path start s u := by
  have hrecord := Engine.record?_congr (a := a) (hkeeps.value?_eq path)
  refine ⟨h.store.trans hkeeps.store, ?_, h.isWord, ?_, ?_⟩
  · rw [← Engine.counterStart?_congr (hkeeps.value?_eq path)]
    exact h.stored
  · rw [← hkeeps.readings, ← hrecord]
    exact h.written
  · intro other hne
    rw [h.others other hne, hkeeps.value?_eq other]

namespace Store

open StoreCall

/-- A batch starts where the stored record says. -/
theorem batchStart_eq_ok {path : String} {x : Option Record} {start : Nat} {s t : Scene}
    (h : batchStart path x s = .ok start t) : Counter.startOf? x = some start := by
  cases x with
  | none =>
    injection h with h
    rw [← h]
    rfl
  | some r =>
    show Counter.stored? r.fields = some start
    unfold batchStart at h
    dsimp only at h
    cases hstored : Counter.stored? r.fields with
    | none =>
      rw [hstored] at h
      exact absurd h Call.throw_ne_ok
    | some n =>
      rw [hstored] at h
      injection h with h
      rw [h]

/-- A reservation that fails changes nothing, since its last call is the writing. -/
theorem reserve_cases {a : Aead} (ha : a.Lawful) (path : String) (s : Scene) :
    (∃ e t, s.Keeps t ∧ reserve a path s = .error e t) ∨
      ∃ start t, Reserves a path start s t ∧ reserve a path s = .ok ⟨start, start + 999⟩ t := by
  -- All calls up to the writing only read, so that a failure of one changes nothing.
  unfold reserve
  rcases fails_or_ok (leads_readRecord a path).keeps _ s with hfails | ⟨x, t, ht, hread, hrun⟩
  · exact .inl hfails
  rw [hrun]
  have hrecord := record?_of_readRecord hread
  rcases fails_or_ok (leads_batchStart path x).keeps _ t with
    ⟨e, u, hu, herror⟩ | ⟨start, u, hu, hbatch, hrun⟩
  · exact .inl ⟨e, u, Scene.Keeps.trans _ _ _ ht hu, herror⟩
  rw [hrun]
  have hstart := batchStart_eq_ok hbatch
  have hu := Scene.Keeps.trans _ _ _ ht hu
  cases hreserve : Cursor.reserve start with
  | none => exact .inl ⟨_, u, hu, rfl⟩
  | some batch =>
    obtain ⟨cursor, next⟩ := batch
    obtain ⟨hlimit, rfl, rfl⟩ := Cursor.reserve_eq_some hreserve
    dsimp only
    rcases fails_or_ok (leads_now).keeps _ u with ⟨e, v, hv, herror⟩ | ⟨time, v, hv, hnow, hrun⟩
    · exact .inl ⟨e, v, Scene.Keeps.trans _ _ _ hu hv, herror⟩
    rw [hrun]
    have hv := Scene.Keeps.trans _ _ _ hu hv
    rcases writeRecord_cases ha ⟨path, Counter.fieldsFor (start + 1000), _, _⟩ v with
      ⟨c, w, -, hdecrypt, hstore, hcontents, -, hwrite⟩ | ⟨e, w, hw, hwrite⟩
    · rw [Call.bind_ok hwrite]
      have hvalue : ∀ other, w.ambient.engine.value? other =
          (v.ambient.engine.contents.put path c).value? other := by
        intro other
        unfold Engine.value?
        rw [hcontents]
      refine .inr ⟨start, w.tell (.reserved (start + 1000) path),
        ⟨hstore.trans hv.store, ?_, hlimit, ?_, ?_⟩, rfl⟩
      · exact Engine.counterStart?_eq_some_iff.2 ⟨x, hrecord, hstart⟩
      · refine ⟨c, _, _, (hvalue path).trans (Contents.value?_put_self _ _ _), hdecrypt, ?_, ?_⟩
        · obtain ⟨i, hi⟩ := now_eq_ok hnow
          exact ⟨i, by rw [← hu.readings, hi]⟩
        · intro y hy
          obtain rfl := Except.ok.inj (hrecord.symm.trans hy)
          cases x <;> rfl
      · intro other hne
        show w.ambient.engine.value? other = _
        rw [hvalue other, Contents.value?_put_of_ne _ _ hne]
        exact hv.value?_eq other
    · rw [Call.bind_error hwrite]
      exact .inl ⟨e, w, Scene.Keeps.trans _ _ _ hv hw, rfl⟩

/-- A cursor is at hand: that of the session or, where it has none or a spent one, the cursor of a
reserved batch. -/
inductive Provides (a : Aead) (path : String) (session : Session) (s : Scene) :
    Cursor → Scene → Prop
  | kept {c : Cursor} {t : Scene} (hc : session.cursors.find? path = some c) (h : s.Keeps t) :
    Provides a path session s c t
  | reserved {start : Nat} {t : Scene}
      (hspent : ∀ c, session.cursors.find? path = some c → c.isSpent = true)
      (h : Reserves a path start s t) : Provides a path session s ⟨start, start + 999⟩ t

/-- Providing a cursor leaves the store. -/
theorem Provides.store {a : Aead} {path : String} {session : Session} {s t : Scene} {c : Cursor}
    (h : Provides a path session s c t) : t.store = s.store := by
  cases h with
  | kept hc h => exact h.store
  | reserved hspent h => exact h.store

/-- A cursor that is provided behind a call that only reads is provided from before it. -/
theorem Provides.of_keeps {a : Aead} {path : String} {session : Session} {s t u : Scene}
    {c : Cursor} (h : Provides a path session t c u) (hkeeps : s.Keeps t) :
    Provides a path session s c u := by
  cases h with
  | kept hc h => exact .kept hc (Scene.Keeps.trans _ _ _ hkeeps h)
  | reserved hspent h => exact .reserved hspent (h.of_keeps hkeeps)

/-- A cursor with numbers left is provided, or nothing happens. -/
theorem cursorFor_cases {session : Session} (ha : session.cipher.Lawful) (path : String)
    (s : Scene) :
    (∃ e t, s.Keeps t ∧ cursorFor session path s = .error e t) ∨
      ∃ c t, Provides session.cipher path session s c t ∧ c.isSpent = false ∧
        cursorFor session path s = .ok c t := by
  have hreserve : (∀ c, session.cursors.find? path = some c → c.isSpent = true) →
      (∃ e t, s.Keeps t ∧ reserve session.cipher path s = .error e t) ∨
      ∃ c t, Provides session.cipher path session s c t ∧ c.isSpent = false ∧
        reserve session.cipher path s = .ok c t := by
    intro hspent
    rcases reserve_cases ha path s with herror | ⟨start, t, hreserves, hrun⟩
    · exact .inl herror
    · refine .inr ⟨_, t, .reserved hspent hreserves, ?_, hrun⟩
      exact Cursor.isSpent_eq_false_iff.2 (by dsimp only; omega)
  unfold cursorFor
  cases hc : session.cursors.find? path with
  | none =>
    apply hreserve
    simp [hc]
  | some c =>
    dsimp only
    cases hspent : c.isSpent with
    | true =>
      rw [if_pos rfl]
      apply hreserve
      simp [hc, hspent]
    | false =>
      rw [if_neg Bool.false_ne_true]
      exact .inr ⟨c, s, .kept hc (Scene.Keeps.refl s), hspent, rfl⟩

/-- The session after a number was drawn from a cursor. -/
def advanced (path : String) (session : Session) (c : Cursor) : Session :=
  { session with cursors := session.cursors.insert path ⟨c.current + 1, c.ceiling⟩ }

/-- What an increment answers that drew the number `n`. -/
def issue (path : String) (n : Nat) : Except StoreError String :=
  match Counter.formatId n with
  | some text => .ok text
  | none => .error (.incrementExhausted path)

/-- A number that is issued is issued as its identifier. -/
theorem toOption_issue (path : String) (n : Nat) :
    (issue path n).toOption = Counter.formatId n := by
  unfold issue
  cases Counter.formatId n <;> rfl

/-- The rest of an increment, once a cursor is at hand. -/
def draw (path : String) (cursor : Cursor) : StoreCall String :=
  match cursor.advance with
  | none => throw (.incrementExhausted path)
  | some (id, cursor) => do
    keepCursor path cursor
    match Counter.formatId id with
    | some text => pure text
    | none => throw (.incrementExhausted path)

/-- An increment passes its boundary, provides a cursor and draws from it. -/
theorem increment_eq (ctx : Context) (raw : String) :
    increment ctx raw = boundary ctx >>= fun _ => writable raw >>= fun path =>
      openSession >>= fun s => cursorFor s path >>= draw path := rfl

/-- From a cursor that is not spent the next number is drawn. -/
theorem draw_of_lt (path : String) {session : Session} {c : Cursor} {s : Scene}
    (hsession : s.store.session = some session) (hlive : c.current < c.ceiling) :
    Call.after (draw path c s) =
        ⟨{ s.store with session := some (advanced path session c) }, s.ambient⟩ ∧
      Call.answer (draw path c s) = issue path (c.current + 1) := by
  have hadvance : c.advance = some (c.current + 1, ⟨c.current + 1, c.ceiling⟩) := by
    unfold Cursor.advance
    rw [Cursor.isSpent_eq_false_iff.2 hlive, if_neg Bool.false_ne_true]
  have hkeep : keepCursor path ⟨c.current + 1, c.ceiling⟩ s = .ok ()
      ⟨{ s.store with session := some (advanced path session c) }, s.ambient⟩ := by
    unfold keepCursor
    rw [hsession]
    rfl
  unfold draw issue
  rw [hadvance]
  dsimp only
  rw [Call.bind_ok hkeep]
  cases Counter.formatId (c.current + 1) with
  | none => exact ⟨rfl, rfl⟩
  | some text => exact ⟨rfl, rfl⟩

/-- An increment fails and changes nothing, or it draws the next number of a cursor and
returns its identifier, unless the number is too large. -/
theorem increment_cases {a : Aead} (ha : a.Lawful) (ctx : Context) (raw : String) {s : Scene}
    (hcipher : ∀ session, s.store.session = some session → session.cipher = a) :
    (∃ e t, s.Keeps t ∧ increment ctx raw s = .error e t) ∨
      ∃ session c t, s.store.session = some session ∧
        Provides a (Path.normalize raw) session s c t ∧ c.current < c.ceiling ∧
        Call.after (increment ctx raw s) =
          ⟨{ s.store with session := some (advanced (Path.normalize raw) session c) },
            t.ambient⟩ ∧
        Call.answer (increment ctx raw s) = issue (Path.normalize raw) (c.current + 1) := by
  rw [increment_eq]
  rcases fails_or_writable ctx raw _ s with hfails | ⟨session, v, hsession, hkeeps, hrun⟩
  · exact .inl hfails
  rw [hrun]
  have hsame := hcipher session hsession
  subst hsame
  rcases cursorFor_cases ha (Path.normalize raw) v with
    ⟨e, w, hw, herror⟩ | ⟨c, w, hprovides, hlive, hok⟩
  · exact .inl ⟨e, w, Scene.Keeps.trans _ _ _ hkeeps hw, Call.bind_error herror⟩
  have hprovides := hprovides.of_keeps hkeeps
  have hlive := Cursor.isSpent_eq_false_iff.1 hlive
  have hw : w.store.session = some session := by rw [hprovides.store, hsession]
  have hdraw := draw_of_lt (Path.normalize raw) hw hlive
  rw [hprovides.store] at hdraw
  refine .inr ⟨session, c, w, hsession, hprovides, hlive, ?_⟩
  rw [Call.bind_ok hok]
  exact hdraw

/-! ## Opening and closing -/

/-- A store that was opened has no cursors yet. -/
theorem openWith_cases (ctx : Context) (a : Aead) (s : Scene) :
    s.Keeps (Call.after (openWith ctx a s)) ∨
      (Call.after (openWith ctx a s)).ambient.engine.contents = s.ambient.engine.contents ∧
        ∃ generation, (Call.after (openWith ctx a s)).store.session =
          some ⟨generation, a, .empty⟩ := by
  unfold openWith
  rcases fails_or_ok (leads_prepare ctx).keeps _ s with ⟨e, t, ht, hrun⟩ | ⟨_, t, ht, -, hrun⟩
  · rw [hrun]
    exact .inl ht
  · rw [hrun]
    exact .inr ⟨ht.contents, _, rfl⟩

/-- A store is closed and its session is gone, or nothing happens. -/
theorem close_cases (s : Scene) :
    s.Keeps (Call.after (close s)) ∨
      (Call.after (close s)).ambient.engine.contents = s.ambient.engine.contents ∧
        (Call.after (close s)).store.session = none := by
  rcases fails_or_ok leads_openSession.keeps _ s with ⟨e, t, ht, hrun⟩ | ⟨session, t, ht, -, hrun⟩
  · have herror : close s = .error e t := hrun
    rw [herror]
    exact .inl ht
  · have hok : close s = .ok () (Scene.tell (.closed session.generation)
        { t with store := { t.store with session := none } }) := hrun
    rw [hok]
    exact .inr ⟨ht.contents, rfl⟩

end Store

/-! ## What happens to a fleet -/

namespace Fleet

/-- What happens to a fleet that counts at a path under one cipher, and the identifier that
is returned for the path thereby. -/
inductive Move (a : Aead) (path : String) : Fleet → Option String → Fleet → Prop
  | increment (f : Fleet) (i : Nat) (ctx : Context) (raw : String) :
    Move a path f
      (if Path.normalize raw = path then (f.perform i (Store.increment ctx raw)).1.toOption
        else none)
      (f.perform i (Store.increment ctx raw)).2
  | openStore (f : Fleet) (i : Nat) (ctx : Context) :
    Move a path f none (f.perform i (Store.openWith ctx a)).2
  | closeStore (f : Fleet) (i : Nat) : Move a path f none (f.perform i Store.close).2
  /-- Between two operations a store is lost, and a new one takes its place; an operation that has
  begun is never cut short. -/
  | loseStore (f : Fleet) (i : Nat) (config : Config) :
    Move a path f none (f.withScene i ⟨.new config, f.ambient⟩)
  /-- Anything else, such as calls of the engine that will fail, or writes to other paths: the
  counter's value is left alone. -/
  | disturb (f : Fleet) (ambient : Ambient)
      (h : ambient.engine.value? path = f.ambient.engine.value? path) :
    Move a path f none { f with ambient }

/-- A run from the fleet `f` all of whose moments satisfy `P`, with the identifiers that it
returned for the path. -/
inductive Run (a : Aead) (path : String) (P : Fleet → Prop) (f : Fleet) :
    List String → Fleet → Prop
  | start (h : P f) : Run a path P f [] f
  | move {ids : List String} {id : Option String} {g g' : Fleet} (hrun : Run a path P f ids g)
      (hmove : Move a path g id g') (h : P g') : Run a path P f (ids ++ id.toList) g'

/-- The ledger of the counter at a path. -/
def ledger (a : Aead) (path : String) (f : Fleet) : Ledger where
  start? := f.ambient.engine.counterStart? a path
  cursor? i := (f.stores i).session.bind fun session => session.cursors.find? path

/-- No two stores are open. -/
def AtMostOneOpen (f : Fleet) : Prop :=
  ∀ i j, (f.stores i).isOpen = true → (f.stores j).isOpen = true → i = j

section Scene

variable {a : Aead} {path : String} {f : Fleet} {i : Nat} {t : Scene}

/-- No number is drawn where the counter's value stays and a store has no other cursors
than before. -/
theorem idle_withScene
    (hvalue : t.ambient.engine.value? path = f.ambient.engine.value? path)
    (hcursor : ∀ session c, t.store.session = some session →
      session.cursors.find? path = some c → (f.ledger a path).cursor? i = some c) :
    Ledger.Step (f.ledger a path) none ((f.withScene i t).ledger a path) := by
  refine .idle (Engine.counterStart?_congr hvalue) fun j c hc => ?_
  obtain ⟨session, hopen, hfind⟩ := Option.bind_eq_some_iff.1 hc
  by_cases hsame : j = i
  · subst hsame
    rw [stores_withScene_self] at hopen
    exact hcursor session c hopen hfind
  · rw [stores_withScene_of_ne f hsame] at hopen
    exact Option.bind_eq_some_iff.2 ⟨session, hopen, hfind⟩

/-- A failed operation is no event for the counter. -/
theorem idle_of_keeps (h : (f.scene i).Keeps t) :
    Ledger.Step (f.ledger a path) none ((f.withScene i t).ledger a path) := by
  refine idle_withScene (h.value?_eq path) fun session c hsession hc => ?_
  rw [h.store] at hsession
  exact Option.bind_eq_some_iff.2 ⟨session, hsession, hc⟩

/-- What keeps a scene keeps the cipher of the fleet. -/
theorem HasCipher.of_keeps (hf : f.HasCipher a) (h : (f.scene i).Keeps t) :
    (f.withScene i t).HasCipher a := by
  refine hf.withScene fun session hsession => ?_
  rw [h.store] at hsession
  exact hf i session hsession

/-- A number is drawn from a cursor that was at hand. -/
theorem draw_withScene {session : Session} {c : Cursor} {u : Scene}
    (hsession : (f.stores i).session = some session)
    (hprovides : Store.Provides a path session (f.scene i) c u) (hlive : c.current < c.ceiling)
    (hopen : t.store.session = some (Store.advanced path session c))
    (hambient : t.ambient = u.ambient) :
    Ledger.Step (f.ledger a path) (some (c.current + 1)) ((f.withScene i t).ledger a path) := by
  have hcursor : ((f.withScene i t).ledger a path).cursor? i =
      some ⟨c.current + 1, c.ceiling⟩ := by
    unfold ledger
    dsimp only
    rw [stores_withScene_self, hopen]
    exact Table.find?_insert_self _ _ session.cursors
  have hothers : ∀ j, j ≠ i →
      ((f.withScene i t).ledger a path).cursor? j = (f.ledger a path).cursor? j := by
    intro j hne
    unfold ledger
    dsimp only
    rw [stores_withScene_of_ne f hne]
  cases hprovides with
  | kept hc hu =>
    have hvalue : t.ambient.engine.value? path = f.ambient.engine.value? path := by
      rw [hambient]
      exact hu.value?_eq path
    have hfind : (f.ledger a path).cursor? i = some c :=
      Option.bind_eq_some_iff.2 ⟨session, hsession, hc⟩
    exact .draw i hfind hlive (Engine.counterStart?_congr hvalue) hcursor hothers
  | reserved hspent hu =>
    refine .reserve i hu.stored ?_ hcursor hothers
    intro next hnext
    apply hu.next
    rw [← hambient]
    exact hnext

end Scene

section Moves

variable {a : Aead} {path : String} {f g : Fleet}

/-- An increment draws at most one number for the path. -/
theorem step_increment (ha : a.Lawful) (hf : f.HasCipher a) (i : Nat) (ctx : Context)
    (raw : String) :
    (f.perform i (Store.increment ctx raw)).2.HasCipher a ∧
      ∃ n : Option Nat,
        (if Path.normalize raw = path then (f.perform i (Store.increment ctx raw)).1.toOption
          else none) = n.bind Counter.formatId ∧
        Ledger.Step (f.ledger a path) n
          ((f.perform i (Store.increment ctx raw)).2.ledger a path) := by
  unfold perform
  dsimp only
  rcases Store.increment_cases (s := f.scene i) ha ctx raw (hf i) with
    ⟨e, t, ht, hrun⟩ | ⟨session, c, t, hsession, hprovides, hlive, hafter, hanswer⟩
  · rw [hrun]
    refine ⟨hf.of_keeps ht, none, ?_, idle_of_keeps ht⟩
    split
    · rfl
    · rfl
  · rw [hafter, hanswer]
    refine ⟨hf.withScene ?_, ?_⟩
    · intro session' hsession'
      injection hsession' with hsession'
      rw [← hsession']
      exact hf i session hsession
    · split
      · rename_i hpath
        subst hpath
        refine ⟨some (c.current + 1), Store.toOption_issue _ _, ?_⟩
        exact draw_withScene hsession hprovides hlive rfl rfl
      · rename_i hpath
        refine ⟨none, rfl, idle_withScene ?_ ?_⟩
        · cases hprovides with
          | kept hc ht => exact ht.value?_eq path
          | reserved hspent ht => exact ht.others path (Ne.symm hpath)
        · intro session' d hsession' hd
          injection hsession' with hsession'
          rw [← hsession'] at hd
          refine Option.bind_eq_some_iff.2 ⟨session, hsession, ?_⟩
          rw [← hd]
          exact (Table.find?_insert_of_ne _ session.cursors (Ne.symm hpath)).symm

/-- Every move is a step of the ledger that draws the number of the returned identifier. -/
theorem Move.step (ha : a.Lawful) (hf : f.HasCipher a) {id : Option String}
    (h : Move a path f id g) :
    g.HasCipher a ∧ ∃ n : Option Nat, id = n.bind Counter.formatId ∧
      Ledger.Step (f.ledger a path) n (g.ledger a path) := by
  cases h with
  | increment i ctx raw => exact step_increment ha hf i ctx raw
  | openStore i ctx =>
    rcases Store.openWith_cases ctx a (f.scene i) with ht | ⟨hcontents, generation, hsession⟩
    · exact ⟨hf.of_keeps ht, none, rfl, idle_of_keeps ht⟩
    · refine ⟨hf.withScene ?_, none, rfl, idle_withScene ?_ ?_⟩
      · intro session hopen
        rw [hsession] at hopen
        injection hopen with hopen
        rw [← hopen]
      · unfold Engine.value?
        rw [hcontents]
        rfl
      · intro session c hopen hc
        rw [hsession] at hopen
        injection hopen with hopen
        rw [← hopen] at hc
        exact absurd ((Table.find?_empty path).symm.trans hc) (by simp)
  | closeStore i =>
    rcases Store.close_cases (f.scene i) with ht | ⟨hcontents, hsession⟩
    · exact ⟨hf.of_keeps ht, none, rfl, idle_of_keeps ht⟩
    · refine ⟨hf.withScene ?_, none, rfl, idle_withScene ?_ ?_⟩
      · intro session hopen
        rw [hsession] at hopen
        exact absurd hopen (by simp)
      · unfold Engine.value?
        rw [hcontents]
        rfl
      · intro session c hopen
        rw [hsession] at hopen
        exact absurd hopen (by simp)
  | loseStore i config =>
    refine ⟨hf.withScene ?_, none, rfl, idle_withScene rfl ?_⟩
    · intro session hopen
      exact absurd hopen (by simp [Store.new])
    · intro session c hopen
      exact absurd hopen (by simp [Store.new])
  | disturb ambient hvalue =>
    exact ⟨hf, none, rfl, .idle (Engine.counterStart?_congr hvalue) fun i c hc => hc⟩

end Moves

/-- Where at most one store is open, at most one cursor is in use. -/
theorem AtMostOneOpen.isSingle {a : Aead} {path : String} {f : Fleet} (h : f.AtMostOneOpen) :
    (f.ledger a path).IsSingle := by
  have hopen : ∀ i, ((f.ledger a path).cursor? i).isSome → (f.stores i).isOpen = true := by
    intro i hi
    unfold Store.isOpen
    unfold ledger at hi
    dsimp only at hi
    cases hsession : (f.stores i).session with
    | none =>
      rw [hsession] at hi
      exact absurd hi (by simp)
    | some session => rfl
  intro i j hi hj
  exact h i j (hopen i hi) (hopen j hj)

/-- The invariants of the ledger hold along every run. -/
theorem Run.invariants {a : Aead} {path : String} {P : Fleet → Prop} {f g : Fleet}
    {ids : List String} (ha : a.Lawful) (hclosed : ∀ i, (f.stores i).session = none)
    (h : Run a path P f ids g) :
    g.HasCipher a ∧ ∃ drawn : List Nat, ids = drawn.filterMap Counter.formatId ∧
      (g.ledger a path).Sound drawn ∧
      ((∀ f', P f' → f'.AtMostOneOpen) → (g.ledger a path).Ordered drawn) := by
  induction h with
  | start =>
    have hcursor : ∀ i, (f.ledger a path).cursor? i = none := by
      intro i
      unfold ledger
      dsimp only
      rw [hclosed i]
      rfl
    refine ⟨?_, [], rfl, Ledger.sound_nil hcursor, fun _ => Ledger.ordered_nil hcursor⟩
    intro i session hsession
    rw [hclosed i] at hsession
    exact absurd hsession (by simp)
  | move _ hmove hP ih =>
    obtain ⟨hcipher, drawn, hids, hsound, hordered⟩ := ih
    obtain ⟨hcipher', n, hid, hstep⟩ := hmove.step ha hcipher
    refine ⟨hcipher', drawn ++ n.toList, ?_, hsound.step hstep, fun hopen => ?_⟩
    · rw [List.filterMap_append, hids, hid]
      cases n with
      | none => rfl
      | some n =>
        rw [Option.bind_some, Option.toList_some, List.filterMap_cons, List.filterMap_nil]
        cases Counter.formatId n with
        | none => rfl
        | some id => rfl
    · exact (hordered hopen).step hsound (hopen _ hP).isSingle hstep

/-- No identifier is returned twice for a path; while at most one store is open, the
identifiers ascend, as texts and by at most 1000 as numbers. -/
theorem nodup_identifiers (k : Key) (path : String) (P : Fleet → Prop) {f g : Fleet}
    {ids : List String} (hclosed : ∀ i, (f.stores i).session = none)
    (h : Run k.cipher path P f ids g) :
    ids.Nodup ∧
      ((∀ f', P f' → f'.AtMostOneOpen) →
        ∃ ns : List Nat, ns.map Counter.formatId = ids.map some ∧ ns.Pairwise (· < ·) ∧
          ids.Pairwise (· < ·) ∧ ns.IsChain fun m n => n ≤ m + 1000) := by
  obtain ⟨-, drawn, rfl, hsound, hordered⟩ := h.invariants k.lawful_cipher hclosed
  refine ⟨Counter.nodup_filterMap_formatId hsound.nodup, fun hopen => ?_⟩
  have horder := hordered hopen
  have hprefix := Counter.identified_prefix horder.ascending
  refine ⟨Counter.identified drawn, Counter.map_formatId_identified drawn, ?_, ?_, ?_⟩
  · exact horder.ascending.sublist hprefix.sublist
  · exact Counter.ascending_filterMap_formatId horder.ascending
  · exact horder.near.prefix hprefix

/-- The first two identifiers of a new store. -/
theorem nodup_identifiers_of_new_store :
    let a := (Key.uniform 7).cipher
    let f : Fleet := ⟨fun _ => .new .standard,
      { engine := default, clock := .standard, entropy := ⟨fun _ => 0, 0⟩ }⟩
    let onlyFirst : Fleet → Prop := fun f => ∀ j, j ≠ 0 → (f.stores j).isOpen = false
    let ids := ["000000000000001", "000000000000002"]
    (∀ i, (f.stores i).session = none) ∧ (∃ g, Run a "/n" onlyFirst f ids g) ∧
      (∀ f', onlyFirst f' → f'.AtMostOneOpen) ∧ ids.Nodup ∧ ids.Pairwise (· < ·) := by
  intro a f onlyFirst ids
  have hclosed : ∀ i, (f.stores i).session = none := fun _ => rfl
  have hopen : ∀ f', onlyFirst f' → f'.AtMostOneOpen := by
    intro f' hf' i j hi hj
    have hzero : ∀ i, (f'.stores i).isOpen = true → i = 0 := by
      intro i hi
      by_cases hne : i = 0
      · exact hne
      · rw [hf' i hne] at hi
        exact absurd hi Bool.false_ne_true
    rw [hzero i hi, hzero j hj]
  have hperform : ∀ (f' : Fleet) {α : Type} (call : StoreCall α), onlyFirst f' →
      onlyFirst (f'.perform 0 call).2 := by
    intro f' α call hf' j hj
    unfold perform
    rw [stores_withScene_of_ne f' hj]
    exact hf' j hj
  let opened := (f.perform 0 (Store.openWith .background a)).2
  let first := opened.perform 0 (Store.increment .background "n")
  let second := first.2.perform 0 (Store.increment .background "/n/")
  have hfirst : first.1.toOption = some "000000000000001" := by
    unfold first opened f a
    decide +kernel
  have hsecond : second.1.toOption = some "000000000000002" := by
    unfold second first opened f a
    decide +kernel
  have hrun : ∃ g, Run a "/n" onlyFirst f ids g := by
    have hstart : onlyFirst f := fun _ _ => rfl
    have hopened : onlyFirst opened := hperform f _ hstart
    have hfirst' : onlyFirst first.2 := hperform opened _ hopened
    have hsecond' : onlyFirst second.2 := hperform first.2 _ hfirst'
    have hrun : Run a "/n" onlyFirst f _ second.2 :=
      (((Run.start hstart).move (.openStore f 0 .background) hopened).move
        (.increment opened 0 .background "n") hfirst').move
        (.increment first.2 0 .background "/n/") hsecond'
    rw [if_pos (by decide), if_pos (by decide)] at hrun
    have hids : [] ++ none.toList ++ first.1.toOption.toList ++ second.1.toOption.toList = ids := by
      rw [hfirst, hsecond]
      rfl
    rw [← hids]
    exact ⟨_, hrun⟩
  obtain ⟨g, hrun⟩ := hrun
  obtain ⟨hnodup, hascending⟩ := nodup_identifiers (Key.uniform 7) "/n" onlyFirst hclosed hrun
  obtain ⟨ns, -, -, hids, -⟩ := hascending hopen
  exact ⟨hclosed, ⟨g, hrun⟩, hopen, hnodup, hids⟩

end Fleet

end Strongbox
