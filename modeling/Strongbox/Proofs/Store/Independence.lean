import Strongbox.Proofs.Form
import Strongbox.Proofs.Sizes
import Strongbox.Proofs.Store.Generations
import Strongbox.Proofs.Store.Identifiers
import Strongbox.Proofs.Store.Placement

/-!
# Counters and documents do not disturb each other

The identifiers of a counter come from its cursor and from the fields that are stored at its
path.  Commands that concern other paths touch neither of them, and an increment depends on
nothing else: run in two scenes that agree on the two, it answers alike and they agree
afterwards.  So the identifiers stay the same when all other commands are left out, although
clock and random octets are then used less.  The main statement is
`Counter.identifiers_eq_filter`.
-/

set_option autoImplicit false

namespace Strongbox

open Call (Respects)
open Time (Instant)

/-! ## Records of counters -/

/-- A record that is found bears a proper creation time. -/
theorem Engine.isProper_of_record? {a : Aead} {path : String} {e : Engine} {r : Record}
    (h : e.record? a path = .ok (some r)) : r.createdAt.IsProper := by
  rcases cases_of_record? h with ⟨hnone, -⟩ | ⟨_, _, r', hsame, -, -, hbytes⟩
  · exact absurd hnone (by simp)
  · injection hsame with hsame
    rw [hsame]
    exact (Record.isProper_of_parse (Record.ofBytes_eq_ok hbytes).1).1

/-- A counter's record is read again, and under the time of creation with which it was written
if that was read itself. -/
theorem Engine.exists_record?_of_counter {a : Aead} {path : String} {e : Engine} {c : Bytes}
    {next : Nat} {t u : Instant} (hvalue : e.value? path = some c)
    (hdecrypt : Stream.decrypt a c = .ok (Record.toBytes ⟨path, Counter.fieldsFor next, t, u⟩))
    (hnext : next < Cursor.wordLimit) (ht : t.IsValid) (hu : u.IsValid) :
    ∃ t' u', e.record? a path = .ok (some ⟨path, Counter.fieldsFor next, t', u'⟩) ∧
      (t.IsProper → t' = t) := by
  obtain ⟨t', ht'⟩ := Instant.exists_ofStamp? ht
  obtain ⟨u', hu'⟩ := Instant.exists_ofStamp? hu
  have hparse : Record.parse (Record.toBytes ⟨path, Counter.fieldsFor next, t, u⟩) =
      .ok ⟨path, Counter.fieldsFor next, t', u'⟩ := by
    rw [Record.parse_toBytes_eq (Counter.readsBack_fieldsFor hnext)]
    dsimp only
    rw [ht', hu']
  have hbytes : Record.ofBytes path (Record.toBytes ⟨path, Counter.fieldsFor next, t, u⟩) =
      .ok ⟨path, Counter.fieldsFor next, t', u'⟩ := by
    rw [Record.ofBytes_of_parse hparse, if_pos rfl]
  refine ⟨t', u', record?_of_decrypt hvalue hdecrypt hbytes, fun hproper => ?_⟩
  rw [Instant.ofStamp?_stamp hproper] at ht'
  exact (Option.some.inj ht').symm

/-- A counter's record gives the number its counter starts from. -/
theorem Engine.counterStart?_of_counter {a : Aead} {path : String} {e : Engine} {c : Bytes}
    {next : Nat} {t u : Instant} (hvalue : e.value? path = some c)
    (hdecrypt : Stream.decrypt a c = .ok (Record.toBytes ⟨path, Counter.fieldsFor next, t, u⟩))
    (hnext : next < Cursor.wordLimit) (ht : t.IsValid) (hu : u.IsValid) :
    e.counterStart? a path = some next := by
  obtain ⟨_, _, hrecord, -⟩ := exists_record?_of_counter hvalue hdecrypt hnext ht hu
  exact counterStart?_eq_some_iff.2 ⟨_, hrecord, Counter.stored?_fieldsFor hnext⟩

/-! ## Scenes that show the same of a counter -/

/-- The cursor of the counter at a path, if the store is open. -/
def Scene.cursor? (path : String) (s : Scene) : Option (Option Cursor) :=
  s.store.session.map fun session => session.cursors.find? path

/-- The fields that are stored at a path, as far as they can be read. -/
def Engine.fields? (a : Aead) (path : String) (e : Engine) : Except StoreError (Option Fields) :=
  (e.record? a path).map (Option.map Record.fields)

/-- The fields found at a path depend on its value alone. -/
theorem Engine.fields?_congr {a : Aead} {path : String} {e f : Engine}
    (h : e.value? path = f.value? path) : e.fields? a path = f.fields? a path := by
  unfold fields?
  rw [record?_congr h]

/-- The engine answers every call, the clock shows valid instants only, and the store has the given
cipher. -/
structure Scene.IsSound (a : Aead) (s : Scene) : Prop where
  cipher : ∀ session, s.store.session = some session → session.cipher = a
  engine : s.ambient.engine.IsHealthy
  clock : s.ambient.clock.IsValid

/-- What only alters keys leaves a scene sound. -/
theorem Scene.IsSound.of_leads {a : Aead} {K : String → Prop} {s t : Scene} (h : s.IsSound a)
    (hleads : s.Leads (Effect.Alters K) t) : t.IsSound a := by
  refine ⟨?_, hleads.isHealthy h.engine, fun i => ?_⟩
  · rw [hleads.store_eq]
    exact h.cipher
  · rw [hleads.readings_eq]
    exact h.clock i

/-- Two sessions with the given cipher and the same cursor of the counter at a path. -/
structure Session.SameCursor (a : Aead) (path : String) (x y : Session) : Prop where
  left : x.cipher = a
  right : y.cipher = a
  cursor : x.cursors.find? path = y.cursors.find? path

/-- Two sound scenes with the same cursor and the same fields of the counter at a path. -/
structure Scene.Alike (a : Aead) (path : String) (s t : Scene) : Prop where
  left : s.IsSound a
  right : t.IsSound a
  cursor : s.cursor? path = t.cursor? path
  fields : s.ambient.engine.fields? a path = t.ambient.engine.fields? a path

namespace Scene.Alike

variable {a : Aead} {path : String} {s t u : Scene}

/-- Alike is symmetric. -/
theorem symm (h : s.Alike a path t) : t.Alike a path s :=
  ⟨h.right, h.left, h.cursor.symm, h.fields.symm⟩

/-- Alike is transitive. -/
theorem trans (hst : s.Alike a path t) (htu : t.Alike a path u) : s.Alike a path u :=
  ⟨hst.left, htu.right, hst.cursor.trans htu.cursor, hst.fields.trans htu.fields⟩

/-- What only reads leaves a scene like it was. -/
theorem of_reads (hs : s.IsSound a) (h : s.Leads Effect.Reads t) : s.Alike a path t := by
  have halters : s.Leads (Effect.Alters fun _ => False) t := h.mono fun _ he => he.allowed
  refine ⟨hs, hs.of_leads halters, ?_, ?_⟩
  · unfold cursor?
    rw [halters.store_eq]
  · exact Engine.fields?_congr (halters.value?_eq id id).symm

/-- So does a call that only reads. -/
theorem after (h : s.Alike a path t) {α : Type} {x : StoreCall α}
    (hx : Respects (Scene.Leads Effect.Reads) x) :
    (Call.after (x s)).Alike a path (Call.after (x t)) :=
  (of_reads h.left (hx s)).symm.trans (h.trans (of_reads h.right (hx t)))

/-- The sessions of the two stores, if they are open. -/
theorem session (h : s.Alike a path t) :
    Option.Rel (Session.SameCursor a path) s.store.session t.store.session := by
  have hcursor := h.cursor
  have hleft := h.left.cipher
  have hright := h.right.cipher
  unfold cursor? at hcursor
  generalize s.store.session = x, t.store.session = y at hcursor hleft hright
  cases x with
  | none =>
    cases y with
    | none => exact .none
    | some y => exact absurd hcursor (by simp)
  | some x =>
    cases y with
    | none => exact absurd hcursor (by simp)
    | some y => exact .some ⟨hleft x rfl, hright y rfl, Option.some.inj hcursor⟩

end Scene.Alike

/-! ## Calls side by side -/

/-- The results of two calls: related answers or the same failure, and scenes that are alike. -/
inductive Scene.Agree (a : Aead) (path : String) {α β : Type} (R : α → β → Prop) :
    EStateM.Result StoreError Scene α → EStateM.Result StoreError Scene β → Prop
  | ok {x : α} {y : β} {s t : Scene} (hxy : R x y) (h : s.Alike a path t) :
    Agree a path R (.ok x s) (.ok y t)
  | error {e : StoreError} {s t : Scene} (h : s.Alike a path t) :
    Agree a path R (.error e s) (.error e t)

/-- Results that agree in the same value give the same answer. -/
theorem Scene.Agree.answer_eq {a : Aead} {path : String} {α : Type}
    {r r' : EStateM.Result StoreError Scene α} (h : Scene.Agree a path Eq r r') :
    Call.answer r = Call.answer r' := by
  cases h with
  | ok hxy _ => rw [hxy]; rfl
  | error _ => rfl

/-- Results that agree leave scenes that are alike. -/
theorem Scene.Agree.alike {a : Aead} {path : String} {α β : Type} {R : α → β → Prop}
    {r : EStateM.Result StoreError Scene α} {r' : EStateM.Result StoreError Scene β}
    (h : Scene.Agree a path R r r') : (Call.after r).Alike a path (Call.after r') := by
  cases h with
  | ok _ h => exact h
  | error h => exact h

/-- Two calls that lead from scenes that are alike to results that agree. -/
def StoreCall.Parallel (a : Aead) (path : String) {α β : Type} (R : α → β → Prop)
    (x : StoreCall α) (y : StoreCall β) : Prop :=
  ∀ s t, Scene.Alike a path s t → Scene.Agree a path R (x s) (y t)

namespace StoreCall

variable {a : Aead} {path : String} {α β γ δ : Type}

/-- One call after another runs side by side with its like if both parts do. -/
theorem Parallel.bind {R : α → β → Prop} {S : γ → δ → Prop} {x : StoreCall α} {y : StoreCall β}
    {f : α → StoreCall γ} {g : β → StoreCall δ} (hxy : Parallel a path R x y)
    (hfg : ∀ u v, R u v → Parallel a path S (f u) (g v)) :
    Parallel a path S (x >>= f) (y >>= g) := by
  intro s t h
  have hagree := hxy s t h
  show Scene.Agree a path S (EStateM.bind x f s) (EStateM.bind y g t)
  unfold EStateM.bind
  generalize x s = r, y t = r' at hagree
  cases hagree with
  | ok huv h => exact hfg _ _ huv _ _ h
  | error h => exact .error h

/-- Values that are related run side by side. -/
theorem parallel_pure {R : α → β → Prop} {x : α} {y : β} (h : R x y) :
    Parallel a path R (pure x) (pure y) := fun _ _ halike => .ok h halike

/-- The same failure on both sides runs side by side. -/
theorem parallel_throw {R : α → β → Prop} (e : StoreError) :
    Parallel a path R (throw e) (throw e) := fun _ _ h => .error h

/-- A call that only reads runs side by side with itself if its answers are related. -/
theorem parallel_of_reads {R : α → α → Prop} {x : StoreCall α}
    (hx : Respects (Scene.Leads Effect.Reads) x)
    (hanswer : ∀ s t, Scene.Alike a path s t →
      (∃ u v, Call.answer (x s) = .ok u ∧ Call.answer (x t) = .ok v ∧ R u v) ∨
        ∃ e, Call.answer (x s) = .error e ∧ Call.answer (x t) = .error e) :
    Parallel a path R x x := by
  intro s t h
  have halike := h.after hx
  rcases hanswer s t h with ⟨u, v, hu, hv, huv⟩ | ⟨e, hs, ht⟩
  · rw [Call.eq_ok_of_answer hu, Call.eq_ok_of_answer hv]
    exact .ok huv halike
  · rw [Call.eq_error_of_answer hs, Call.eq_error_of_answer ht]
    exact .error halike

/-- A steady boundary runs side by side with itself. -/
theorem parallel_boundary (v : Option Interruption) :
    Parallel a path Eq (boundary (.steady v)) (boundary (.steady v)) := by
  refine parallel_of_reads (leads_boundary _) fun s t _ => ?_
  cases v with
  | none => exact .inl ⟨(), (), rfl, rfl, rfl⟩
  | some i => exact .inr ⟨.ofInterruption i, rfl, rfl⟩

/-- Emitting an event runs side by side with itself. -/
theorem parallel_tell (e : Event) : Parallel a path Eq (tell e) (tell e) :=
  parallel_of_reads (leads_tell e) fun _ _ _ => .inl ⟨(), (), rfl, rfl, rfl⟩

/-- The check of a path for writing gives the same path on both sides. -/
theorem parallel_writable (raw : String) :
    Parallel a path (fun p p' => p = Path.normalize raw ∧ p' = Path.normalize raw)
      (writable raw) (writable raw) := by
  unfold writable
  split
  · exact parallel_throw _
  · exact parallel_pure ⟨rfl, rfl⟩

/-- Opening the session finds cursors for the path that stand at the same number. -/
theorem parallel_openSession :
    Parallel a path (Session.SameCursor a path) openSession openSession := by
  intro s t h
  have hsession := h.session
  unfold openSession
  generalize s.store.session = x, t.store.session = y at hsession
  cases hsession with
  | none => exact .error h
  | some hxy => exact .ok hxy h

/-- The clock may show different times on the two sides, both of them valid. -/
theorem parallel_now :
    Parallel a path (fun t u => Instant.IsValid t ∧ Instant.IsValid u) now now :=
  parallel_of_reads (leads_now) fun _ _ h =>
    .inl ⟨_, _, rfl, rfl, h.left.clock _, h.right.clock _⟩

/-- Two records with the same fields, whose times of creation were read from time stamps. -/
structure SameFields (r r' : Record) : Prop where
  fields : r.fields = r'.fields
  left : r.createdAt.IsProper
  right : r'.createdAt.IsProper

/-- Reading the path's record gives the same fields on both sides, or none on both. -/
theorem parallel_readRecord :
    Parallel a path (Option.Rel SameFields) (readRecord a path) (readRecord a path) := by
  refine parallel_of_reads (leads_readRecord a path) fun s t h => ?_
  rw [answer_readRecord h.left.engine, answer_readRecord h.right.engine]
  have hfields := h.fields
  unfold Engine.fields? at hfields
  cases hs : s.ambient.engine.record? a path with
  | error e =>
    rw [hs] at hfields
    cases ht : t.ambient.engine.record? a path with
    | error e' =>
      rw [ht] at hfields
      obtain rfl := Except.error.inj hfields
      exact .inr ⟨e, rfl, rfl⟩
    | ok y =>
      rw [ht] at hfields
      exact absurd hfields (by simp [Except.map])
  | ok x =>
    rw [hs] at hfields
    cases ht : t.ambient.engine.record? a path with
    | error e =>
      rw [ht] at hfields
      exact absurd hfields (by simp [Except.map])
    | ok y =>
      rw [ht] at hfields
      have hsame : x.map Record.fields = y.map Record.fields := Except.ok.inj hfields
      refine .inl ⟨x, y, rfl, rfl, ?_⟩
      cases x with
      | none =>
        cases y with
        | none => exact .none
        | some r' => exact absurd hsame (by simp)
      | some r =>
        cases y with
        | none => exact absurd hsame (by simp)
        | some r' =>
          exact .some ⟨Option.some.inj hsame, Engine.isProper_of_record? hs,
            Engine.isProper_of_record? ht⟩

/-- The number a batch starts from depends on the fields of the counter's record alone. -/
theorem parallel_batchStart {x y : Option Record} (h : Option.Rel SameFields x y) :
    Parallel a path Eq (Store.batchStart path x) (Store.batchStart path y) := by
  cases h with
  | none => exact parallel_pure rfl
  | some h =>
    unfold Store.batchStart
    dsimp only
    rw [h.fields]
    split
    · exact parallel_pure rfl
    · exact parallel_throw _

/-- The record of a counter is written in both scenes or in neither. -/
theorem parallel_writeRecord (ha : a.Lawful) (hfits : Counter.FitsAlike path) {next : Nat}
    (hnext : next < Cursor.wordLimit) {t u t' u' : Instant} (ht : t.IsValid) (hu : u.IsValid)
    (ht' : t'.IsValid) (hu' : u'.IsValid) :
    Parallel a path (fun _ _ => True) (writeRecord a ⟨path, Counter.fieldsFor next, t, u⟩)
      (writeRecord a ⟨path, Counter.fieldsFor next, t', u'⟩) := by
  intro s s' h
  have hiff := hfits next hnext t u t' u' ht hu ht' hu'
  have hwrites : ∀ r : Record, Respects (Scene.Leads (Effect.Alters fun _ => True))
      (writeRecord a r) := fun r => leads_writeRecord a r trivial
  have hleads := hwrites ⟨path, Counter.fieldsFor next, t, u⟩ s
  have hleads' := hwrites ⟨path, Counter.fieldsFor next, t', u'⟩ s'
  rcases writeRecord_of_isHealthy ha h.left.engine ⟨path, Counter.fieldsFor next, t, u⟩ with
    ⟨hfit, c, hdecrypt, hrun⟩ | ⟨hfit, hrun⟩
  · rcases writeRecord_of_isHealthy ha h.right.engine ⟨path, Counter.fieldsFor next, t', u'⟩ with
      ⟨-, c', hdecrypt', hrun'⟩ | ⟨hfit', -⟩
    · rw [hrun] at hleads
      rw [hrun'] at hleads'
      rw [hrun, hrun']
      obtain ⟨_, _, hrecord, -⟩ := Engine.exists_record?_of_counter
        (e := { s.ambient.engine with contents := s.ambient.engine.contents.put path c })
        (Contents.value?_put_self _ _ _) hdecrypt hnext ht hu
      obtain ⟨_, _, hrecord', -⟩ := Engine.exists_record?_of_counter
        (e := { s'.ambient.engine with contents := s'.ambient.engine.contents.put path c' })
        (Contents.value?_put_self _ _ _) hdecrypt' hnext ht' hu'
      refine .ok trivial ⟨h.left.of_leads hleads, h.right.of_leads hleads', h.cursor, ?_⟩
      unfold Engine.fields?
      dsimp only
      rw [hrecord, hrecord']
      rfl
    · exact absurd (hiff.1 hfit) hfit'
  · rcases writeRecord_of_isHealthy ha h.right.engine ⟨path, Counter.fieldsFor next, t', u'⟩ with
      ⟨hfit', -⟩ | ⟨-, hrun'⟩
    · exact absurd (hiff.2 hfit') hfit
    · rw [hrun] at hleads
      rw [hrun'] at hleads'
      rw [hrun, hrun']
      exact .error ⟨h.left.of_leads hleads, h.right.of_leads hleads', h.cursor, h.fields⟩

/-- Reserving a batch gives the same cursor on both sides. -/
theorem parallel_reserve (ha : a.Lawful) (hfits : Counter.FitsAlike path) :
    Parallel a path Eq (Store.reserve a path) (Store.reserve a path) := by
  refine parallel_readRecord.bind fun x y hxy =>
    (parallel_batchStart hxy).bind fun start start' hstart => ?_
  subst hstart
  cases hreserve : Cursor.reserve start with
  | none => exact parallel_throw _
  | some batch =>
    obtain ⟨cursor, next⟩ := batch
    obtain ⟨hnext, rfl, rfl⟩ := Cursor.reserve_eq_some hreserve
    refine parallel_now.bind fun t u htu => Parallel.bind (R := fun _ _ => True) ?_ fun _ _ _ =>
      (parallel_tell _).bind fun _ _ _ => parallel_pure rfl
    cases hxy with
    | none => exact parallel_writeRecord ha hfits hnext htu.1 htu.1 htu.2 htu.2
    | some h =>
      exact parallel_writeRecord ha hfits hnext h.left.isValid htu.1 h.right.isValid htu.2

/-- Keeping a cursor runs side by side with itself. -/
theorem parallel_keepCursor (cursor : Cursor) :
    Parallel a path (fun _ _ => True) (Store.keepCursor path cursor)
      (Store.keepCursor path cursor) := by
  have hsound : ∀ {s : Scene}, s.IsSound a →
      (Call.after (Store.keepCursor path cursor s)).IsSound a := by
    intro s hs
    refine ⟨fun session hsession => ?_, hs.engine, hs.clock⟩
    obtain ⟨old, hold, hsame⟩ := Option.map_eq_some_iff.1 hsession
    rw [← hsame]
    exact hs.cipher old hold
  have hcursor : ∀ s : Scene, (Call.after (Store.keepCursor path cursor s)).cursor? path =
      (s.cursor? path).map fun _ => some cursor := by
    intro s
    show Option.map _ (Option.map _ s.store.session) = Option.map _ (Option.map _ s.store.session)
    rw [Option.map_map, Option.map_map]
    refine congrFun (congrArg Option.map (funext fun session => ?_)) _
    exact Table.find?_insert_self path cursor session.cursors
  intro s t h
  refine .ok trivial ⟨hsound h.left, hsound h.right, ?_, h.fields⟩
  exact (hcursor s).trans ((congrArg _ h.cursor).trans (hcursor t).symm)

/-- The cursor for the path is the same on both sides. -/
theorem parallel_cursorFor (ha : a.Lawful) (hfits : Counter.FitsAlike path) {x y : Session}
    (h : Session.SameCursor a path x y) :
    Parallel a path Eq (Store.cursorFor x path) (Store.cursorFor y path) := by
  unfold Store.cursorFor
  rw [h.left, h.right, h.cursor]
  split
  · exact parallel_reserve ha hfits
  · split
    · exact parallel_reserve ha hfits
    · exact parallel_pure rfl

/-- An increment depends only on the cursor and the stored fields of its counter. -/
theorem parallel_increment (ha : a.Lawful) (hfits : Counter.FitsAlike path)
    (v : Option Interruption) {raw : String} (hraw : Path.normalize raw = path) :
    Parallel a path Eq (Store.increment (.steady v) raw) (Store.increment (.steady v) raw) := by
  refine (parallel_boundary v).bind fun _ _ _ => (parallel_writable raw).bind fun p p' hp => ?_
  rw [hp.1, hp.2, hraw]
  refine parallel_openSession.bind fun x y hxy =>
    (parallel_cursorFor ha hfits hxy).bind fun cursor cursor' hcursor => ?_
  subst hcursor
  cases cursor.advance with
  | none => exact parallel_throw _
  | some next =>
    refine (parallel_keepCursor next.2).bind fun _ _ _ => ?_
    split
    · exact parallel_pure rfl
    · exact parallel_throw _

/-- Opening runs side by side with itself under one interruption. -/
theorem parallel_openWith (v : Option Interruption) :
    Parallel a path (fun _ _ => True) (Store.openWith (.steady v) a)
      (Store.openWith (.steady v) a) := by
  have hclosed : Parallel a path Eq Store.ensureClosed Store.ensureClosed := by
    intro s t h
    have hsession := h.session
    unfold Store.ensureClosed
    generalize s.store.session = x, t.store.session = y at hsession
    cases hsession with
    | none => exact .ok rfl h
    | some _ => exact .error h
  have hinstall : Parallel a path (fun _ _ => True) (Store.install a) (Store.install a) := by
    have hsound : ∀ {s : Scene}, s.IsSound a → (Call.after (Store.install a s)).IsSound a := by
      intro s hs
      refine ⟨fun session hsession => ?_, hs.engine, hs.clock⟩
      injection hsession with hsession
      rw [← hsession]
    exact fun s t h => .ok trivial ⟨hsound h.left, hsound h.right, rfl, h.fields⟩
  exact ((parallel_boundary v).bind fun _ _ _ => hclosed).bind fun _ _ _ => hinstall

/-- Closing runs side by side with itself. -/
theorem parallel_close : Parallel a path (fun _ _ => True) Store.close Store.close := by
  refine parallel_openSession.bind fun x y _ s t h => ?_
  have hsound : ∀ {s : Scene} {generation : Nat}, s.IsSound a →
      (Scene.tell (.closed generation)
        { s with store := { s.store with session := none } }).IsSound a :=
    fun hs => ⟨fun _ hsession => absurd hsession (by simp [Scene.tell]), hs.engine, hs.clock⟩
  exact .ok trivial ⟨hsound h.left, hsound h.right, rfl, h.fields⟩

end StoreCall

/-! ## Commands -/

namespace Command

/-- Whether the command opens or closes the store, or names the path. -/
def concerns (path : String) : Command → Bool
  | .openStore _ => true
  | .closeStore => true
  | .create _ raw _ => Path.normalize raw = path
  | .set _ raw _ _ => Path.normalize raw = path
  | .increment _ raw => Path.normalize raw = path
  | .delete _ raw => Path.normalize raw = path
  | .exists _ raw => Path.normalize raw = path
  | .get _ raw => Path.normalize raw = path
  | _ => false

/-- Whether the command opens or closes the store, or takes an identifier from the counter at the
path. -/
def draws (path : String) : Command → Bool
  | .openStore _ => true
  | .closeStore => true
  | .increment _ raw => Path.normalize raw = path
  | _ => false

/-- The command creates, writes and deletes no document at the path.  Where it opens the store, or
takes an identifier of the path, its context gives the same answer at every boundary, since these
are counted through all commands. -/
def IsApart (path : String) : Command → Prop
  | .openStore ctx => ∃ v, ctx = .steady v
  | .increment ctx raw => Path.normalize raw = path → ∃ v, ctx = .steady v
  | .create _ raw _ => Path.normalize raw ≠ path
  | .set _ raw _ _ => Path.normalize raw ≠ path
  | .delete _ raw => Path.normalize raw ≠ path
  | .deleteAll _ paths => ∀ raw ∈ paths, Path.normalize raw ≠ path
  | _ => True

/-- The answer of an increment of the counter at the path. -/
def identifier? (path : String) (s : Scene) : Command → Option (Except StoreError String)
  | .increment ctx raw =>
    if Path.normalize raw = path then some (Call.answer (Store.increment ctx raw s)) else none
  | _ => none

/-- The answers, in order, of the increments of the counter at the path. -/
def identifiers (a : Aead) (path : String) : Scene → List Command → List (Except StoreError String)
  | _, [] => []
  | s, c :: cs => (c.identifier? path s).toList ++ identifiers a path (c.run a s) cs

variable {a : Aead} {path : String} {s t : Scene} {c : Command}

/-- The identifiers of a run are those of its first command and those of the rest. -/
theorem identifiers_cons (a : Aead) (path : String) (s : Scene) (c : Command) (cs : List Command) :
    identifiers a path s (c :: cs) =
      (c.identifier? path s).toList ++ identifiers a path (c.run a s) cs := rfl

/-- A command that does not concern the path draws no identifier there. -/
theorem draws_eq_false_of_concerns (h : c.concerns path = false) : c.draws path = false := by
  cases c with
  | openStore _ => exact h
  | closeStore => exact h
  | increment _ _ => exact h
  | _ => rfl

/-- A command that draws no identifier at the path names none. -/
theorem identifier?_of_draws (h : c.draws path = false) (s : Scene) :
    c.identifier? path s = none := by
  cases c with
  | increment ctx raw => exact if_neg (of_decide_eq_false h)
  | _ => rfl

/-- Every command keeps a scene sound. -/
theorem isSound_run (ha : a.Lawful) (hs : s.IsSound a) (c : Command) : (c.run a s).IsSound a := by
  have hyields := c.yields_run ha hs.cipher
  refine ⟨hyields.cipher hs.cipher, (c.leads_run a s).isHealthy hs.engine, fun i => ?_⟩
  rw [hyields.readings]
  exact hs.clock i

/-- A command apart from the path that draws nothing there does not target it. -/
theorem not_targets (hc : c.IsApart path) (h : c.draws path = false) : ¬ c.Targets path := by
  have hnames : ∀ {raw}, Path.normalize raw ≠ path → ¬ Store.Names raw path :=
    fun hne hraw => hne hraw.2.symm
  cases c with
  | create _ raw _ => exact hnames hc
  | set _ raw _ _ => exact hnames hc
  | increment _ raw => exact hnames (of_decide_eq_false h)
  | delete _ raw => exact hnames hc
  | deleteAll _ paths => exact fun ⟨raw, hraw, hpath⟩ => hnames (hc raw hraw) hpath
  | _ => exact id

/-- Only increments of the counter itself, and the ends of sessions, touch its cursor. -/
theorem cursor?_run (ha : a.Lawful) (hs : s.IsSound a) (h : c.draws path = false) :
    (c.run a s).cursor? path = s.cursor? path := by
  unfold Scene.cursor?
  cases hstore : c.changesStore with
  | false => rw [c.store_run a hstore s]
  | true =>
    cases c with
    | openStore _ => exact absurd h (by simp [draws])
    | closeStore => exact absurd h (by simp [draws])
    | increment ctx raw =>
      show (Call.after (Store.increment ctx raw s)).store.session.map _ = _
      rcases Store.increment_cases ha ctx raw hs.cipher with
        ⟨e, t, ht, hrun⟩ | ⟨session, cursor, t, hsession, -, -, hafter, -⟩
      · rw [hrun]
        dsimp only [Call.after]
        rw [ht.store]
      · rw [hafter, hsession]
        exact congrArg some (Table.find?_insert_of_ne _ session.cursors
          (Ne.symm (of_decide_eq_false h)))
    | _ => exact absurd hstore (by simp [changesStore])

/-- A command that has nothing to do with the counter leaves what it shows. -/
theorem alike_run (ha : a.Lawful) (hs : s.IsSound a) (hc : c.IsApart path)
    (h : c.draws path = false) : s.Alike a path (c.run a s) :=
  ⟨hs, c.isSound_run ha hs, (cursor?_run ha hs h).symm,
    Engine.fields?_congr (c.value?_run a (not_targets hc h) s).symm⟩

/-- A command that has to do with the counter does the same in scenes that show the same of it. -/
theorem alike_run_of_draws (ha : a.Lawful) (hfits : Counter.FitsAlike path)
    (hst : s.Alike a path t) (hc : c.IsApart path) (h : c.draws path = true) :
    c.identifier? path s = c.identifier? path t ∧ (c.run a s).Alike a path (c.run a t) := by
  cases c with
  | openStore ctx =>
    obtain ⟨v, rfl⟩ := hc
    exact ⟨rfl, (StoreCall.parallel_openWith v s t hst).alike⟩
  | closeStore => exact ⟨rfl, (StoreCall.parallel_close s t hst).alike⟩
  | increment ctx raw =>
    have hraw : Path.normalize raw = path := of_decide_eq_true h
    obtain ⟨v, rfl⟩ := hc hraw
    have hagree := StoreCall.parallel_increment ha hfits v hraw s t hst
    refine ⟨?_, hagree.alike⟩
    show (if _ then _ else _) = if _ then _ else _
    rw [hagree.answer_eq]
  | _ => exact absurd h (by simp [draws])

/-- In scenes that show the same of a counter it answers alike, with other commands between or
without. -/
theorem identifiers_of_alike (ha : a.Lawful) (hfits : Counter.FitsAlike path)
    {cs : List Command} (hcs : ∀ c ∈ cs, c.IsApart path) (hst : s.Alike a path t) :
    identifiers a path s cs = identifiers a path t (cs.filter (concerns path)) := by
  induction cs generalizing s t with
  | nil => rfl
  | cons c cs ih =>
    have hc := hcs c List.mem_cons_self
    have ih := fun {s t} => @ih s t fun c hc => hcs c (List.mem_cons_of_mem _ hc)
    rw [identifiers_cons]
    cases hdraws : c.draws path with
    | true =>
      have hconcerns : c.concerns path = true := by
        by_contra hnot
        rw [draws_eq_false_of_concerns (Bool.eq_false_iff.2 hnot)] at hdraws
        exact Bool.false_ne_true hdraws
      obtain ⟨hidentifier, hrun⟩ := alike_run_of_draws ha hfits hst hc hdraws
      rw [List.filter_cons_of_pos hconcerns, identifiers_cons, hidentifier, ih hrun]
    | false =>
      have hleft := alike_run ha hst.left hc hdraws
      rw [identifier?_of_draws hdraws]
      cases hconcerns : c.concerns path with
      | true =>
        have hright := alike_run ha hst.right hc hdraws
        rw [List.filter_cons_of_pos hconcerns, identifiers_cons, identifier?_of_draws hdraws,
          ih ((hleft.symm.trans hst).trans hright)]
      | false =>
        rw [List.filter_cons_of_neg (by rw [hconcerns]; decide), ih (hleft.symm.trans hst)]
        rfl

end Command

/-- An increment leaves the time of creation of what was stored at its path before. -/
theorem Store.exists_createdAt_increment {a : Aead} (ha : a.Lawful) {s : Scene} (hs : s.IsSound a)
    (ctx : Context) (raw : String) {r : Record}
    (hr : s.ambient.engine.record? a (Path.normalize raw) = .ok (some r)) :
    ∃ r', (Call.after (increment ctx raw s)).ambient.engine.record? a (Path.normalize raw) =
      .ok (some r') ∧ r'.createdAt = r.createdAt := by
  rcases increment_cases ha ctx raw hs.cipher with
    ⟨e, t, ht, hrun⟩ | ⟨session, c, t, -, hprovides, -, hafter, -⟩
  · rw [hrun]
    exact ⟨r, (Engine.record?_congr (ht.value?_eq _)).trans hr, rfl⟩
  · rw [hafter]
    cases hprovides with
    | kept _ ht => exact ⟨r, (Engine.record?_congr (ht.value?_eq _)).trans hr, rfl⟩
    | reserved _ ht =>
      obtain ⟨c, createdAt, updatedAt, hvalue, hdecrypt, ⟨i, hi⟩, hcreated⟩ := ht.written
      obtain rfl : createdAt = r.createdAt := hcreated (some r) hr
      have hproper := Engine.isProper_of_record? hr
      obtain ⟨t', u', hrecord, hsame⟩ := Engine.exists_record?_of_counter hvalue hdecrypt ht.isWord
        hproper.isValid (hi ▸ hs.clock i)
      exact ⟨_, hrecord, hsame hproper⟩

/-- Every run of commands keeps a scene sound. -/
theorem Command.isSound_runs {a : Aead} (ha : a.Lawful) {s : Scene} (hs : s.IsSound a)
    (cs : List Command) : (cs.foldl (Command.run a) s).IsSound a := by
  induction cs generalizing s with
  | nil => exact hs
  | cons c cs ih => exact ih (c.isSound_run ha hs)

/-- The identifiers of a counter are those of the run without the commands for other paths, even
if clock and random octets differ, and an increment changes no value but that of its own path
and leaves the time of creation of the document there.  Of the counter's path it is asked only
that it is not too long for its times to be stored in both runs. -/
theorem Counter.identifiers_eq_filter (k : Key) {path : String} (hfits : FitsAlike path)
    {s t : Scene} (hs : s.IsSound k.cipher) (hstore : t.store = s.store)
    (hengine : t.ambient.engine = s.ambient.engine) (hclock : t.ambient.clock.IsValid)
    {cs : List Command} (hcs : ∀ c ∈ cs, c.IsApart path) :
    Command.identifiers k.cipher path s cs =
        Command.identifiers k.cipher path t (cs.filter (Command.concerns path)) ∧
      ∀ before ctx raw after, cs = before ++ .increment ctx raw :: after →
        Path.normalize raw = path →
        let u := before.foldl (Command.run k.cipher) s
        let v := Command.run k.cipher u (.increment ctx raw)
        (∀ key, key ≠ path →
          v.ambient.engine.value? key = u.ambient.engine.value? key) ∧
        ∀ r, u.ambient.engine.record? k.cipher path = .ok (some r) →
          ∃ r', v.ambient.engine.record? k.cipher path = .ok (some r') ∧
            r'.createdAt = r.createdAt := by
  refine ⟨Command.identifiers_of_alike k.lawful_cipher hfits hcs ⟨hs, ⟨?_, ?_, hclock⟩, ?_, ?_⟩, ?_⟩
  · rw [hstore]
    exact hs.cipher
  · rw [hengine]
    exact hs.engine
  · unfold Scene.cursor?
    rw [hstore]
  · rw [hengine]
  · intro before ctx raw after _ hraw u v
    subst hraw
    refine ⟨fun key hkey => ?_, fun r hr => ?_⟩
    · exact Command.value?_run k.cipher (c := .increment ctx raw)
        (fun hnames => hkey hnames.2) u
    · have hu : u.IsSound k.cipher := Command.isSound_runs k.lawful_cipher hs before
      exact Store.exists_createdAt_increment k.lawful_cipher hu ctx raw hr

/-- Two identifiers of a counter, with a document and another counter between them, are those of
the counter alone under another clock and other random octets. -/
theorem Counter.identifiers_of_mixed_run :
    let a := (Key.uniform 7).cipher
    let s : Scene := ⟨.new .standard,
      { engine := default, clock := .standard, entropy := ⟨fun _ => 0, 0⟩ }⟩
    let t : Scene := ⟨.new .standard,
      { engine := default, clock := .ticking 0, entropy := ⟨fun _ => 1, 0⟩ }⟩
    let before : List Command := [.openStore .background, .increment .background "n",
      .create .background "m" [], .increment .background "n/k"]
    let again : Command := .increment .background "/n/"
    let u := before.foldl (Command.run a) s
    FitsAlike "/n" ∧ s.IsSound a ∧ t.ambient.clock.IsValid ∧
      (∀ c ∈ before ++ [again], c.IsApart "/n") ∧
      (Command.identifiers a "/n" s (before ++ [again])).map Except.toOption =
        [some "000000000000001", some "000000000000002"] ∧
      (u.ambient.engine.value? "/m").isSome ∧
      (again.run a u).ambient.engine.value? "/m" = u.ambient.engine.value? "/m" := by
  intro a s t before again u
  have hfits : FitsAlike "/n" := fitsAlike_of_length (by decide)
  have hsound : s.IsSound a :=
    ⟨fun _ hsession => absurd hsession (by simp [s, Store.new]),
      ⟨.inl rfl, rfl, trivial⟩, (Clock.isProper_ticking _).isValid⟩
  have hclock : t.ambient.clock.IsValid := (Clock.isProper_ticking 0).isValid
  have happart : ∀ c ∈ before ++ [again], c.IsApart "/n" := by
    have hsteady : ∃ v, Context.background = .steady v := ⟨none, rfl⟩
    have hother : Path.normalize "m" ≠ "/n" := by decide
    simp only [before, again, List.cons_append, List.nil_append, List.forall_mem_cons,
      List.not_mem_nil, false_imp_iff, implies_true, and_true]
    exact ⟨hsteady, fun _ => hsteady, hother, fun _ => hsteady, fun _ => hsteady⟩
  obtain ⟨hsame, hothers⟩ :=
    identifiers_eq_filter (Key.uniform 7) hfits hsound (t := t) rfl rfl hclock happart
  have halone : (Command.identifiers a "/n" t ((before ++ [again]).filter
      (Command.concerns "/n"))).map Except.toOption =
        [some "000000000000001", some "000000000000002"] := by
    unfold before again t a
    decide +kernel
  have hstored : (u.ambient.engine.value? "/m").isSome := by
    unfold u before s a
    decide +kernel
  refine ⟨hfits, hsound, hclock, happart, ?_, hstored, ?_⟩
  · rw [← halone]
    exact congrArg _ hsame
  · exact (hothers before .background "/n/" [] rfl (by decide)).1 "/m" (by decide)

end Strongbox
