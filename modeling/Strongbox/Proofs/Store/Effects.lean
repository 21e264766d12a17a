import Mathlib.Logic.Relation
import Strongbox.Store.Identifiers
import Strongbox.Store.Session
import Strongbox.Proofs.Barrier
import Strongbox.Proofs.Contents

/-!
# What calls do

A call changes a store and its surroundings by changes of few kinds, one after the other: the
clock is read, the fault plan of the engine is asked, a key is bound or removed, and so on.  A
footprint says which kinds may occur.  Every call is taken apart once, into changes of its
footprint; what a footprint leaves alone then follows by induction on the changes
(`Scene.Leads.preserves`), whatever the call was.
-/

set_option autoImplicit false

namespace Strongbox

open Call (Respects)

/-! ## Changes -/

/-- The kinds of changes. -/
inductive Effect where
  /-- A boundary is passed. -/
  | pass
  /-- An event is told. -/
  | tell
  /-- Random octets are drawn. -/
  | draw
  /-- The clock is read. -/
  | tick
  /-- The fault plan of the engine is asked. -/
  | consult
  /-- A key is bound. -/
  | put (key : String)
  /-- A key is removed. -/
  | delete (key : String)
  /-- A session starts. -/
  | install
  /-- The session ends. -/
  | close
  /-- A cursor is kept in the session. -/
  | keepCursor

namespace Effect

/-- What calls do that only listen: they leave the store, the contents of the engine and the
log. -/
def Listens : Effect → Prop
  | .pass | .tick | .consult => True
  | _ => False

/-- What calls do that only read: they leave the store and the contents of the engine. -/
def Reads : Effect → Prop
  | .pass | .tell | .draw | .tick | .consult => True
  | _ => False

/-- What calls do that remove no other keys than those of `K`, and bind none. -/
def Removes (K : String → Prop) : Effect → Prop
  | .delete key => K key
  | .put _ | .install | .close | .keepCursor => False
  | _ => True

/-- What calls do that bind and remove no other keys than those of `K`: they leave the store. -/
def Alters (K : String → Prop) : Effect → Prop
  | .put key => K key
  | .delete key => K key
  | .install | .close | .keepCursor => False
  | _ => True

/-- What calls do that draw on the cursor of a counter, and bind no other keys than those of
`K`. -/
def Counts (K : String → Prop) : Effect → Prop
  | .put key => K key
  | .delete _ | .install | .close => False
  | _ => True

/-- What opening a store does. -/
def Opens : Effect → Prop
  | .put _ | .delete _ | .close | .keepCursor => False
  | _ => True

/-- What closing a store does. -/
def Closes : Effect → Prop
  | .put _ | .delete _ | .install | .keepCursor => False
  | _ => True

/-- A footprint that allows what listening does. -/
class AllowsListening (P : Effect → Prop) : Prop where
  pass : P .pass
  tick : P .tick
  consult : P .consult

/-- A footprint that allows what reading does. -/
class AllowsReading (P : Effect → Prop) : Prop where
  pass : P .pass
  tick : P .tick
  consult : P .consult
  tell : P .tell
  draw : P .draw

instance (P : Effect → Prop) [h : AllowsReading P] : AllowsListening P :=
  ⟨h.pass, h.tick, h.consult⟩

instance : AllowsListening Listens := ⟨trivial, trivial, trivial⟩

instance : AllowsReading Reads := ⟨trivial, trivial, trivial, trivial, trivial⟩

instance (K : String → Prop) : AllowsReading (Removes K) :=
  ⟨trivial, trivial, trivial, trivial, trivial⟩

instance (K : String → Prop) : AllowsReading (Alters K) :=
  ⟨trivial, trivial, trivial, trivial, trivial⟩

instance (K : String → Prop) : AllowsReading (Counts K) :=
  ⟨trivial, trivial, trivial, trivial, trivial⟩

instance : AllowsReading Opens := ⟨trivial, trivial, trivial, trivial, trivial⟩

instance : AllowsReading Closes := ⟨trivial, trivial, trivial, trivial, trivial⟩

variable {P : Effect → Prop} {e : Effect}

/-- Whatever a call does that only listens, such a footprint allows. -/
theorem Listens.allowed [AllowsListening P] (h : e.Listens) : P e := by
  cases e with
  | pass => exact AllowsListening.pass
  | tick => exact AllowsListening.tick
  | consult => exact AllowsListening.consult
  | _ => exact h.elim

/-- Whatever a call does that only reads, such a footprint allows. -/
theorem Reads.allowed [AllowsReading P] (h : e.Reads) : P e := by
  cases e with
  | pass => exact AllowsListening.pass
  | tick => exact AllowsListening.tick
  | consult => exact AllowsListening.consult
  | tell => exact AllowsReading.tell
  | draw => exact AllowsReading.draw
  | _ => exact h.elim

/-- What removes keys alters no others. -/
theorem Removes.alters {K : String → Prop} (h : e.Removes K) : e.Alters K := by
  cases e with
  | pass | tell | draw | tick | consult => trivial
  | delete key => exact h
  | _ => exact h.elim

end Effect

/-- A scene after one change. -/
inductive Scene.Change (s : Scene) : Effect → Scene → Prop
  | pass : Change s .pass
      { s with ambient := { s.ambient with boundaries := s.ambient.boundaries + 1 } }
  | tell (e : Event) : Change s .tell (s.tell e)
  | draw (entropy : Entropy) : Change s .draw { s with ambient := { s.ambient with entropy } }
  | tick : Change s .tick
      { s with ambient := { s.ambient with clock := s.ambient.clock.read.2 } }
  | consult (operation : Operation) (key : String) : Change s .consult
      { s with ambient := { s.ambient with
        engine := Call.after (Engine.consult operation key s.ambient.engine) } }
  | put (key : String) (value : Bytes) : Change s (.put key)
      { s with ambient := { s.ambient with engine := { s.ambient.engine with
        contents := s.ambient.engine.contents.put key value } } }
  | delete {key : String} {found : Bool} {contents : Contents}
      (h : s.ambient.engine.contents.delete key = .ok (found, contents)) : Change s (.delete key)
      { s with ambient := { s.ambient with engine := { s.ambient.engine with contents } } }
  | install (cipher : Aead) : Change s .install
      { s with store := { s.store with
        generations := s.store.generations + 1
        session := some ⟨s.store.generations + 1, cipher, .empty⟩ } }
  | close : Change s .close { s with store := { s.store with session := none } }
  | keepCursor (path : String) (cursor : Cursor) : Change s .keepCursor
      { s with store := { s.store with session := s.store.session.map fun session =>
        { session with cursors := session.cursors.insert path cursor } } }

/-- Changes of the footprint `P` lead from one scene to the other. -/
def Scene.Leads (P : Effect → Prop) : Scene → Scene → Prop :=
  Relation.ReflTransGen fun s t => ∃ e, P e ∧ s.Change e t

namespace Scene.Leads

variable {P Q : Effect → Prop} {s t : Scene}

/-- No change leads nowhere. -/
theorem refl (s : Scene) : s.Leads P s := Relation.ReflTransGen.refl

/-- Changes that follow one another are changes of the same footprint. -/
theorem trans (s t u : Scene) (hst : s.Leads P t) (htu : t.Leads P u) : s.Leads P u :=
  Relation.ReflTransGen.trans hst htu

/-- One change leads on if the footprint has it. -/
theorem single {e : Effect} (he : P e) (h : s.Change e t) : s.Leads P t :=
  Relation.ReflTransGen.single ⟨e, he, h⟩

/-- What every change of the footprint preserves, the changes together do. -/
theorem preserves {R : Scene → Prop} (h : s.Leads P t) (hs : R s)
    (hchange : ∀ ⦃u v : Scene⦄ ⦃e : Effect⦄, P e → u.Change e v → R u → R v) : R t := by
  induction h with
  | refl => exact hs
  | tail _ hstep ih =>
    obtain ⟨e, he, hstep⟩ := hstep
    exact hchange he hstep ih

/-- A greater footprint. -/
theorem mono (h : s.Leads P t) (hPQ : ∀ e, P e → Q e) : s.Leads Q t :=
  h.preserves (R := s.Leads Q) (refl s) fun _ _ _ he hstep hu =>
    trans _ _ _ hu (single (hPQ _ he) hstep)

/-- Time goes on. -/
theorem taken_le (h : s.Leads P t) : s.ambient.clock.taken ≤ t.ambient.clock.taken := by
  refine h.preserves (R := fun u => s.ambient.clock.taken ≤ u.ambient.clock.taken)
    (Nat.le_refl _) fun u v e _ hstep hu => ?_
  cases hstep with
  | tick => exact Nat.le_succ_of_le hu
  | _ => exact hu

/-- The readings of the clock are what they were. -/
theorem readings_eq (h : s.Leads P t) :
    t.ambient.clock.readings = s.ambient.clock.readings := by
  refine h.preserves (R := fun u => u.ambient.clock.readings = s.ambient.clock.readings)
    rfl fun u v e _ hstep hu => ?_
  cases hstep <;> exact hu

/-- A key that no change of the footprint concerns keeps its value. -/
theorem value?_eq (h : s.Leads P t) {key : String} (hput : ¬ P (.put key))
    (hdelete : ¬ P (.delete key)) :
    t.ambient.engine.value? key = s.ambient.engine.value? key := by
  refine h.preserves (R := fun u => u.ambient.engine.value? key = s.ambient.engine.value? key)
    rfl fun u v e he hstep hu => ?_
  cases hstep with
  | consult operation other =>
    obtain ⟨face, hrun | ⟨error, hrun⟩⟩ := Engine.consult_cases operation other u.ambient.engine
    all_goals
      rw [hrun]
      exact hu
  | put other value =>
    have hne : key ≠ other := fun hsame => hput (hsame ▸ he)
    exact (Contents.value?_put_of_ne _ value hne).trans hu
  | @delete other found contents hcall =>
    have hne : key ≠ other := fun hsame => hdelete (hsame ▸ he)
    exact ((Contents.deletes_of_delete hcall).value?_of_ne key hne).trans hu
  | _ => exact hu

/-- Where nothing is bound, nothing is found that was not there. -/
theorem holds (h : s.Leads P t) (hput : ∀ key, ¬ P (.put key)) {key : String} {c : Bytes}
    (hc : t.ambient.engine.Holds key c) : s.ambient.engine.Holds key c := by
  revert hc
  refine h.preserves
    (R := fun u => u.ambient.engine.Holds key c → s.ambient.engine.Holds key c)
    id fun u v e he hstep hu hc => hu ?_
  cases hstep with
  | consult operation other =>
    obtain ⟨face, hrun | ⟨error, hrun⟩⟩ := Engine.consult_cases operation other u.ambient.engine
    all_goals
      rw [hrun] at hc
      exact hc
  | put other value => exact absurd he (hput other)
  | delete hcall => exact Contents.holds_of_delete hcall hc
  | _ => exact hc

/-- An engine without faults stays so. -/
theorem isHealthy (h : s.Leads P t) (hs : s.ambient.engine.IsHealthy) :
    t.ambient.engine.IsHealthy := by
  refine h.preserves (R := fun u => u.ambient.engine.IsHealthy) hs fun u v e _ hstep hu => ?_
  cases hstep with
  | consult operation key =>
    dsimp only
    rw [hu.consult operation key]
    exact hu
  | put key value =>
    exact hu.withContents (hu.isWhole.put key value) (Contents.usesWorkers_put _ key value)
  | delete hcall =>
    have hspec := Contents.deletes_of_delete hcall
    exact hu.withContents (hspec.isWhole hu.isWhole) hspec.usesWorkers
  | _ => exact hu

/-- Nor do its keys become anything but text. -/
theorem isSteady (h : s.Leads P t) (hs : s.ambient.engine.IsSteady) :
    t.ambient.engine.IsSteady := by
  refine h.preserves (R := fun u => u.ambient.engine.IsSteady) hs fun u v e he hstep hu => ?_
  refine ⟨(single he hstep).isHealthy hu.isHealthy, ?_⟩
  cases hstep with
  | consult operation key =>
    dsimp only
    rw [hu.isHealthy.consult operation key]
    exact hu.hasTextKeys
  | put key value => exact hu.hasTextKeys.put key value
  | delete hcall => exact hu.hasTextKeys.delete hcall
  | _ => exact hu.hasTextKeys

/-- What alters keys leaves the store. -/
theorem store_eq {K : String → Prop} (h : s.Leads (Effect.Alters K) t) : t.store = s.store := by
  refine h.preserves (R := fun u => u.store = s.store) rfl fun u v e he hstep hu => ?_
  cases hstep with
  | install | close | keepCursor => exact he.elim
  | _ => exact hu

/-- What only listens is told of nothing. -/
theorem events_eq (h : s.Leads Effect.Listens t) : t.ambient.events = s.ambient.events := by
  refine h.preserves (R := fun u => u.ambient.events = s.ambient.events)
    rfl fun u v e he hstep hu => ?_
  cases hstep with
  | tell => exact he.elim
  | _ => exact hu

end Scene.Leads

/-- The same store, over an engine with the same contents and with the same clock. -/
structure Scene.Keeps (s t : Scene) : Prop where
  store : t.store = s.store
  contents : t.ambient.engine.contents = s.ambient.engine.contents
  readings : t.ambient.clock.readings = s.ambient.clock.readings

namespace Scene.Keeps

/-- A scene is what it was. -/
theorem refl (s : Scene) : Keeps s s := ⟨rfl, rfl, rfl⟩

/-- What is kept twice is kept. -/
theorem trans (s t u : Scene) (hst : Keeps s t) (htu : Keeps t u) : Keeps s u :=
  ⟨htu.store.trans hst.store, htu.contents.trans hst.contents, htu.readings.trans hst.readings⟩

end Scene.Keeps

/-- What only reads keeps the store and the contents. -/
theorem Scene.Leads.keeps {s t : Scene} (h : s.Leads Effect.Reads t) : s.Keeps t := by
  have halters : s.Leads (Effect.Alters fun _ => False) t := h.mono fun _ he => he.allowed
  refine ⟨halters.store_eq, ?_, h.readings_eq⟩
  refine h.preserves (R := fun u => u.ambient.engine.contents = s.ambient.engine.contents)
    rfl fun u v e he hstep hu => ?_
  cases hstep with
  | consult operation key =>
    obtain ⟨face, hrun | ⟨error, hrun⟩⟩ := Engine.consult_cases operation key u.ambient.engine
    all_goals
      rw [hrun]
      exact hu
  | put | delete => exact he.elim
  | _ => exact hu

/-- What only listens keeps them too. -/
theorem Scene.Leads.keeps_of_listens {s t : Scene} (h : s.Leads Effect.Listens t) : s.Keeps t :=
  (h.mono fun _ he => he.allowed : s.Leads Effect.Reads t).keeps

/-- A call that only reads keeps the store and the contents. -/
theorem Call.Respects.keeps {α : Type} {call : StoreCall α}
    (h : Respects (Scene.Leads Effect.Reads) call) : Respects Scene.Keeps call :=
  fun s => (h s).keeps

/-- A call has every greater footprint as well. -/
theorem Call.Respects.mono {α : Type} {call : StoreCall α} {P Q : Effect → Prop}
    (h : Respects (Scene.Leads P) call) (hPQ : ∀ e, P e → Q e) :
    Respects (Scene.Leads Q) call :=
  fun s => (h s).mono hPQ

/-! ## Calls of the engine -/

/-- Changes of the footprint lead from some surroundings to others, whatever the store is. -/
def Ambient.Leads (P : Effect → Prop) (s t : Ambient) : Prop :=
  ∀ store : Store, Scene.Leads P ⟨store, s⟩ ⟨store, t⟩

/-- Changes of the footprint lead from one engine to the other, whatever surrounds it. -/
def Engine.Leads (P : Effect → Prop) (e f : Engine) : Prop :=
  ∀ s : Ambient, Ambient.Leads P { s with engine := e } { s with engine := f }

variable {P : Effect → Prop}

open Effect (AllowsListening AllowsReading)

namespace Engine

/-- No change leads nowhere. -/
theorem Leads.refl (e : Engine) : e.Leads P e := fun _ _ => Scene.Leads.refl _

/-- Changes that follow one another are changes of the same footprint. -/
theorem Leads.trans (e f g : Engine) (hef : e.Leads P f) (hfg : f.Leads P g) : e.Leads P g :=
  fun s store => Scene.Leads.trans _ _ _ (hef s store) (hfg s store)

variable {α : Type}

/-- A value changes nothing. -/
theorem leads_pure (x : α) : Respects (Leads P) (pure x : EngineCall α) :=
  Respects.pure Leads.refl x

/-- A chain of calls has the footprint that all of them have. -/
theorem leads_bind {β : Type} {x : EngineCall α} {f : α → EngineCall β}
    (hx : Respects (Leads P) x) (hf : ∀ y, Respects (Leads P) (f y)) :
    Respects (Leads P) (x >>= f) :=
  Respects.bind Leads.trans hx hf

/-- Asking the fault plan does nothing else. -/
theorem leads_consult [AllowsListening P] (operation : Operation) (key : String) :
    Respects (Leads P) (consult operation key) :=
  fun _ _ _ => Scene.Leads.single AllowsListening.consult (.consult operation key)

/-- A look at the contents asks the fault plan. -/
theorem leads_inspect [AllowsListening P] (operation : Operation) (key : String)
    (f : Contents → Except StorageError α) :
    Respects (Leads P) (do consult operation key; inspect f) := by
  refine leads_bind (leads_consult operation key) fun _ e => ?_
  have hsame : Call.after (inspect f e) = e := by
    unfold inspect
    split
    · cases f e.contents <;> rfl
    · rfl
  rw [hsame]
  exact Leads.refl e

/-- A change of the contents asks the fault plan first. -/
theorem leads_update [AllowsListening P] (operation : Operation) (key : String)
    {f : Contents → Except StorageError (α × Contents)}
    (hf : ∀ e x contents, f (Engine.contents e) = .ok (x, contents) →
      e.Leads P { e with contents }) :
    Respects (Leads P) (do consult operation key; update f) := by
  refine leads_bind (leads_consult operation key) fun _ e => ?_
  unfold update
  split
  · cases hcall : f e.contents with
    | ok x => exact hf e x.1 x.2 hcall
    | error error => exact Leads.refl e
  · exact Leads.refl e

/-- A call that depends on the face of the engine has the footprint of both ways. -/
theorem leads_byFace {x y : EngineCall α} (hx : Respects (Leads P) x)
    (hy : Respects (Leads P) y) : Respects (Leads P) (byFace x y) := by
  intro e
  unfold byFace
  split
  · exact hx e
  · exact hy e

/-- Reading a key asks the fault plan and changes nothing. -/
theorem leads_get [AllowsListening P] (key : String) :
    Respects (Leads P) (get key) :=
  leads_inspect .get key _

/-- Writing a key binds it, and binds no other. -/
theorem leads_put [AllowsListening P] (key : String) (value : Bytes) (hkey : P (.put key)) :
    Respects (Leads P) (put key value) := by
  refine leads_update .put key fun e x contents hcall => ?_
  simp only [Except.ok.injEq, Prod.mk.injEq] at hcall
  rw [← hcall.2]
  exact fun _ _ => Scene.Leads.single hkey (.put key value)

/-- Deleting a key removes it, and removes no other. -/
theorem leads_delete [AllowsListening P] (key : String) (hkey : P (.delete key)) :
    Respects (Leads P) (delete key) :=
  leads_update .delete key fun _ _ _ hcall _ _ => Scene.Leads.single hkey (.delete hcall)

/-- Reading a page changes nothing, whether it has values or keys only. -/
theorem leads_scan [AllowsListening P] (stem : String) (after : Option String) (limit : Nat) :
    Respects (Leads P) (scan stem after limit) :=
  leads_inspect .scan stem _

/-- An engine without a call for keys reads values in their place. -/
theorem leads_scanKeys [AllowsListening P] (stem : String) (after : Option String)
    (limit : Nat) : Respects (Leads P) (scanKeys stem after limit) :=
  leads_byFace (leads_bind (leads_scan stem after limit) fun _ => leads_pure _)
    (leads_inspect .scanKeys stem _)

/-- Reading the last entry changes nothing. -/
theorem leads_last [AllowsListening P] (stem : String) :
    Respects (Leads P) (last stem) :=
  leads_inspect .last stem _

/-- An engine without a call for that reads the value to see whether a key is bound. -/
theorem leads_exists? [AllowsListening P] (key : String) :
    Respects (Leads P) (exists? key) :=
  leads_byFace (leads_bind (leads_get key) fun _ => leads_pure _)
    (leads_inspect .exists key _)

end Engine

/-! ## Calls of the barrier -/

namespace Ambient

/-- No change leads nowhere. -/
theorem Leads.refl (s : Ambient) : s.Leads P s := fun _ => Scene.Leads.refl _

/-- Changes that follow one another are changes of the same footprint. -/
theorem Leads.trans (s t u : Ambient) (hst : s.Leads P t) (htu : t.Leads P u) : s.Leads P u :=
  fun store => Scene.Leads.trans _ _ _ (hst store) (htu store)

end Ambient

namespace Barrier

variable {α β : Type}

/-- A value changes nothing. -/
theorem leads_pure (x : α) : Respects (Ambient.Leads P) (pure x : BarrierCall α) :=
  Respects.pure Ambient.Leads.refl x

/-- A chain of calls has the footprint that all of them have. -/
theorem leads_bind {x : BarrierCall α} {f : α → BarrierCall β}
    (hx : Respects (Ambient.Leads P) x) (hf : ∀ y, Respects (Ambient.Leads P) (f y)) :
    Respects (Ambient.Leads P) (x >>= f) :=
  Respects.bind Ambient.Leads.trans hx hf

/-- A call of the engine does to what surrounds it what it does to the engine. -/
theorem leads_onEngine {call : EngineCall α} (h : Respects (Engine.Leads P) call) :
    Respects (Ambient.Leads P) (onEngine call) := by
  intro s
  have hcall := h s.engine s
  cases hrun : call s.engine with
  | ok x e =>
    rw [onEngine_ok hrun]
    rwa [hrun] at hcall
  | error error e =>
    rw [onEngine_error hrun]
    rwa [hrun] at hcall

/-- Decryption changes nothing. -/
theorem leads_decrypt (a : Aead) (ciphertext : Bytes) :
    Respects (Ambient.Leads P) (decrypt a ciphertext) := by
  unfold decrypt
  split
  · exact leads_pure _
  · exact Respects.throw Ambient.Leads.refl _

/-- Encryption draws random octets, whether or not it succeeds. -/
theorem leads_encrypt [AllowsReading P] (a : Aead) (plaintext : Bytes) :
    Respects (Ambient.Leads P) (encrypt a plaintext) := by
  intro s store
  unfold encrypt
  split
  · exact Scene.Leads.single AllowsReading.draw (.draw _)
  · exact Scene.Leads.single AllowsReading.draw (.draw _)

/-- A value is read and decrypted. -/
theorem leads_get [AllowsListening P] (a : Aead) (key : String) :
    Respects (Ambient.Leads P) (get a key) := by
  refine leads_bind (leads_onEngine (Engine.leads_get key)) fun x => ?_
  cases x with
  | none => exact leads_pure none
  | some c => exact leads_bind (leads_decrypt a c) fun _ => leads_pure _

/-- A plaintext is encrypted, and its ciphertext is bound to the key. -/
theorem leads_put [AllowsReading P] (a : Aead) (key : String) (plaintext : Bytes)
    (hkey : P (.put key)) : Respects (Ambient.Leads P) (put a key plaintext) :=
  leads_bind (leads_encrypt a plaintext) fun c =>
    leads_onEngine (Engine.leads_put key c hkey)

/-- A key is deleted by the engine. -/
theorem leads_delete [AllowsListening P] (key : String) (hkey : P (.delete key)) :
    Respects (Ambient.Leads P) (delete key) :=
  leads_onEngine (Engine.leads_delete key hkey)

/-- The engine is asked whether a key is bound. -/
theorem leads_exists? [AllowsListening P] (key : String) :
    Respects (Ambient.Leads P) (exists? key) :=
  leads_onEngine (Engine.leads_exists? key)

/-- A page of entries is read by the engine. -/
theorem leads_scan [AllowsListening P] (stem : String) (after : Option String) (limit : Nat) :
    Respects (Ambient.Leads P) (scan stem after limit) :=
  leads_onEngine (Engine.leads_scan stem after limit)

/-- A page of keys is read by the engine. -/
theorem leads_scanKeys [AllowsListening P] (stem : String) (after : Option String)
    (limit : Nat) : Respects (Ambient.Leads P) (scanKeys stem after limit) :=
  leads_onEngine (Engine.leads_scanKeys stem after limit)

/-- The last entry is read and decrypted. -/
theorem leads_last [AllowsListening P] (a : Aead) (stem : String) :
    Respects (Ambient.Leads P) (last a stem) := by
  refine leads_bind (leads_onEngine (Engine.leads_last stem)) fun x => ?_
  cases x with
  | none => exact leads_pure none
  | some e => exact leads_bind (leads_decrypt a e.2) fun _ => leads_pure _

end Barrier

/-! ## Calls of a store -/

namespace StoreCall

variable {α β : Type}

/-- A value changes nothing. -/
theorem leads_pure (x : α) : Respects (Scene.Leads P) (pure x : StoreCall α) :=
  Respects.pure Scene.Leads.refl x

/-- A failure changes nothing. -/
theorem leads_throw (e : StoreError) : Respects (Scene.Leads P) (throw e : StoreCall α) :=
  Respects.throw Scene.Leads.refl e

/-- A chain of calls has the footprint that all of them have. -/
theorem leads_bind {x : StoreCall α} {f : α → StoreCall β} (hx : Respects (Scene.Leads P) x)
    (hf : ∀ y, Respects (Scene.Leads P) (f y)) : Respects (Scene.Leads P) (x >>= f) :=
  Respects.bind Scene.Leads.trans hx hf

/-- A boundary is counted, whether or not it stops the call. -/
theorem leads_boundary [AllowsListening P] (ctx : Context) :
    Respects (Scene.Leads P) (boundary ctx) := by
  intro s
  unfold boundary
  dsimp only
  cases ctx.verdict s.ambient.boundaries <;> exact Scene.Leads.single AllowsListening.pass .pass

/-- Looking up the session changes nothing. -/
theorem leads_openSession : Respects (Scene.Leads P) openSession := by
  intro s
  unfold openSession
  cases s.store.session <;> exact Scene.Leads.refl s

/-- Telling an event adds it to the log. -/
theorem leads_tell [AllowsReading P] (e : Event) :
    Respects (Scene.Leads P) (tell e) :=
  fun _ => Scene.Leads.single AllowsReading.tell (.tell e)

/-- Reading the clock takes one reading. -/
theorem leads_now [AllowsListening P] : Respects (Scene.Leads P) now :=
  fun _ => Scene.Leads.single AllowsListening.tick .tick

/-- A failure is told if its record is misplaced. -/
theorem leads_fail [AllowsReading P] (e : StoreError) :
    Respects (Scene.Leads P) (fail e : StoreCall α) := by
  unfold fail
  split
  · exact leads_bind (leads_tell _) fun _ => leads_throw _
  · exact leads_throw _

/-- A record that cannot be decoded is told if it is misplaced. -/
theorem leads_decode [AllowsReading P] (path : String) (plaintext : Bytes) :
    Respects (Scene.Leads P) (decode path plaintext) := by
  unfold decode
  split
  · exact leads_pure _
  · exact leads_fail _

/-- Refusing the root changes nothing. -/
theorem leads_writable (raw : String) : Respects (Scene.Leads P) (writable raw) := by
  unfold writable
  split
  · exact leads_throw _
  · exact leads_pure _

/-- What is to write at a path has a footprint if it has it below the root; at the root it does
nothing. -/
theorem leads_writing {raw : String} {f : String → StoreCall α}
    (hf : Path.isRoot raw = false → Respects (Scene.Leads P) (f (Path.normalize raw))) :
    Respects (Scene.Leads P) (writable raw >>= f) := by
  intro s
  unfold writable
  cases hroot : Path.isRoot raw with
  | true => exact Scene.Leads.refl s
  | false => exact hf hroot s

/-- A call of the barrier does to the scene what it does to what surrounds the store. -/
theorem leads_onBarrier {path : String} {call : BarrierCall α}
    (h : Respects (Ambient.Leads P) call) : Respects (Scene.Leads P) (onBarrier path call) := by
  intro s
  have hcall := h s.ambient s.store
  unfold onBarrier
  cases hrun : call s.ambient with
  | ok x t => rwa [hrun] at hcall
  | error e t => rwa [hrun] at hcall

/-- A record is read, and told if it is damaged. -/
theorem leads_readRecord [AllowsReading P] (a : Aead) (path : String) :
    Respects (Scene.Leads P) (readRecord a path) := by
  have hrecord : Respects (Scene.Leads P) (onRecord path (Barrier.get a path)) := by
    intro s
    have hcall : s.Leads P (Call.after (onBarrier path (Barrier.get a path) s)) :=
      leads_onBarrier (Barrier.leads_get a path) s
    unfold onRecord
    split
    · rename_i hrun
      rwa [hrun] at hcall
    · rename_i hrun
      rw [hrun] at hcall
      split
      · exact Scene.Leads.trans _ _ _ hcall (.single AllowsReading.tell (.tell _))
      · exact hcall
  refine leads_bind hrecord fun x => ?_
  cases x with
  | none => exact leads_pure none
  | some plaintext =>
    exact leads_bind (leads_decode path plaintext) fun _ => leads_pure _

/-- Writing a record binds its path, and binds no other key. -/
theorem leads_writeRecord [AllowsReading P] (a : Aead) (r : Record) (hpath : P (.put r.path)) :
    Respects (Scene.Leads P) (writeRecord a r) :=
  leads_onBarrier (Barrier.leads_put a r.path r.toBytes hpath)

/-- Finding where a batch starts changes nothing. -/
theorem leads_batchStart (path : String) (x : Option Record) :
    Respects (Scene.Leads P) (Store.batchStart path x) := by
  cases x with
  | none => exact leads_pure 0
  | some r =>
    unfold Store.batchStart
    dsimp only
    split
    · exact leads_pure _
    · exact leads_throw _

/-- Before a store opens, only a boundary is passed. -/
theorem leads_prepare [AllowsListening P] (ctx : Context) :
    Respects (Scene.Leads P) (Store.prepare ctx) := by
  refine leads_bind (leads_boundary ctx) fun _ s => ?_
  unfold Store.ensureClosed
  cases s.store.session <;> exact Scene.Leads.refl s

/-- Opening a store starts a session, which is told. -/
theorem leads_install [AllowsReading P] (a : Aead) (h : P .install) :
    Respects (Scene.Leads P) (Store.install a) :=
  fun _ => Scene.Leads.trans _ _ _ (.single h (.install a)) (.single AllowsReading.tell (.tell _))

/-- Keeping a cursor changes the session. -/
theorem leads_keepCursor (path : String) (cursor : Cursor) (h : P .keepCursor) :
    Respects (Scene.Leads P) (Store.keepCursor path cursor) :=
  fun _ => Scene.Leads.single h (.keepCursor path cursor)

end StoreCall

end Strongbox
