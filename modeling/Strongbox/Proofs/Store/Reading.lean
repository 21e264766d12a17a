import Mathlib.Data.List.Forall2
import Strongbox.Store.Collections
import Strongbox.Store.Documents
import Strongbox.Store.Listing
import Strongbox.Proofs.Entries
import Strongbox.Proofs.Store.Records

/-!
# Operations that only read

Operations that only read keep the store and the contents of the engine, and every document
that they return is read from an entry that the engine holds or that a listing has read
from it before.
-/

set_option autoImplicit false

namespace Strongbox

open Call (Respects)

/-- The document that the value of an entry holds, if its record names the key. -/
def Entry.Reads (a : Aead) (e : Entry) (d : Document) : Prop :=
  ∃ p r, Stream.decrypt a e.2 = .ok p ∧ Record.ofBytes e.1 p = .ok r ∧ r.toDocument = d

/-! ## The barrier -/

namespace Barrier

/-- A decryption that succeeds gives the plaintext of the stream. -/
theorem decrypt_eq_ok {a : Aead} {ciphertext plaintext : Bytes} {s t : Ambient}
    (h : decrypt a ciphertext s = .ok plaintext t) :
    Stream.decrypt a ciphertext = .ok plaintext := by
  cases hdecrypt : Stream.decrypt a ciphertext with
  | ok p =>
    rw [decrypt_ok hdecrypt] at h
    injection h with h
    rw [h]
  | error cause =>
    rw [decrypt_error hdecrypt] at h
    exact absurd h (by simp)

/-- The last entry is that of the engine, decrypted. -/
theorem exists_of_last {a : Aead} {stem key : String} {plaintext : Bytes} {s t : Ambient}
    (h : last a stem s = .ok (some (key, plaintext)) t) :
    ∃ c e, Engine.last stem s.engine = .ok (some (key, c)) e ∧
      Stream.decrypt a c = .ok plaintext := by
  obtain ⟨x, u, hengine, hrest⟩ := Call.exists_of_bind_ok h
  cases hlast : Engine.last stem s.engine with
  | error error e =>
    rw [onEngine_error hlast] at hengine
    exact absurd hengine (by simp)
  | ok y e =>
    rw [onEngine_ok hlast] at hengine
    injection hengine with hsame
    rw [← hsame] at hrest
    cases y with
    | none =>
      injection hrest with hnone
      exact absurd hnone (by simp)
    | some entry =>
      obtain ⟨p, v, hdecrypt, hpure⟩ := Call.exists_of_bind_ok hrest
      injection hpure with hpure
      injection hpure with hpure
      injection hpure with hkey hplain
      refine ⟨entry.2, e, ?_, ?_⟩
      · rw [← hkey]
      · rw [← hplain]
        exact decrypt_eq_ok hdecrypt

end Barrier

/-! ## Single documents -/

/-- What the engine holds behind a call that only reads, it held before. -/
theorem Scene.Keeps.holds {s t : Scene} (h : s.Keeps t) {key : String} {c : Bytes}
    (hc : t.ambient.engine.Holds key c) : s.ambient.engine.Holds key c := by
  unfold Engine.Holds at hc ⊢
  rw [← h.contents]
  exact hc

namespace StoreCall

/-- A barrier call that succeeds in the store succeeded in the barrier. -/
theorem onBarrier_eq_ok {α : Type} {path : String} {call : BarrierCall α} {s t : Scene} {x : α}
    (h : onBarrier path call s = .ok x t) : call s.ambient = .ok x t.ambient := by
  cases hrun : call s.ambient with
  | ok y ambient =>
    rw [onBarrier_ok hrun] at h
    injection h with hsame hscene
    rw [hsame, ← hscene]
  | error error ambient =>
    rw [onBarrier_error hrun] at h
    exact absurd h (by simp)

/-- A record that is read makes the document of an entry that the engine holds. -/
theorem exists_of_readRecord {a : Aead} {path : String} {s t : Scene} {r : Record}
    (h : readRecord a path s = .ok (some r) t) :
    ∃ c, s.ambient.engine.Holds path c ∧ Entry.Reads a (path, c) r.toDocument := by
  rcases Engine.cases_of_record? (record?_of_readRecord h) with
    ⟨hnone, -⟩ | ⟨c, p, r', hsome, hvalue, hdecrypt, hbytes⟩
  · exact absurd hnone (by simp)
  · injection hsome with hsome
    subst hsome
    exact ⟨c, Contents.holds_of_value? hvalue, p, r, hdecrypt, hbytes, rfl⟩

end StoreCall

namespace Store

open StoreCall

/-- `exists?` only reads. -/
theorem leads_exists? (ctx : Context) (raw : String) :
    Respects (Scene.Leads Effect.Reads) (exists? ctx raw) :=
  leads_bind (leads_boundary ctx) fun _ => leads_bind leads_openSession fun _ =>
    leads_onBarrier (Barrier.leads_exists? _)

/-- `get` only reads. -/
theorem leads_get (ctx : Context) (raw : String) :
    Respects (Scene.Leads Effect.Reads) (get ctx raw) :=
  leads_bind (leads_boundary ctx) fun _ => leads_bind leads_openSession fun _ =>
    leads_bind (leads_readRecord _ _) fun _ => leads_pure _

/-- The document of a path is that of an entry with the path as its key. -/
theorem exists_of_get {ctx : Context} {raw : String} {s t : Scene} {d : Document}
    (h : get ctx raw s = .ok (some d) t) :
    ∃ session c, s.store.session = some session ∧
      s.ambient.engine.Holds (Path.normalize raw) c ∧
      Entry.Reads session.cipher (Path.normalize raw, c) d := by
  obtain ⟨session, u, hsession, hu, hrest⟩ := exists_of_opened h
  obtain ⟨x, v, hread, hpure⟩ := Call.exists_of_bind_ok hrest
  injection hpure with hpure
  cases x with
  | none => exact absurd hpure (by simp)
  | some r =>
    injection hpure with hpure
    obtain ⟨c, hc, hreads⟩ := exists_of_readRecord hread
    rw [hpure] at hreads
    exact ⟨session, c, hsession, hu.holds hc, hreads⟩

/-- Reading paths in turn only reads. -/
theorem leads_getEach (ctx : Context) (a : Aead) (paths : List String) :
    Respects (Scene.Leads Effect.Reads) (getEach ctx a paths) := by
  induction paths with
  | nil => exact leads_pure []
  | cons raw rest ih =>
    refine leads_bind (leads_boundary ctx) fun _ =>
      leads_bind (leads_readRecord a _) fun x => leads_bind ih fun ds => ?_
    cases x with
    | none => exact leads_pure ds
    | some r => exact leads_pure (r.toDocument :: ds)

/-- `getAll` only reads. -/
theorem leads_getAll (ctx : Context) (paths : List String) :
    Respects (Scene.Leads Effect.Reads) (getAll ctx paths) :=
  leads_bind (leads_boundary ctx) fun _ => leads_bind leads_openSession fun session =>
    leads_getEach ctx session.cipher paths

/-- The documents of several paths are those of entries with some of the paths as their keys,
in order. -/
theorem exists_of_getEach {ctx : Context} {a : Aead} {paths : List String} {s t : Scene}
    {ds : List Document} (h : getEach ctx a paths s = .ok ds t) :
    ∃ keys, keys.Sublist (paths.map Path.normalize) ∧
      List.Forall₂ (fun key d => ∃ c, s.ambient.engine.Holds key c ∧ Entry.Reads a (key, c) d)
        keys ds := by
  induction paths generalizing s t ds with
  | nil =>
    injection h with h
    rw [← h]
    exact ⟨[], List.Sublist.refl [], .nil⟩
  | cons raw rest ih =>
    obtain ⟨_, u, hboundary, hrest⟩ := Call.exists_of_bind_ok h
    obtain ⟨x, v, hread, hrest⟩ := Call.exists_of_bind_ok hrest
    obtain ⟨ds', w, heach, hpure⟩ := Call.exists_of_bind_ok hrest
    have hu := (leads_boundary ctx).keeps.ok hboundary
    have hv := Scene.Keeps.trans _ _ _ hu ((leads_readRecord a _).keeps.ok hread)
    obtain ⟨keys, hsub, hall⟩ := ih heach
    have hall : List.Forall₂
        (fun key d => ∃ c, s.ambient.engine.Holds key c ∧ Entry.Reads a (key, c) d) keys ds' :=
      hall.imp fun key d ⟨c, hc, hreads⟩ => ⟨c, hv.holds hc, hreads⟩
    cases x with
    | none =>
      injection hpure with hpure
      rw [← hpure]
      exact ⟨keys, hsub.cons _, hall⟩
    | some r =>
      injection hpure with hpure
      rw [← hpure]
      obtain ⟨c, hc, hreads⟩ := exists_of_readRecord hread
      exact ⟨Path.normalize raw :: keys, hsub.cons_cons _, .cons ⟨c, hu.holds hc, hreads⟩ hall⟩

/-- Every document that `getAll` answers is read from what the engine holds under its path. -/
theorem exists_of_getAll {ctx : Context} {paths : List String} {s t : Scene}
    {ds : List Document} (h : getAll ctx paths s = .ok ds t) :
    ∃ session keys, s.store.session = some session ∧
      keys.Sublist (paths.map Path.normalize) ∧
      List.Forall₂ (fun key d => ∃ c, s.ambient.engine.Holds key c ∧
        Entry.Reads session.cipher (key, c) d) keys ds := by
  obtain ⟨session, u, hsession, hu, heach⟩ := exists_of_opened h
  obtain ⟨keys, hsub, hall⟩ := exists_of_getEach heach
  exact ⟨session, keys, hsession, hsub,
    hall.imp fun key d ⟨c, hc, hreads⟩ => ⟨c, hu.holds hc, hreads⟩⟩

/-- `last` only reads. -/
theorem leads_last (ctx : Context) (stem : String) :
    Respects (Scene.Leads Effect.Reads) (last ctx stem) := by
  refine leads_bind (leads_boundary ctx) fun _ => leads_bind leads_openSession fun session =>
    leads_bind (leads_onBarrier (Barrier.leads_last session.cipher _)) fun x => ?_
  cases x with
  | none => exact leads_pure none
  | some entry => exact leads_bind (leads_decode entry.1 entry.2) fun r => leads_pure _

/-- The last document is that of the last entry of the engine. -/
theorem exists_of_last {ctx : Context} {stem : String} {s t : Scene} {d : Document}
    (h : last ctx stem s = .ok (some d) t) :
    ∃ session key c, s.store.session = some session ∧
      s.ambient.engine.contents.last (Path.anchored stem) = .ok (some (key, c)) ∧
      Entry.Reads session.cipher (key, c) d := by
  obtain ⟨session, u, hsession, hu, hrest⟩ := exists_of_opened h
  obtain ⟨x, v, hlast, hrest⟩ := Call.exists_of_bind_ok hrest
  cases x with
  | none =>
    injection hrest with hnone
    exact absurd hnone (by simp)
  | some entry =>
    obtain ⟨key, plaintext⟩ := entry
    obtain ⟨r, z, hdecode, hpure⟩ := Call.exists_of_bind_ok hrest
    injection hpure with hpure
    injection hpure with hpure
    obtain ⟨c, e, hengine, hdecrypt⟩ := Barrier.exists_of_last (onBarrier_eq_ok hlast)
    have hcontents := Engine.last_eq_ok hengine
    rw [hu.contents] at hcontents
    exact ⟨session, key, c, hsession, hcontents, plaintext, r, hdecrypt, decode_eq_ok hdecode,
      hpure⟩

end Store

end Strongbox
