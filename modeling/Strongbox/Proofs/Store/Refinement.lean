import Strongbox.Proofs.Cipher.Galois
import Strongbox.Proofs.Store.Records
import Strongbox.Proofs.Store.Reference

/-!
# A fleet is a map

The stores of a fleet that are opened with one key answer together like one map from paths
to versions of documents.  The invariant is `Mirrors`: the engine holds, under exactly the
paths of the map, ciphertexts of the records of their versions.  One operation after the
other keeps it and answers as the map does; the top statement is
`Fleet.answers_eq_reference`.
-/

set_option autoImplicit false

namespace Strongbox

open Time (Instant)

/-- All raw paths of slashes alone name the root. -/
theorem Path.normalize_of_isRoot {raw : String} (h : isRoot raw = true) :
    normalize raw = root := by
  unfold isRoot at h
  unfold normalize
  rw [List.isEmpty_iff.1 h]
  rfl

/-! ## Versions that read back -/

/-- The union of fields that read back does, too. -/
theorem Fields.ReadsBack.union {older newer : Fields} (hold : older.ReadsBack)
    (hnew : newer.ReadsBack) : (older.union newer).ReadsBack := by
  rw [← merge_eq_union hold.1.1 hnew.1.1]
  exact ⟨hold.1.merge hnew.1, Json.Value.depth_merge_le hold.2 hnew.2⟩

/-- What is kept of a time reads back from the time stamp of that time. -/
structure Time.Instant.IsKept (keep : Instant → Instant) (t : Instant) : Prop where
  isProper : (keep t).IsProper
  stamp : (keep t).stamp = t.stamp

namespace Version

/-- The record of the version reads back under every path. -/
structure IsSound (v : Version) : Prop where
  fields : v.fields.ReadsBack
  createdAt : v.createdAt.IsProper
  updatedAt : v.updatedAt.IsProper

/-- The bytes of a sound version read back as its record. -/
theorem IsSound.ofBytes {v : Version} (h : v.IsSound) (path : String) :
    Record.ofBytes path (v.toRecord path).toBytes = .ok (v.toRecord path) := by
  have hreads : (v.toRecord path).ReadsBack :=
    Record.readsBack_of_isProper h.fields h.createdAt h.updatedAt
  exact hreads.ofBytes

/-- What is kept of the version is what is read from its record. -/
structure IsKept (keep : Instant → Instant) (v : Version) : Prop where
  fields : v.fields.ReadsBack
  createdAt : v.createdAt.IsKept keep
  updatedAt : v.updatedAt.IsKept keep

variable {keep : Instant → Instant} {fields : Fields} {time : Instant} {v : Version}

/-- What is kept of a version is sound. -/
theorem IsKept.isSound (h : v.IsKept keep) : (v.kept keep).IsSound :=
  ⟨h.fields, h.createdAt.isProper, h.updatedAt.isProper⟩

/-- The bytes of a version are those of what is kept of it. -/
theorem IsKept.toBytes (h : v.IsKept keep) (path : String) :
    ((v.kept keep).toRecord path).toBytes = (v.toRecord path).toBytes :=
  Record.toBytes_congr h.createdAt.stamp h.updatedAt.stamp

/-- A first version is kept where its fields read back and its time is kept. -/
theorem isKept_first (hfields : fields.ReadsBack) (htime : time.IsKept keep) :
    (first fields time).IsKept keep :=
  ⟨hfields, htime, htime⟩

/-- The version after a sound one is kept where the new fields and the new time are. -/
theorem IsSound.isKept_next (h : v.IsSound) (mode : WriteMode) (hfields : fields.ReadsBack)
    (htime : time.IsKept keep) (hkeep : ∀ t : Instant, t.IsProper → t.IsKept keep) :
    (v.next mode fields time).IsKept keep := by
  have hcreated := hkeep v.createdAt h.createdAt
  refine ⟨?_, hcreated, ?_⟩
  · cases mode with
    | replace => exact hfields
    | merge => exact h.fields.union hfields
  · show (if time.IsBefore v.createdAt then v.createdAt else time).IsKept keep
    split
    · exact hcreated
    · exact htime

end Version

/-! ## Surroundings that mirror the map -/

/-- The engine holds under the paths of the map, and under no others, the encrypted records
of their versions, and the clock is that of the map, which keeps of every reading what its time
stamp shows. -/
structure Mirrors (a : Aead) (s : Ambient) (m : Reference) : Prop where
  isHealthy : s.engine.IsHealthy
  clock : s.clock = m.clock
  readings : ∀ i, (m.clock.readings i).IsKept m.keep
  proper : ∀ t : Instant, t.IsProper → t.IsKept m.keep
  absent : ∀ path, m.versions path = none → s.engine.value? path = none
  present : ∀ path v, m.versions path = some v → v.IsSound ∧
    ∃ c, s.engine.value? path = some c ∧ Stream.decrypt a c = .ok (v.toRecord path).toBytes

namespace Mirrors

variable {a : Aead} {s : Ambient} {m : Reference} (h : Mirrors a s m)

include h

/-- Mirroring depends on the engine, the clock and the map alone. -/
theorem congr {t : Ambient} {n : Reference} (hengine : t.engine = s.engine)
    (hclock : t.clock = s.clock) (hversions : n.versions = m.versions)
    (hclock' : n.clock = m.clock) (hkeep : n.keep = m.keep) : Mirrors a t n := by
  refine ⟨?_, ?_, ?_, ?_, ?_, ?_⟩
  · rw [hengine]
    exact h.isHealthy
  · rw [hclock, hclock', h.clock]
  · rw [hclock', hkeep]
    exact h.readings
  · rw [hkeep]
    exact h.proper
  · rw [hengine, hversions]
    exact h.absent
  · rw [hengine, hversions]
    exact h.present

/-- The engine holds a value exactly where the map holds a version. -/
theorem isSome_value? (path : String) :
    (s.engine.value? path).isSome = (m.versions path).isSome := by
  cases hfind : m.versions path with
  | none =>
    rw [h.absent path hfind]
    rfl
  | some v =>
    obtain ⟨-, c, hvalue, -⟩ := h.present path v hfind
    rw [hvalue]
    rfl

/-- The record that the engine holds is that of the map's version. -/
theorem record?_eq (path : String) :
    s.engine.record? a path = .ok ((m.versions path).map (Version.toRecord path)) := by
  cases hfind : m.versions path with
  | none =>
    unfold Engine.record? Engine.plaintext?
    rw [h.absent path hfind]
    rfl
  | some v =>
    obtain ⟨hsound, c, hvalue, hdecrypt⟩ := h.present path v hfind
    exact Engine.record?_of_decrypt hvalue hdecrypt (hsound.ofBytes path)

/-- The clock is read alike. -/
theorem read : Mirrors a { s with clock := s.clock.read.2 } { m with clock := m.clock.read.2 } := by
  refine ⟨h.isHealthy, ?_, h.readings, h.proper, h.absent, h.present⟩
  dsimp only
  rw [h.clock]

/-- A version that is bound in the map and written to the engine is found in both. -/
theorem insert {path : String} {v : Version} (hv : v.IsSound) {c : Bytes}
    (hc : Stream.decrypt a c = .ok (v.toRecord path).toBytes) (entropy : Entropy) :
    Mirrors a
      { s with
        engine := { s.engine with contents := s.engine.contents.put path c }
        entropy }
      (m.hold path (some v)) := by
  have hworkers : (s.engine.contents.put path c).usesWorkers = s.engine.contents.usesWorkers := by
    cases s.engine.contents <;> rfl
  refine ⟨h.isHealthy.withContents (h.isHealthy.isWhole.put path c) hworkers, h.clock,
    h.readings, h.proper, ?_, ?_⟩
  · intro other hfind
    show (s.engine.contents.put path c).value? other = none
    by_cases hsame : other = path
    · rw [hsame, Reference.hold_self] at hfind
      exact absurd hfind (by simp)
    · rw [Reference.hold_of_ne _ m hsame] at hfind
      rw [Contents.value?_put_of_ne _ c hsame]
      exact h.absent other hfind
  · intro other w hfind
    show w.IsSound ∧ ∃ d, (s.engine.contents.put path c).value? other = some d ∧ _
    by_cases hsame : other = path
    · subst hsame
      rw [Reference.hold_self] at hfind
      injection hfind with hfind
      subst hfind
      exact ⟨hv, c, Contents.value?_put_self _ other c, hc⟩
    · rw [Reference.hold_of_ne _ m hsame] at hfind
      rw [Contents.value?_put_of_ne _ c hsame]
      exact h.present other w hfind

/-- A path that is deleted in both is found in neither. -/
theorem erase {path : String} {found : Bool} {contents : Contents}
    (hdelete : s.engine.contents.Deletes path found contents) :
    Mirrors a { s with engine := { s.engine with contents } }
      (m.hold path none) := by
  refine ⟨h.isHealthy.withContents (hdelete.isWhole h.isHealthy.isWhole) hdelete.usesWorkers,
    h.clock, h.readings, h.proper, ?_, ?_⟩
  · intro other hfind
    show contents.value? other = none
    by_cases hsame : other = path
    · rw [hsame]
      exact hdelete.value?_self
    · rw [Reference.hold_of_ne _ m hsame] at hfind
      rw [hdelete.value?_of_ne other hsame]
      exact h.absent other hfind
  · intro other w hfind
    show w.IsSound ∧ ∃ d, contents.value? other = some d ∧ _
    by_cases hsame : other = path
    · rw [hsame, Reference.hold_self] at hfind
      exact absurd hfind (by simp)
    · rw [Reference.hold_of_ne _ m hsame] at hfind
      rw [hdelete.value?_of_ne other hsame]
      exact h.present other w hfind

end Mirrors

/-! ## One operation -/

/-- The store in the scene is that of the place `i`, and it has the cipher of the fleet
while it is open. -/
structure Agrees (a : Aead) (i : Nat) (s : Scene) (m : Reference) : Prop where
  mirrors : Mirrors a s.ambient m
  isOpen : m.isOpen i = s.store.session.isSome
  cipher : ∀ session, s.store.session = some session → session.cipher = a

namespace Agrees

variable {a : Aead} {i : Nat} {s : Scene} {m : Reference} (h : Agrees a i s m)

include h

/-- Other surroundings of the same store that mirror another state of the map. -/
theorem withAmbient {ambient : Ambient} {n : Reference} (hmirrors : Mirrors a ambient n)
    (hopen : n.isOpen = m.isOpen) : Agrees a i { s with ambient } n := by
  refine ⟨hmirrors, ?_, h.cipher⟩
  rw [hopen]
  exact h.isOpen

/-- An event leaves a store in agreement with the map. -/
theorem tell (e : Event) : Agrees a i (s.tell e) m :=
  h.withAmbient (h.mirrors.congr rfl rfl rfl rfl rfl) rfl

end Agrees

/-- An operation of the store at the place `i` gives the answer `x` of the map and leaves
what the map then holds; the other stores stay open or closed. -/
structure Follows {α : Type} (a : Aead) (i : Nat) (m : Reference) (wrap : α → Answer)
    (r : EStateM.Result StoreError Scene α) (x : Except StoreError Answer × Reference) :
    Prop where
  answer : (Call.answer r).map wrap = x.1
  agrees : Agrees a i (Call.after r) x.2
  others : ∀ j, j ≠ i → x.2.isOpen j = m.isOpen j

/-- Telling of an operation behind it changes nothing the map speaks of. -/
theorem Follows.tell {α : Type} {a : Aead} {i : Nat} {m : Reference} {s : Scene}
    {call : StoreCall α} {x : Except StoreError Answer × Reference}
    (h : Follows a i m (fun _ => .done) (call s) x) (e : α → Event) :
    Follows a i m (fun _ => .done) ((call >>= fun y => StoreCall.tell (e y)) s) x := by
  cases hrun : call s with
  | ok y t =>
    rw [hrun] at h
    rw [Call.bind_ok hrun]
    exact ⟨h.answer, h.agrees.tell (e y), h.others⟩
  | error error t =>
    rw [hrun] at h
    rw [Call.bind_error hrun]
    exact ⟨h.answer, h.agrees, h.others⟩

namespace Agrees

variable {a : Aead} {i : Nat} {s : Scene} {m : Reference} (h : Agrees a i s m)

include h

/-- An answer or a failure that changes nothing the map speaks of. -/
theorem follows_ok {α : Type} {wrap : α → Answer} (x : α) :
    Follows a i m wrap (.ok x s) (.ok (wrap x), m) :=
  ⟨rfl, h, fun _ _ => rfl⟩

/-- A failure on both sides leaves them in agreement. -/
theorem follows_error {α : Type} {wrap : α → Answer} (e : StoreError) :
    Follows a i m wrap (.error e s : EStateM.Result StoreError Scene α) (.error e, m) :=
  ⟨rfl, h, fun _ _ => rfl⟩

section Chains

variable {α : Type} {wrap : α → Answer} {x : Except StoreError Answer × Reference}

/-- No boundary stops an operation without a deadline. -/
theorem follows_boundary {f : Unit → StoreCall α}
    (hf : ∀ t, Agrees a i t m → t.store = s.store → Follows a i m wrap (f () t) x) :
    Follows a i m wrap ((StoreCall.boundary .background >>= f) s) x := by
  have hrun : StoreCall.boundary .background s =
      .ok () { s with ambient :=
        { s.ambient with boundaries := s.ambient.boundaries + 1 } } := rfl
  rw [Call.bind_ok hrun]
  exact hf _ (h.withAmbient (h.mirrors.congr rfl rfl rfl rfl rfl) rfl) rfl

/-- An operation of an open store. -/
theorem follows_openSession {f : Session → StoreCall α}
    (hf : ∀ session, s.store.session = some session → session.cipher = a →
      Follows a i m wrap (f session s) x) :
    Follows a i m wrap ((StoreCall.openSession >>= f) s) (m.whenOpen i x) := by
  unfold Reference.whenOpen
  rw [h.isOpen]
  cases hsession : s.store.session with
  | none =>
    have hrun : StoreCall.openSession s = .error .notOpen s := by
      unfold StoreCall.openSession
      rw [hsession]
    rw [Call.bind_error hrun]
    exact h.follows_error .notOpen
  | some session =>
    have hrun : StoreCall.openSession s = .ok session s := by
      unfold StoreCall.openSession
      rw [hsession]
    rw [Call.bind_ok hrun]
    exact hf session hsession (h.cipher session hsession)

/-- An operation on a path other than the root. -/
theorem follows_path {raw : String} {f : String → StoreCall α}
    (hf : Follows a i m wrap (f (Path.normalize raw) s) x) :
    Follows a i m wrap ((StoreCall.writable raw >>= f) s)
      (if Path.isRoot raw then (.error (.invalidPath Path.root StoreCall.rootReason), m)
      else x) := by
  split
  · rename_i hroot
    rw [Call.bind_error (StoreCall.writable_of_isRoot hroot s), Path.normalize_of_isRoot hroot]
    exact h.follows_error _
  · rename_i hroot
    rw [Call.bind_ok (StoreCall.writable_of_not_isRoot hroot s)]
    exact hf

/-- An operation of an open store on a path other than the root. -/
theorem follows_writable {raw : String} {f : String → Session → StoreCall α}
    (hf : ∀ session, s.store.session = some session → session.cipher = a →
      Follows a i m wrap (f (Path.normalize raw) session s) x) :
    Follows a i m wrap
      ((do
        let path ← StoreCall.writable raw
        let session ← StoreCall.openSession
        f path session) s)
      (m.whenWritable i raw x) :=
  h.follows_path (h.follows_openSession hf)

end Chains

/-- A record is written as the map binds its version. -/
theorem follows_write {path : String} {v : Version} (ha : a.Lawful) (hv : v.IsKept m.keep)
    {e : Event} :
    Follows a i m (fun _ => .done)
      ((do
        StoreCall.writeRecord a (v.toRecord path)
        StoreCall.tell e : StoreCall Unit) s)
      (m.write path v) := by
  unfold Reference.write
  rcases StoreCall.writeRecord_of_isHealthy ha h.mirrors.isHealthy (v.toRecord path) with
    ⟨hfits, c, hdecrypt, hrun⟩ | ⟨hfits, hrun⟩
  · rw [if_pos (show v.Fits path from hfits), Call.bind_ok hrun]
    rw [← hv.toBytes] at hdecrypt
    exact ⟨rfl, (h.withAmbient (h.mirrors.insert hv.isSound hdecrypt _) rfl).tell e,
      fun _ _ => rfl⟩
  · rw [if_neg (show ¬ v.Fits path from hfits), Call.bind_error hrun]
    exact ⟨rfl, h.withAmbient (h.mirrors.congr rfl rfl rfl rfl rfl) rfl, fun _ _ => rfl⟩

/-! ### The operations in turn -/

/-- The presence check answers as the map does. -/
theorem run_exists? (path : String) :
    StoreCall.onBarrier path (Barrier.exists? path) s = .ok (m.versions path).isSome s := by
  rw [← h.mirrors.isSome_value? path]
  exact StoreCall.onBarrier_ok (Barrier.onEngine_ok (h.mirrors.isHealthy.exists? path))

/-- The record that is read is that of the map's version. -/
theorem run_readRecord (path : String) :
    StoreCall.readRecord a path s =
      .ok ((m.versions path).map (Version.toRecord path)) s :=
  StoreCall.readRecord_of_isHealthy h.mirrors.isHealthy (h.mirrors.record?_eq path)

/-- A deletion answers as the map does and leaves them in agreement. -/
theorem run_delete (path : String) :
    ∃ t, StoreCall.onBarrier path (Barrier.delete path) s =
        .ok (m.versions path).isSome t ∧
      t.store = s.store ∧ Agrees a i t (m.hold path none) := by
  obtain ⟨contents, hspec, hrun⟩ := h.mirrors.isHealthy.delete path
  rw [h.mirrors.isSome_value? path] at hspec hrun
  exact ⟨_, StoreCall.onBarrier_ok (Barrier.onEngine_ok hrun), rfl,
    h.withAmbient (h.mirrors.erase hspec) rfl⟩

/-- The clock shows the map's next reading. -/
theorem run_now :
    ∃ t, StoreCall.now s = .ok m.clock.read.1 t ∧ t.store = s.store ∧
      Agrees a i t { m with clock := m.clock.read.2 } := by
  rw [← h.mirrors.clock]
  refine ⟨_, rfl, rfl, h.withAmbient ?_ rfl⟩
  have hread := h.mirrors.read
  rw [← h.mirrors.clock] at hread
  exact hread

/-- `open` follows the map. -/
theorem follows_open :
    Follows a i m (fun _ => .done) (Store.openWith .background a s) (m.serve i .openStore) := by
  unfold Store.openWith Store.prepare
  simp only [bind_assoc]
  refine h.follows_boundary fun t ht _ => ?_
  show Follows a i m _ _ (if m.isOpen i then _ else _)
  rw [ht.isOpen]
  cases hsession : t.store.session with
  | some session =>
    have hrun : Store.ensureClosed t = .error .alreadyOpen t := by
      unfold Store.ensureClosed
      rw [hsession]
    rw [Call.bind_error hrun]
    exact ht.follows_error .alreadyOpen
  | none =>
    have hrun : Store.ensureClosed t = .ok () t := by
      unfold Store.ensureClosed
      rw [hsession]
    rw [Call.bind_ok hrun]
    refine ⟨rfl, ⟨ht.mirrors.congr rfl rfl rfl rfl rfl, ?_, ?_⟩, fun j hj => ?_⟩
    · show (if i = i then true else _) = true
      rw [if_pos rfl]
    · intro session hsome
      injection hsome with hsome
      rw [← hsome]
    · show (if j = i then true else _) = _
      rw [if_neg hj]

/-- `close` follows the map. -/
theorem follows_close :
    Follows a i m (fun _ => .done) (Store.close s) (m.serve i .closeStore) := by
  refine h.follows_openSession fun session hsession hcipher => ?_
  refine ⟨rfl, ⟨h.mirrors.congr rfl rfl rfl rfl rfl, ?_, ?_⟩, fun j hj => ?_⟩
  · show (if i = i then false else _) = false
    rw [if_pos rfl]
  · intro session hsome
    exact absurd hsome (by simp [Call.after, Scene.tell])
  · show (if j = i then false else _) = _
    rw [if_neg hj]

/-- `exists?` follows the map. -/
theorem follows_exists (raw : String) :
    Follows a i m .flag (Store.exists? .background raw s) (m.serve i (.exists raw)) := by
  refine h.follows_boundary fun t ht _ => ht.follows_openSession fun session _ _ => ?_
  rw [ht.run_exists?]
  exact ht.follows_ok _

omit h in

/-- The document of a version's record is the map's document. -/
theorem map_toDocument (m : Reference) (raw : String) :
    ((m.versions (Path.normalize raw)).map (Version.toRecord (Path.normalize raw))).map
      Record.toDocument = m.document? raw := by
  unfold Reference.document?
  rw [Option.map_map]
  rfl

/-- `get` follows the map. -/
theorem follows_get (raw : String) :
    Follows a i m .document (Store.get .background raw s) (m.serve i (.get raw)) := by
  refine h.follows_boundary fun t ht _ => ht.follows_openSession fun session _ hcipher => ?_
  subst hcipher
  rw [Call.bind_ok (ht.run_readRecord _), map_toDocument]
  exact ht.follows_ok _

omit h in
/-- The documents at several paths are those of the map, in order. -/
theorem run_getEach (paths : List String) {s : Scene} (h : Agrees a i s m) :
    ∃ t, Store.getEach .background a paths s = .ok (paths.filterMap m.document?) t ∧
      Agrees a i t m := by
  induction paths generalizing s with
  | nil => exact ⟨s, rfl, h⟩
  | cons raw paths ih =>
    have hboundary : StoreCall.boundary .background s = .ok () { s with ambient :=
        { s.ambient with boundaries := s.ambient.boundaries + 1 } } := rfl
    have hnext := h.withAmbient (h.mirrors.congr (t := { s.ambient with
      boundaries := s.ambient.boundaries + 1 }) rfl rfl rfl rfl rfl) rfl
    obtain ⟨t, hrest, ht⟩ := ih hnext
    refine ⟨t, ?_, ht⟩
    unfold Store.getEach
    rw [Call.bind_ok hboundary, Call.bind_ok (hnext.run_readRecord _), Call.bind_ok hrest,
      List.filterMap_cons, ← map_toDocument m raw]
    cases m.versions (Path.normalize raw) with
    | none => rfl
    | some v => rfl

/-- `getAll` follows the map. -/
theorem follows_getAll (paths : List String) :
    Follows a i m .documents (Store.getAll .background paths s) (m.serve i (.getAll paths)) := by
  refine h.follows_boundary fun t ht _ => ht.follows_openSession fun session _ hcipher => ?_
  subst hcipher
  obtain ⟨u, hrun, hu⟩ := ht.run_getEach paths
  rw [hrun]
  exact hu.follows_ok _

/-- `delete` follows the map. -/
theorem follows_delete (raw : String) :
    Follows a i m .flag (Store.delete .background raw s) (m.serve i (.delete raw)) := by
  refine h.follows_boundary fun t ht _ => ht.follows_writable fun session _ _ => ?_
  obtain ⟨u, hrun, -, hu⟩ := ht.run_delete (Path.normalize raw)
  rw [Call.bind_ok hrun]
  exact ⟨rfl, hu.tell _, fun _ _ => rfl⟩

omit h in
/-- The paths of a batch are deleted as in the map, up to the first that is the root. -/
theorem follows_deleteEach (paths : List String) (removed : Nat) {s : Scene} {m : Reference}
    (h : Agrees a i s m) :
    Follows a i m (fun _ => .done) (Store.deleteEach .background removed paths s)
      (m.deleteEach paths) := by
  induction paths generalizing s m removed with
  | nil => exact h.follows_ok removed
  | cons raw paths ih =>
    unfold Store.deleteEach Reference.deleteEach
    refine h.follows_boundary fun t ht _ => ht.follows_path ?_
    obtain ⟨u, hrun, -, hu⟩ := ht.run_delete (Path.normalize raw)
    have hrest := ih (if (m.versions (Path.normalize raw)).isSome then removed + 1 else removed) hu
    rw [Call.bind_ok hrun]
    exact ⟨hrest.answer, hrest.agrees, hrest.others⟩

/-- `deleteAll` follows the map. -/
theorem follows_deleteAll (paths : List String) :
    Follows a i m (fun _ => .done) (Store.deleteAll .background paths s)
      (m.serve i (.deleteAll paths)) := by
  refine h.follows_boundary fun t ht _ => ht.follows_openSession fun session _ _ => ?_
  exact (ht.follows_deleteEach paths 0).tell _

/-- The time of a write is taken from the clock of the map. -/
theorem follows_now {f : Instant → StoreCall Unit} {x : Except StoreError Answer × Reference}
    (hf : ∀ t, Agrees a i t { m with clock := m.clock.read.2 } → m.clock.read.1.IsKept m.keep →
      Follows a i { m with clock := m.clock.read.2 } (fun _ => .done) (f m.clock.read.1 t) x) :
    Follows a i m (fun _ => .done) ((StoreCall.now >>= f) s) x := by
  obtain ⟨t, hrun, -, ht⟩ := h.run_now
  have hrest := hf t ht (h.mirrors.readings m.clock.taken)
  rw [Call.bind_ok hrun]
  exact ⟨hrest.answer, hrest.agrees, hrest.others⟩

/-- `create` follows the map. -/
theorem follows_create (ha : a.Lawful) (raw : String) {fields : Fields}
    (hfields : fields.ReadsBack) :
    Follows a i m (fun _ => .done) (Store.create .background raw fields s)
      (m.serve i (.create raw fields)) := by
  refine h.follows_boundary fun t ht _ => ht.follows_writable fun session _ hcipher => ?_
  subst hcipher
  rw [Call.bind_ok (ht.run_exists? _)]
  cases m.versions (Path.normalize raw) with
  | some v => exact ht.follows_error _
  | none =>
    refine ht.follows_now fun u hu htime => ?_
    exact hu.follows_write ha (Version.isKept_first hfields htime)

omit h in
/-- A record is revised to that of the next version. -/
theorem revise_toRecord (mode : WriteMode) {fields : Fields} (time : Instant) (path : String)
    {v : Version} (hv : v.fields.ReadsBack) (hfields : fields.ReadsBack) :
    Store.revise mode fields time (v.toRecord path) = (v.next mode fields time).toRecord path := by
  unfold Store.revise Version.next Version.toRecord
  dsimp only
  rw [Instant.later_eq]
  cases mode with
  | replace => rfl
  | merge =>
    dsimp only [Store.WriteMode.apply]
    rw [Fields.merge_eq_union hv.1.1 hfields.1.1]

/-- `set` follows the map. -/
theorem follows_set (ha : a.Lawful) (raw : String) {fields : Fields}
    (hfields : fields.ReadsBack) (mode : WriteMode) :
    Follows a i m (fun _ => .done) (Store.set .background raw fields mode s)
      (m.serve i (.set raw fields mode)) := by
  refine h.follows_boundary fun t ht _ => ht.follows_writable fun session _ hcipher => ?_
  subst hcipher
  refine ht.follows_now fun u hu htime => ?_
  rw [Call.bind_ok (hu.run_readRecord _)]
  dsimp only
  cases hfind : m.versions (Path.normalize raw) with
  | none => exact hu.follows_write ha (Version.isKept_first hfields htime)
  | some v =>
    have hsound := (ht.mirrors.present _ v hfind).1
    rw [Option.map_some]
    dsimp only
    rw [revise_toRecord mode _ _ hsound.fields hfields]
    exact hu.follows_write ha (hsound.isKept_next mode hfields htime ht.mirrors.proper)

end Agrees

/-! ## A whole run -/

/-- Wrapping the answer of an operation changes nothing the map speaks of. -/
theorem Follows.wrapped {α : Type} {a : Aead} {i : Nat} {m : Reference} {s : Scene}
    {wrap : α → Answer} {call : StoreCall α} {x : Except StoreError Answer × Reference}
    (h : Follows a i m wrap (call s) x) :
    Follows a i m id ((call >>= fun y => pure (wrap y)) s) x := by
  cases hrun : call s with
  | ok y t =>
    rw [hrun] at h
    rw [Call.bind_ok hrun]
    exact ⟨h.answer, h.agrees, h.others⟩
  | error error t =>
    rw [hrun] at h
    rw [Call.bind_error hrun]
    exact ⟨h.answer, h.agrees, h.others⟩

/-- Every request is answered as the map answers it. -/
theorem Agrees.follows_call {a : Aead} {i : Nat} {s : Scene} {m : Reference} (h : Agrees a i s m)
    (ha : a.Lawful) {q : Request} (hq : q.FieldsReadBack) :
    Follows a i m id (q.call a s) (m.serve i q) := by
  cases q with
  | openStore => exact h.follows_open.wrapped
  | closeStore => exact h.follows_close.wrapped
  | create raw fields => exact (h.follows_create ha raw hq).wrapped
  | set raw fields mode => exact (h.follows_set ha raw hq mode).wrapped
  | delete raw => exact (h.follows_delete raw).wrapped
  | deleteAll paths => exact (h.follows_deleteAll paths).wrapped
  | get raw => exact (h.follows_get raw).wrapped
  | getAll paths => exact (h.follows_getAll paths).wrapped
  | «exists» raw => exact (h.follows_exists raw).wrapped

/-- Every store of the fleet is that of its place in the map. -/
def Fleet.Agrees (a : Aead) (f : Fleet) (m : Reference) : Prop :=
  ∀ i, Strongbox.Agrees a i (f.scene i) m

namespace Fleet.Agrees

variable {a : Aead} {f : Fleet} {m : Reference}

/-- One request to one of the stores. -/
theorem perform (h : f.Agrees a m) (ha : a.Lawful) (i : Nat) {q : Request}
    (hq : q.FieldsReadBack) :
    (f.perform i (q.call a)).1 = (m.serve i q).1 ∧
      (f.perform i (q.call a)).2.Agrees a (m.serve i q).2 := by
  have hcall := (h i).follows_call ha hq
  refine ⟨?_, fun j => ?_⟩
  · show Call.answer (q.call a (f.scene i)) = _
    rw [← hcall.answer]
    cases Call.answer (q.call a (f.scene i)) with
    | ok y => rfl
    | error e => rfl
  · unfold Fleet.perform
    dsimp only
    by_cases hsame : j = i
    · subst hsame
      rw [scene_withScene_self]
      exact hcall.agrees
    · -- the other stores see only what the engine holds now
      rw [scene_withScene_of_ne _ hsame]
      refine ⟨hcall.agrees.mirrors, ?_, (h j).cipher⟩
      rw [hcall.others j hsame]
      exact (h j).isOpen

/-- A run of requests, by induction on it. -/
theorem answers_eq (h : f.Agrees a m) (ha : a.Lawful) {requests : List (Nat × Request)}
    (hrequests : ∀ q ∈ requests, q.2.FieldsReadBack) :
    f.answers a requests = m.answers requests := by
  induction requests generalizing f m with
  | nil => rfl
  | cons q rest ih =>
    obtain ⟨i, q⟩ := q
    obtain ⟨hanswer, hagrees⟩ := h.perform ha i (hrequests _ List.mem_cons_self)
    unfold Fleet.answers Reference.answers
    dsimp only
    rw [hanswer, ih hagrees fun q hq => hrequests q (List.mem_cons_of_mem _ hq)]

end Fleet.Agrees

namespace Fleet

variable {f : Fleet} (hclosed : ∀ i, (f.stores i).session = none)
  (hhealthy : f.ambient.engine.IsHealthy) (hempty : f.ambient.engine.contents.size = 0)

include hclosed hhealthy hempty

/-- A fleet of closed stores over an empty engine agrees with the empty map. -/
theorem agrees_start (a : Aead) {keep : Instant → Instant}
    (hreadings : ∀ i, (f.ambient.clock.readings i).IsKept keep)
    (hproper : ∀ t : Instant, t.IsProper → t.IsKept keep) :
    f.Agrees a (Reference.start keep f.ambient.clock) := by
  intro i
  refine ⟨⟨hhealthy, rfl, hreadings, hproper, fun path _ => ?_, ?_⟩, ?_, ?_⟩
  · exact Contents.value?_of_size hempty path
  · intro path v hfind
    exact absurd (show none = some v from hfind) (by simp)
  · show false = (f.stores i).session.isSome
    rw [hclosed i]
    rfl
  · intro session hsession
    have hnone : (f.scene i).store.session = none := hclosed i
    rw [hnone] at hsession
    exact absurd hsession (by simp)

/-- A fleet of closed stores over an empty engine without faults answers every run of requests
as the map from normalized paths to versions does, whatever the clock reads.  The map keeps of
the times what their time stamps show: a leap second within a minute, which the text of a time
cannot express, shows as the second that follows.  Of readings that have none, as those of an
ordinary clock, the map keeps the times themselves. -/
theorem answers_eq_reference (k : Key) (hclock : f.ambient.clock.IsValid)
    (requests : List (Nat × Request)) (hrequests : ∀ q ∈ requests, q.2.FieldsReadBack) :
    f.answers k.cipher requests =
        (Reference.start Instant.shown f.ambient.clock).answers requests ∧
      (f.ambient.clock.IsProper → f.answers k.cipher requests =
        (Reference.start id f.ambient.clock).answers requests) := by
  refine ⟨Agrees.answers_eq ?_ k.lawful_cipher hrequests, fun hproper => Agrees.answers_eq ?_
    k.lawful_cipher hrequests⟩
  · have hshown : ∀ t : Instant, t.IsValid → t.IsKept Instant.shown := fun t ht =>
      ⟨Instant.isProper_shown ht, Instant.stamp_shown t⟩
    exact agrees_start hclosed hhealthy hempty _ (fun i => hshown _ (hclock i))
      fun t ht => hshown t ht.isValid
  · exact agrees_start hclosed hhealthy hempty _ (fun i => ⟨hproper i, rfl⟩)
      fun t ht => ⟨ht, rfl⟩

end Fleet

/-- What one of two stores creates the other one reads and deletes. -/
theorem Fleet.answers_of_two_stores :
    let f : Fleet := ⟨fun _ => .new .standard,
      { engine := default, clock := .standard, entropy := ⟨fun _ => 0, 0⟩ }⟩
    let time := Clock.standard.read.1
    let requests : List (Nat × Request) :=
      [(0, .openStore), (1, .openStore), (0, .create "a" []), (1, .get "/a/"), (1, .delete "a"),
        (0, .exists "a"), (2, .get "a")]
    (∀ i, (f.stores i).session = none) ∧ f.ambient.engine.IsHealthy ∧
      f.ambient.engine.contents.size = 0 ∧ f.ambient.clock.IsProper ∧
      (∀ q ∈ requests, q.2.FieldsReadBack) ∧
      f.answers (Key.uniform 7).cipher requests =
        [.ok .done, .ok .done, .ok .done, .ok (.document (some ⟨"/a", [], some time, some time⟩)),
          .ok (.flag true), .ok (.flag false), .error .notOpen] := by
  intro f time requests
  have hclosed : ∀ i, (f.stores i).session = none := fun _ => rfl
  have hhealthy : f.ambient.engine.IsHealthy := ⟨.inl rfl, rfl, trivial⟩
  have hempty : f.ambient.engine.contents.size = 0 := rfl
  have hclock : f.ambient.clock.IsProper := Clock.isProper_ticking _
  have hrequests : ∀ q ∈ requests, q.2.FieldsReadBack := by
    have hfields : Fields.ReadsBack [] := ⟨⟨List.Pairwise.nil, trivial⟩, by decide⟩
    simp [requests, Request.FieldsReadBack, hfields]
  refine ⟨hclosed, hhealthy, hempty, hclock, hrequests, ?_⟩
  rw [(Fleet.answers_eq_reference hclosed hhealthy hempty _ hclock.isValid requests hrequests).2
    hclock]
  have hraw : Path.normalize "a" = "/a" := by decide
  have hslashes : Path.normalize "/a/" = "/a" := by decide
  have hroot : Path.isRoot "a" = false := by decide
  have hfits : (Version.first [] time).Fits "/a" := by decide +kernel
  unfold time at hfits ⊢
  generalize hread : Clock.standard.read = r at hfits ⊢
  simp [requests, f, Reference.answers, Reference.serve, Reference.start, Reference.turn,
    Reference.whenOpen, Reference.whenWritable, Reference.write, Reference.document?, hraw,
    hslashes, hroot, Reference.hold, hread, hfits]
  rfl

end Strongbox
