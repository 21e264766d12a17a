import Mathlib.Data.List.Dedup
import Strongbox.Store.Documents
import Strongbox.Store.Session
import Strongbox.Proofs.Bindings
import Strongbox.Proofs.Cipher.Segments
import Strongbox.Proofs.Fleet
import Strongbox.Proofs.Json.Members
import Strongbox.Proofs.Record

/-!
# What a fleet is asked for, and what it should answer

The requests to the stores of a fleet, and the map that says what they should be answered: from
normalized paths to versions of documents.  The map knows nothing of ciphers or of engines, and
of the text of a version only how long it may be.  It has its own union of fields, by what is
found in either, and its own order of times; `Fields.merge_eq_union` and `Time.Instant.later_eq`
say that a store computes the same.
-/

set_option autoImplicit false

namespace Strongbox

open Time (Instant)

/-! ## Requests and answers -/

/-- What a fleet is asked for. -/
inductive Request where
  | openStore
  | closeStore
  | create (raw : String) (fields : Fields)
  | set (raw : String) (fields : Fields) (mode : WriteMode)
  | delete (raw : String)
  | deleteAll (paths : List String)
  | get (raw : String)
  | getAll (paths : List String)
  | exists (raw : String)

/-- What a fleet answers. -/
inductive Answer where
  | done
  | flag (b : Bool)
  | document (d : Option Document)
  | documents (ds : List Document)

namespace Request

/-- The operation of a store that a request asks for, with the cipher of the fleet. -/
def call (a : Aead) : Request → StoreCall Answer
  | .openStore => do
    Store.openWith .background a
    pure .done
  | .closeStore => do
    Store.close
    pure .done
  | .create raw fields => do
    Store.create .background raw fields
    pure .done
  | .set raw fields mode => do
    Store.set .background raw fields mode
    pure .done
  | .delete raw => do
    let removed ← Store.delete .background raw
    pure (.flag removed)
  | .deleteAll paths => do
    Store.deleteAll .background paths
    pure .done
  | .get raw => do
    let d ← Store.get .background raw
    pure (.document d)
  | .getAll paths => do
    let ds ← Store.getAll .background paths
    pure (.documents ds)
  | .exists raw => do
    let found ← Store.exists? .background raw
    pure (.flag found)

/-- The fields that a request wants written read back. -/
def FieldsReadBack : Request → Prop
  | .create _ fields => fields.ReadsBack
  | .set _ fields _ => fields.ReadsBack
  | _ => True

end Request

/-- The answers of a fleet to requests, each of the store at a place, in order. -/
def Fleet.answers (a : Aead) : Fleet → List (Nat × Request) → List (Except StoreError Answer)
  | _, [] => []
  | f, (i, q) :: rest =>
    let r := f.perform i (q.call a)
    r.1 :: answers a r.2 rest

/-! ## Unions and times of the map -/

/-- The union of two versions' fields, in the order of their names: under every name of either
stands what the newer ones have there, or else what the older ones have. -/
def Fields.union (older newer : Fields) : Fields :=
  let names := ((older ++ newer).map (·.1)).dedup.mergeSort
  names.filterMap fun name =>
    ((newer.lookup name).or (older.lookup name)).map fun value => (name, value)

namespace Fields

/-- Fields listed for some names are found under just these names. -/
theorem lookup_filterMap {g : String → Option Json.Value} (names : List String) (name : String) :
    (names.filterMap fun n => (g n).map fun value => (n, value)).lookup name =
      if name ∈ names then g name else none := by
  induction names with
  | nil => rfl
  | cons n names ih =>
    by_cases hsame : name = n
    · subst hsame
      cases hg : g name with
      | none => simp [hg, ih]
      | some value => simp [hg]
    · have hbeq : (name == n) = false := beq_false_of_ne hsame
      cases hg : g n with
      | none => simp [hg, ih, hsame]
      | some value => simp [hg, ih, hsame, List.lookup_cons, hbeq]

/-- A name is found in a union as in the newer fields, or else as in the older ones. -/
theorem lookup_union (older newer : Fields) (name : String) :
    (older.union newer).lookup name = (newer.lookup name).or (older.lookup name) := by
  unfold union
  rw [lookup_filterMap]
  split
  · rfl
  · rename_i habsent
    have hnone : ∀ fields : Fields, (∀ b ∈ fields, b.1 ≠ name) → fields.lookup name = none :=
      fun fields h => List.lookup_eq_none_iff.2 fun b hb => bne_iff_ne.2 (h b hb).symm
    have hboth : ∀ b ∈ older ++ newer, b.1 ≠ name := fun b hb hsame =>
      habsent (by
        rw [List.mem_mergeSort, List.mem_dedup]
        exact List.mem_map.2 ⟨b, hb, hsame⟩)
    rw [hnone newer fun b hb => hboth b (List.mem_append_right _ hb),
      hnone older fun b hb => hboth b (List.mem_append_left _ hb)]
    rfl

/-- The names of a union stand in ascending order, each one once. -/
theorem ascending_union (older newer : Fields) : Bindings.Ascending (older.union newer) := by
  have hsorted : (((older ++ newer).map (·.1)).dedup.mergeSort).Pairwise (· < ·) := by
    have hle : (((older ++ newer).map (·.1)).dedup.mergeSort).Pairwise (· ≤ ·) :=
      List.pairwise_mergeSort' _ _
    have hne : (((older ++ newer).map (·.1)).dedup.mergeSort).Nodup :=
      (List.mergeSort_perm _ _).nodup_iff.2 (List.nodup_dedup _)
    exact hle.imp₂ (fun _ _ hle hne => Std.lt_of_le_of_ne hle hne) hne
  refine List.pairwise_filterMap.2 (hsorted.imp ?_)
  intro name other hlt b hb c hc
  obtain ⟨_, -, rfl⟩ := Option.map_eq_some_iff.1 hb
  obtain ⟨_, -, rfl⟩ := Option.map_eq_some_iff.1 hc
  exact hlt

/-- Fields are merged to their union. -/
theorem merge_eq_union {older newer : Fields} (hold : Bindings.Ascending older)
    (hnew : Bindings.Ascending newer) : older.merge newer = older.union newer := by
  refine Bindings.eq_of_find? (Json.Members.ascending_merge newer hold)
    (ascending_union older newer) fun name => ?_
  calc Bindings.find? name (older.merge newer)
      = (Bindings.find? name newer).or (Bindings.find? name older) :=
        Json.Members.find?_merge name older hnew
    _ = (newer.lookup name).or (older.lookup name) := by
        rw [Bindings.find?_eq_lookup hnew, Bindings.find?_eq_lookup hold]
    _ = Bindings.find? name (older.union newer) := by
        rw [Bindings.find?_eq_lookup (ascending_union older newer), lookup_union]

end Fields

/-- An instant lies before another one if it counts fewer seconds, or as many and fewer
nanoseconds. -/
def Time.Instant.IsBefore (s t : Instant) : Prop :=
  s.seconds < t.seconds ∨ s.seconds = t.seconds ∧ s.nanos < t.nanos

instance (s t : Instant) : Decidable (s.IsBefore t) :=
  inferInstanceAs (Decidable (_ ∨ _))

/-- The later of two instants is the first one, unless it lies before the second one. -/
theorem Time.Instant.later_eq (s t : Instant) : later s t = if s.IsBefore t then t else s := by
  unfold later le IsBefore
  rcases Int.lt_trichotomy s.seconds t.seconds with hlt | hsame | hgt
  · simp [hlt]
  · rcases Nat.lt_trichotomy s.nanos t.nanos with hnanos | hnanos | hnanos
    · simp [hsame, hnanos, Nat.le_of_lt hnanos]
    · -- the instants are the same
      cases s
      cases t
      simp_all
    · simp [hsame, Nat.not_le_of_lt hnanos, Nat.not_lt_of_gt hnanos]
  · simp [Int.not_lt.2 (Int.le_of_lt hgt), Int.ne_of_gt hgt]

/-! ## The map -/

/-- What the map holds of a document. -/
structure Version where
  fields : Fields
  createdAt : Instant
  updatedAt : Instant

namespace Version

/-- The first version of a document. -/
def first (fields : Fields) (time : Instant) : Version := ⟨fields, time, time⟩

/-- The version that a write at the time `time` makes of another one: new fields replace the
old ones or win over them, the time of creation stays, and that of the write is never
before it. -/
def next (mode : WriteMode) (fields : Fields) (time : Instant) (v : Version) : Version where
  fields :=
    match mode with
    | .replace => fields
    | .merge => v.fields.union fields
  createdAt := v.createdAt
  updatedAt := if time.IsBefore v.createdAt then v.createdAt else time

/-- The version with its times as they are kept. -/
def kept (keep : Instant → Instant) (v : Version) : Version where
  fields := v.fields
  createdAt := keep v.createdAt
  updatedAt := keep v.updatedAt

/-- The version as the document at a path. -/
def toDocument (path : String) (v : Version) : Document where
  path := path
  fields := v.fields
  createdAt := some v.createdAt
  updatedAt := some v.updatedAt

/-- The version as the record at a path. -/
def toRecord (path : String) (v : Version) : Record :=
  ⟨path, v.fields, v.createdAt, v.updatedAt⟩

/-- The record of the version at a path is short enough to be encrypted: no more than 2 ^ 48
octets. -/
def Fits (path : String) (v : Version) : Prop := Stream.Fits (v.toRecord path).toBytes

instance (path : String) (v : Version) : Decidable (v.Fits path) :=
  inferInstanceAs (Decidable (Stream.Fits _))

end Version

/-- The map, with the stores that are open, the clock from which it takes its times, and what it
keeps of them. -/
structure Reference where
  isOpen : Nat → Bool
  versions : String → Option Version
  clock : Clock
  keep : Instant → Instant

namespace Reference

/-- The map without documents and with all stores closed. -/
def start (keep : Instant → Instant) (clock : Clock) : Reference where
  isOpen := fun _ => false
  versions := fun _ => none
  clock := clock
  keep := keep

/-- The document at a path, which is normalized first. -/
def document? (m : Reference) (raw : String) : Option Document :=
  (m.versions (Path.normalize raw)).map (Version.toDocument (Path.normalize raw))

/-- The map with a store opened or closed. -/
def turn (i : Nat) (isOpen : Bool) (m : Reference) : Reference :=
  { m with isOpen := fun j => if j = i then isOpen else m.isOpen j }

/-- The map with what it holds at a path. -/
def hold (path : String) (v : Option Version) (m : Reference) : Reference :=
  { m with versions := fun other => if other = path then v else m.versions other }

/-- The map holds what it was last given under a path. -/
@[simp]
theorem hold_self (path : String) (v : Option Version) (m : Reference) :
    (m.hold path v).versions path = v :=
  if_pos rfl

/-- What is held at a path leaves the other ones. -/
theorem hold_of_ne {path other : String} (v : Option Version) (m : Reference)
    (h : other ≠ path) : (m.hold path v).versions other = m.versions other :=
  if_neg h

/-- Binds a path to a version, unless that is too long. -/
def write (path : String) (v : Version) (m : Reference) : Except StoreError Answer × Reference :=
  if v.Fits path then (.ok .done, m.hold path (some (v.kept m.keep)))
  else (.error (.encryption path (.encryption Stream.refusal)), m)

/-- Removes the documents at the given paths in order, up to the first that is the root. -/
def deleteEach : List String → Reference → Except StoreError Answer × Reference
  | [], m => (.ok .done, m)
  | raw :: rest, m =>
    if Path.isRoot raw then (.error (.invalidPath Path.root StoreCall.rootReason), m)
    else deleteEach rest (m.hold (Path.normalize raw) none)

/-- Serves a request of an open store. -/
def whenOpen (i : Nat) (m : Reference) (x : Except StoreError Answer × Reference) :
    Except StoreError Answer × Reference :=
  if m.isOpen i then x else (.error .notOpen, m)

/-- Serves a request of an open store for a path other than the root. -/
def whenWritable (i : Nat) (raw : String) (m : Reference)
    (x : Except StoreError Answer × Reference) : Except StoreError Answer × Reference :=
  if Path.isRoot raw then (.error (.invalidPath Path.root StoreCall.rootReason), m)
  else whenOpen i m x

/-- The answer to a request of the store at a place, and the map after it. -/
def serve (i : Nat) (m : Reference) : Request → Except StoreError Answer × Reference
  | .openStore =>
    if m.isOpen i then (.error .alreadyOpen, m) else (.ok .done, m.turn i true)
  | .closeStore => whenOpen i m (.ok .done, m.turn i false)
  | .create raw fields =>
    let path := Path.normalize raw
    whenWritable i raw m <|
      match m.versions path with
      | some _ => (.error (.pathExists path), m)
      | none =>
        let (time, clock) := m.clock.read
        write path (.first fields time) { m with clock }
  | .set raw fields mode =>
    let path := Path.normalize raw
    whenWritable i raw m <|
      let (time, clock) := m.clock.read
      match m.versions path with
      | none => write path (.first fields time) { m with clock }
      | some v => write path (v.next mode fields time) { m with clock }
  | .delete raw =>
    let path := Path.normalize raw
    whenWritable i raw m
      (.ok (.flag (m.versions path).isSome), m.hold path none)
  | .deleteAll paths => whenOpen i m (deleteEach paths m)
  | .get raw => whenOpen i m (.ok (.document (m.document? raw)), m)
  | .getAll paths => whenOpen i m (.ok (.documents (paths.filterMap m.document?)), m)
  | .exists raw => whenOpen i m (.ok (.flag (m.versions (Path.normalize raw)).isSome), m)

/-- The answers of the map to requests in order. -/
def answers : Reference → List (Nat × Request) → List (Except StoreError Answer)
  | _, [] => []
  | m, (i, q) :: rest =>
    let r := m.serve i q
    r.1 :: answers r.2 rest

end Reference

end Strongbox
