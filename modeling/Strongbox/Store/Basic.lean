import Strongbox.Barrier
import Strongbox.Config
import Strongbox.Counter
import Strongbox.Record

/-!
# The store and its operations

A store is closed or has a session, which lasts from one opening to the next closing and
holds the cipher and the cursors of its counters.  An operation may change the
store and its surroundings, and may fail; a failing one keeps the changes made before
it failed.
-/

namespace Strongbox

open Time (Instant)

/-- What a store has while it is open. -/
structure Session where
  /-- Which opening of the store this is. -/
  generation : Nat
  cipher : Aead
  /-- The cursors of the counters used in this session, by path. -/
  cursors : Table String Cursor

/-- A document store. -/
structure Store where
  config : Config
  /-- How often the store was opened. -/
  generations : Nat := 0
  session : Option Session := none

namespace Store

/-- The closed store with the given settings. -/
def new (config : Config) : Store := { config }

/-- Whether the store is open. -/
def isOpen (s : Store) : Bool := s.session.isSome

/-- How many entries a listing reads at a time: at least one. -/
def pageSize (s : Store) : Nat := max 1 s.config.pageSize

end Store

/-- A store in its surroundings. -/
structure Scene where
  store : Store
  ambient : Ambient

/-- The scene after an event was told. -/
def Scene.tell (e : Event) (s : Scene) : Scene :=
  { s with ambient := { s.ambient with events := e :: s.ambient.events } }

/-- An operation of a store. -/
abbrev StoreCall (α : Type) := EStateM StoreError Scene α

namespace StoreCall

/-- Stops here if the caller's context says so. -/
def boundary (ctx : Context) : StoreCall Unit := fun s =>
  let next := { s with ambient := { s.ambient with boundaries := s.ambient.boundaries + 1 } }
  match ctx.verdict s.ambient.boundaries with
  | none => .ok () next
  | some i => .error (.ofInterruption i) next

/-- The session of the store, if it is open. -/
def openSession : StoreCall Session := fun s =>
  match s.store.session with
  | some session => .ok session s
  | none => .error .notOpen s

/-- Runs a call of the barrier that concerns `path`. -/
def onBarrier {α : Type} (path : String) (call : BarrierCall α) : StoreCall α := fun s =>
  match call s.ambient with
  | .ok a ambient => .ok a { s with ambient }
  | .error e ambient => .error (.ofBarrier path e) { s with ambient }

/-- Reads the clock. -/
def now : StoreCall Instant := fun s =>
  let (t, clock) := s.ambient.clock.read
  .ok t { s with ambient := { s.ambient with clock } }

/-- Tells an event. -/
def tell (e : Event) : StoreCall Unit := fun s => .ok () (s.tell e)

/-- Fails with an error, after telling of it where it shows a record out of place. -/
def fail {α : Type} (e : StoreError) : StoreCall α :=
  match e with
  | .pathMismatch expected actual => do
    tell (.misplaced actual expected)
    throw e
  | _ => throw e

/-- The record that a decrypted value of the key `path` holds. -/
def decode (path : String) (plaintext : Bytes) : StoreCall Record :=
  match Record.ofBytes path plaintext with
  | .ok r => pure r
  | .error e => fail e

/-- Whether a failure of the barrier is one of decryption. -/
def isUnauthentic : StoreError → Bool
  | .decryption _ _ => true
  | _ => false

/-- Runs a call of the barrier that reads the record at `path`, and tells of a record that
cannot be decrypted. -/
def onRecord {α : Type} (path : String) (call : BarrierCall α) : StoreCall α := fun s =>
  match onBarrier path call s with
  | .ok a s => .ok a s
  | .error e s => .error e (if isUnauthentic e then s.tell (.unauthentic path) else s)

/-- The record at a normalized path. -/
def readRecord (a : Aead) (path : String) : StoreCall (Option Record) := do
  match ← onRecord path (Barrier.get a path) with
  | none => pure none
  | some plaintext =>
    let r ← decode path plaintext
    pure (some r)

/-- Writes a record. -/
def writeRecord (a : Aead) (r : Record) : StoreCall Unit :=
  onBarrier r.path (Barrier.put a r.path r.toBytes)

/-- The reason why the root cannot be written. -/
def rootReason : String := "the root is not a document location"

/-- The normalized form of a path that is to be written or deleted. -/
def writable (raw : String) : StoreCall String :=
  if Path.isRoot raw then throw (.invalidPath (Path.normalize raw) rootReason)
  else pure (Path.normalize raw)

end StoreCall

end Strongbox
