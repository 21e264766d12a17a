import Strongbox.Store.Basic

/-!
# Listings

A listing walks the keys of a range, one document a step, and reads the engine a page at
a time.  It belongs to the session in which it was started and holds no lock on the
store.  An entry that cannot be read stays at the front of the buffer, so that the next
step comes upon it again.
-/

namespace Strongbox

/-- A listing and how far it has come. -/
structure Listing where
  /-- The session to which the listing belongs. -/
  generation : Nat
  range : String
  /-- How many entries are still to be passed over. -/
  skip : Nat
  /-- The greatest number of documents, or zero for all. -/
  limit : Nat
  pathsOnly : Bool
  pageSize : Nat
  /-- The last key read from the engine. -/
  after : Option String := none
  /-- The entries read from the engine and not yet handed out. -/
  buffer : List Entry := []
  /-- Whether the engine has no further entries. -/
  exhausted : Bool := false
  /-- How many documents were handed out. -/
  yielded : Nat := 0
  released : Bool := false

/-- A listing in the scene of its store. -/
structure Walk where
  listing : Listing
  scene : Scene

/-- A step of a listing. -/
abbrev Step (α : Type) := EStateM StoreError Walk α

namespace Listing

/-- Runs an operation of the store. -/
def onStore {α : Type} (call : StoreCall α) : Step α := fun w =>
  match call w.scene with
  | .ok a scene => .ok a { w with scene }
  | .error e scene => .error e { w with scene }

/-- Changes the listing. -/
def change (f : Listing → Listing) : Step Unit := fun w =>
  .ok () { w with listing := f w.listing }

/-- The listing as it stands. -/
def current : Step Listing := fun w => .ok w.listing w

/-- One page of the listing's range; a listing of paths reads no values. -/
def readPage (l : Listing) : StoreCall (List Entry) :=
  StoreCall.onBarrier l.range
    (if l.pathsOnly then do
      let keys ← Barrier.scanKeys l.range l.after l.pageSize
      pure (keys.map fun key => (key, []))
    else
      Barrier.scan l.range l.after l.pageSize)

/-- The listing after a page was read; a short page is the last one. -/
def addPage (page : List Entry) (l : Listing) : Listing :=
  { l with
    exhausted := l.exhausted || decide (page.length < l.pageSize)
    after := (page.getLast?.map (·.1)).or l.after
    buffer := l.buffer ++ page }

/-- Reads a page if the buffer is empty and the engine may have more entries. -/
def refill : Step Unit := do
  let l ← current
  if l.buffer.isEmpty && !l.exhausted then
    let page ← onStore (readPage l)
    change (addPage page)
  else
    pure ()

/-- Takes the next entry. -/
def take : Step (Option Entry) := do
  refill
  let l ← current
  match l.buffer with
  | [] => pure none
  | e :: rest =>
    change fun l => { l with buffer := rest }
    pure (some e)

/-- Puts an entry back to the front. -/
def putBack (e : Entry) : Step Unit := change fun l => { l with buffer := e :: l.buffer }

/-- The document of an entry. -/
def decode (a : Aead) (e : Entry) : StoreCall Document := do
  let plaintext ← StoreCall.onBarrier e.1 (Barrier.decrypt a e.2)
  let r ← StoreCall.decode e.1 plaintext
  pure r.toDocument

/-- The document of an entry, which is put back if it cannot be read. -/
def decodeOrPutBack (a : Aead) (e : Entry) : Step Document := fun w =>
  match onStore (decode a e) w with
  | .ok d w => .ok d w
  | .error error w =>
    match putBack e w with
    | .ok _ w => .error error w
    | .error _ w => .error error w

/-- Hands out the document of an entry. -/
def hand (a : Aead) (e : Entry) : Step Document := do
  let l ← current
  let d ← if l.pathsOnly then pure (Document.bare e.1) else decodeOrPutBack a e
  change fun l => { l with yielded := l.yielded + 1 }
  pure d

/-- Hands out the next document after passing over `skip` entries. -/
def nextFrom (a : Aead) : (skip : Nat) → Step (Option Document)
  | 0 => do
    match ← take with
    | none => pure none
    | some e =>
      let d ← hand a e
      pure (some d)
  | skip + 1 => do
    match ← take with
    | none => pure none
    | some _ =>
      change fun l => { l with skip }
      nextFrom a skip

/-- The session of the listing, if it still lasts. -/
def session (l : Listing) : Step Session := fun w =>
  match w.scene.store.session with
  | some s => if s.generation = l.generation then .ok s w else .error .iteratorInvalidated w
  | none => .error .iteratorInvalidated w

/-- Whether the listing has handed out as many documents as it may. -/
def isComplete (l : Listing) : Bool := l.limit != 0 && l.limit ≤ l.yielded

/-- The next document; nothing at the end of the range or of the window. -/
def next (ctx : Context) : Step (Option Document) := do
  let l ← current
  if l.released then
    throw .iteratorReleased
  else
    onStore (StoreCall.boundary ctx)
    if l.isComplete then
      pure none
    else
      let s ← session l
      nextFrom s.cipher l.skip

/-- The listing after its end; further steps fail. -/
def release (l : Listing) : Listing := { l with released := true, buffer := [] }

/-- The remaining documents, after those in `done` (latest first); nothing if the listing is
not at its end after `fuel` steps. -/
def drain (ctx : Context) : (fuel : Nat) → (done : List Document) → Step (Option (List Document))
  | 0, _ => pure none
  | fuel + 1, done => do
    match ← next ctx with
    | none => pure (some done.reverse)
    | some d => drain ctx fuel (d :: done)

/-- More steps than the listing can take with the engine as it is. -/
def bound (w : Walk) : Nat :=
  w.listing.buffer.length + w.scene.ambient.engine.contents.size + 1

/-- The remaining documents; nothing if the listing has no end. -/
def collect (ctx : Context) : Step (Option (List Document)) := fun w =>
  drain ctx (bound w) [] w

/-- Runs steps of a listing as an operation of its store, which also returns the listing. -/
def run {α : Type} (l : Listing) (step : Step α) : StoreCall (α × Listing) := fun scene =>
  match step ⟨l, scene⟩ with
  | .ok a w => .ok (a, w.listing) w.scene
  | .error e w => .error e w.scene

end Listing

namespace Store

open StoreCall

/-- Starts a listing of the documents below a parent. -/
def list (ctx : Context) (parent : String) (window : Window) : StoreCall Listing := do
  boundary ctx
  let s ← openSession
  let range := Path.listingRange parent window.stem
  tell (.listed range)
  fun scene =>
    .ok
      { generation := s.generation
        range
        skip := window.index
        limit := window.limit
        pathsOnly := window.pathsOnly
        pageSize := scene.store.pageSize }
      scene

/-- The documents below a parent; nothing if their listing has no end. -/
def documents (ctx : Context) (parent : String) (window : Window) :
    StoreCall (Option (List Document)) := do
  let l ← list ctx parent window
  let (ds, _) ← l.run (Listing.collect ctx)
  pure ds

/-- The number of documents below a parent whose paths continue with `stem`; nothing if their
listing has no end. -/
def count (ctx : Context) (parent stem : String) : StoreCall (Option Nat) := do
  let l ← list ctx parent { stem, pathsOnly := true }
  let (ds, _) ← l.run (Listing.collect ctx)
  pure (ds.map List.length)

/-- The document with the greatest path that begins with `stem`. -/
def last (ctx : Context) (stem : String) : StoreCall (Option Document) := do
  boundary ctx
  let stem := Path.anchored stem
  let s ← openSession
  match ← onBarrier stem (Barrier.last s.cipher stem) with
  | none => pure none
  | some (key, plaintext) =>
    let r ← decode key plaintext
    pure (some r.toDocument)

end Store

end Strongbox
