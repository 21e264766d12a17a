import Strongbox.Store.Basic

/-!
# Identifiers

The next identifier of a counter comes from the cursor of the session, if it has one that
is not spent, and else from a new batch.  The start of the batch after it is stored
before the cursor is used.
-/

namespace Strongbox.Store

open StoreCall

/-- The reason why a document is no counter. -/
def noCounter : String := "missing or non-integer counter field"

/-- The start of the next batch that the stored record of a counter holds. -/
def batchStart (path : String) : Option Record → StoreCall Nat
  | none => pure 0
  | some r =>
    match Counter.stored? r.fields with
    | some n => pure n
    | none => throw (.codec path noCounter)

/-- Reserves the next batch of the counter at a path. -/
def reserve (a : Aead) (path : String) : StoreCall Cursor := do
  let stored ← readRecord a path
  let start ← batchStart path stored
  match Cursor.reserve start with
  | none => throw (.incrementExhausted path)
  | some (cursor, next) =>
    let time ← now
    let createdAt :=
      match stored with
      | none => time
      | some r => r.createdAt
    writeRecord a ⟨path, Counter.fieldsFor next, createdAt, time⟩
    tell (.reserved next path)
    pure cursor

/-- Keeps the cursor of a counter in the session. -/
def keepCursor (path : String) (cursor : Cursor) : StoreCall Unit := fun s =>
  let session := s.store.session.map fun session =>
    { session with cursors := session.cursors.insert path cursor }
  .ok () { s with store := { s.store with session } }

/-- The cursor from which the next identifier of the counter at a path is taken. -/
def cursorFor (s : Session) (path : String) : StoreCall Cursor :=
  match s.cursors.find? path with
  | none => reserve s.cipher path
  | some cursor => if cursor.isSpent then reserve s.cipher path else pure cursor

/-- The next identifier of the counter at a path. -/
def increment (ctx : Context) (raw : String) : StoreCall String := do
  boundary ctx
  let path ← writable raw
  let s ← openSession
  let cursor ← cursorFor s path
  match cursor.advance with
  | none => throw (.incrementExhausted path)
  | some (id, cursor) =>
    keepCursor path cursor
    match Counter.formatId id with
    | some text => pure text
    | none => throw (.incrementExhausted path)

end Strongbox.Store
