import Strongbox.Store.Basic

/-!
# Reading and writing documents

The operations on single paths and on batches of them.  Each looks at the caller's
context first, then at its path, then at whether the store is open.
-/

namespace Strongbox.Store

open StoreCall

/-- Whether a document is at a path. -/
def exists? (ctx : Context) (raw : String) : StoreCall Bool := do
  boundary ctx
  let path := Path.normalize raw
  let _ ← openSession
  onBarrier path (Barrier.exists? path)

/-- The document at a path. -/
def get (ctx : Context) (raw : String) : StoreCall (Option Document) := do
  boundary ctx
  let path := Path.normalize raw
  let s ← openSession
  let r ← readRecord s.cipher path
  pure (r.map Record.toDocument)

/-- Creates a document where none is. -/
def create (ctx : Context) (raw : String) (fields : Fields) : StoreCall Unit := do
  boundary ctx
  let path ← writable raw
  let s ← openSession
  let found ← onBarrier path (Barrier.exists? path)
  if found then
    throw (.pathExists path)
  else
    let time ← now
    writeRecord s.cipher ⟨path, fields, time, time⟩
    tell (.created path)

/-- The fields that a write leaves where `old` are stored. -/
def WriteMode.apply (mode : WriteMode) (old new : Fields) : Fields :=
  match mode with
  | .replace => new
  | .merge => old.merge new

/-- The record that a write at the time `time` makes of the stored one. -/
def revise (mode : WriteMode) (fields : Fields) (time : Time.Instant) (r : Record) : Record :=
  { r with
    fields := WriteMode.apply mode r.fields fields
    updatedAt := Time.Instant.later time r.createdAt }

/-- Whether a write keeps stored fields, as told in the log. -/
def WriteMode.isMerge : WriteMode → Bool
  | .replace => false
  | .merge => true

/-- Writes a document, creating it if none is there. -/
def set (ctx : Context) (raw : String) (fields : Fields) (mode : WriteMode) : StoreCall Unit := do
  boundary ctx
  let path ← writable raw
  let s ← openSession
  let time ← now
  let stored ← readRecord s.cipher path
  let record :=
    match stored with
    | none => ⟨path, fields, time, time⟩
    | some r => revise mode fields time r
  writeRecord s.cipher record
  tell (.written (WriteMode.isMerge mode) record.path)

/-- Deletes a document and says whether it was there. -/
def delete (ctx : Context) (raw : String) : StoreCall Bool := do
  boundary ctx
  let path ← writable raw
  let _ ← openSession
  let removed ← onBarrier path (Barrier.delete path)
  tell (.deleted path removed)
  pure removed

/-! ## Batches -/

/-- The documents at the given paths, in order; paths without one are passed over. -/
def getEach (ctx : Context) (a : Aead) : List String → StoreCall (List Document)
  | [] => pure []
  | raw :: rest => do
    boundary ctx
    let r ← readRecord a (Path.normalize raw)
    let documents ← getEach ctx a rest
    match r with
    | none => pure documents
    | some r => pure (r.toDocument :: documents)

/-- The documents at the given paths, in order; paths without one are passed over. -/
def getAll (ctx : Context) (paths : List String) : StoreCall (List Document) := do
  boundary ctx
  let s ← openSession
  getEach ctx s.cipher paths

/-- Deletes the documents at the given paths in order, after `removed` others, and says
how many were there. -/
def deleteEach (ctx : Context) : (removed : Nat) → List String → StoreCall Nat
  | removed, [] => pure removed
  | removed, raw :: rest => do
    boundary ctx
    let path ← writable raw
    let found ← onBarrier path (Barrier.delete path)
    deleteEach ctx (if found then removed + 1 else removed) rest

/-- Deletes the documents at the given paths in order, up to the first failure. -/
def deleteAll (ctx : Context) (paths : List String) : StoreCall Unit := do
  boundary ctx
  let _ ← openSession
  let removed ← deleteEach ctx 0 paths
  tell (.deletedMany removed)

end Strongbox.Store
