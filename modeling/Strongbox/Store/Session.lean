import Strongbox.Store.Basic

/-!
# Opening and closing a store

Opening a store starts a session with a generation of its own, by which listings notice
that theirs is over.  Closing ends the session and forgets the cursors of its counters.
-/

namespace Strongbox.Store

/-- Fails if the store is open. -/
def ensureClosed : StoreCall Unit := fun s =>
  match s.store.session with
  | some _ => .error .alreadyOpen s
  | none => .ok () s

/-- Starts a session with a cipher. -/
def install (cipher : Aead) : StoreCall Unit := fun s =>
  let generation := s.store.generations + 1
  let session : Session := ⟨generation, cipher, .empty⟩
  let store := { s.store with generations := generation, session := some session }
  .ok () (Scene.tell (.opened generation) { s with store })

/-- What every opening does before it turns to the engine. -/
def prepare (ctx : Context) : StoreCall Unit := do
  StoreCall.boundary ctx
  ensureClosed

/-- Opens the store over the engine of its surroundings. -/
def openWith (ctx : Context) (cipher : Aead) : StoreCall Unit := do
  prepare ctx
  install cipher

/-- Closes the store. -/
def close : StoreCall Unit := do
  let session ← StoreCall.openSession
  fun s =>
    .ok () (Scene.tell (.closed session.generation)
      { s with store := { s.store with session := none } })

end Strongbox.Store
