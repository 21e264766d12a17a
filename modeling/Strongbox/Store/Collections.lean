import Strongbox.Store.Basic

/-!
# Collections

The collections of a store are the first segments of its keys.  They are found by a walk
over all keys, a page at a time, and returned in the order in which they are first met.
-/

namespace Strongbox.Store

open StoreCall

/-- The names with those of the given keys added that are not among them; the latest name
comes first. -/
def addNames (names : List String) (keys : List String) : List String :=
  keys.foldl
    (fun names key =>
      match Path.first? key with
      | some name => if names.contains name then names else name :: names
      | none => names)
    names

/-- The names of the collections whose keys come after `after`, added to `names`; nothing if
the walk is not at its end after `fuel` pages. -/
def collectNames (ctx : Context) (pageSize : Nat) :
    (fuel : Nat) → (after : Option String) → (names : List String) →
      StoreCall (Option (List String))
  | 0, _, _ => pure none
  | fuel + 1, after, names => do
    boundary ctx
    let keys ← onBarrier Path.root (Barrier.scanKeys Path.root after pageSize)
    let names := addNames names keys
    if keys.isEmpty || keys.length < pageSize then
      pure (some names)
    else
      collectNames ctx pageSize fuel keys.getLast? names

/-- The collections of the store, asked for below the root; nothing if the walk over the keys
has no end. -/
def collections (ctx : Context) (parent : String) : StoreCall (Option (List Collection)) := do
  boundary ctx
  if !Path.isRoot parent then
    throw (.nestedCollections parent)
  else
    let _ ← openSession
    let names ← fun scene =>
      collectNames ctx scene.store.pageSize (scene.ambient.engine.contents.size + 1) none [] scene
    pure (names.map fun names => names.reverse.map fun name => ⟨Path.join [name]⟩)

end Strongbox.Store
