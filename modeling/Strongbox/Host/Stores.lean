import Strongbox.Host.Engines

/-!
# The stores of a host

Stores have names and are made on first mention.  An operation runs in the scene of its
store: over the engine that the store is open over, with the clock of the store or of the
host.
-/

namespace Strongbox.Host

/-- The store with a name, made on first mention. -/
def slot (h : Host) (name : String) : StoreSlot :=
  (h.stores.find? name).getD { store := .new h.config }

/-- Makes the store with a name if there is none. -/
def addStore (h : Host) (name : String) (slot : StoreSlot) : Host :=
  if h.stores.contains name then h else { h with stores := h.stores.insert name slot }

/-- The scene of a store, in which it works over the given engine. -/
def scene (h : Host) (s : StoreSlot) (handle : Option HandleId) : Scene :=
  let a := h.ambient handle
  ⟨s.store, { a with clock := s.clock.getD a.clock }⟩

/-- The host after an operation of a store over the given engine. -/
def withScene (h : Host) (name : String) (s : StoreSlot) (handle : Option HandleId) (x : Scene) :
    Host :=
  let a :=
    match s.clock with
    | some _ => { x.ambient with clock := h.clock }
    | none => x.ambient
  let s := { s with store := x.store, clock := s.clock.map fun _ => x.ambient.clock }
  let h := h.withAmbient handle a
  { h with stores := h.stores.insert name s }

/-- Runs an operation of a store. -/
def act {α : Type} (h : Host) (name : String) (call : StoreCall α) : Except StoreError α × Host :=
  let s := h.slot name
  match call (h.scene s s.handle) with
  | .ok a x => (.ok a, h.withScene name s s.handle x)
  | .error e x => (.error e, h.withScene name s s.handle x)

/-- Sets the engine that a store is open over, and lets go of the one it had. -/
def attach (h : Host) (name : String) (handle : Option HandleId) : Host :=
  collect { h with stores := h.stores.insert name { h.slot name with handle } }

/-- Opens a store over the engine with a number. -/
def openStore (h : Host) (name : String) (ctx : Context) (handle : HandleId) (cipher : Aead) :
    Except StoreError Unit × Host :=
  match h.act name (Store.openWith ctx cipher) with
  | (.ok (), h) => (.ok (), h.attach name (some handle))
  | (.error e, h) => (.error e, h)

/-- Closes a store, which lets go of its engine. -/
def closeStore (h : Host) (name : String) : Except StoreError Unit × Host :=
  match h.act name Store.close with
  | (.ok (), h) => (.ok (), h.attach name none)
  | (.error e, h) => (.error e, h)

/-! ## Listings -/

/-- Starts a listing of a store. -/
def startListing (h : Host) (name store : String) (ctx : Context) (parent : String)
    (window : Window) : Except StoreError String × Host :=
  match h.act store (Store.list ctx parent window) with
  | (.ok l, h) => (.ok l.range, { h with listings := h.listings.insert name ⟨store, l⟩ })
  | (.error e, h) => (.error e, h)

/-- Runs a step of a listing. -/
def step {α : Type} (h : Host) (name : String) (l : ListingSlot) (step : Step α) :
    Except StoreError α × Host :=
  let s := h.slot l.store
  match step ⟨l.listing, h.scene s s.handle⟩ with
  | .ok a w =>
    let h := h.withScene l.store s s.handle w.scene
    (.ok a, { h with listings := h.listings.insert name { l with listing := w.listing } })
  | .error e w =>
    let h := h.withScene l.store s s.handle w.scene
    (.error e, { h with listings := h.listings.insert name { l with listing := w.listing } })

/-- Forgets a listing. -/
def dropListing (h : Host) (name : String) : Host :=
  { h with listings := h.listings.erase name }

/-- Releases a listing. -/
def releaseListing (h : Host) (name : String) (l : ListingSlot) : Host :=
  { h with listings := h.listings.insert name { l with listing := l.listing.release } }

/-! ## Signals -/

/-- The context of the caller with a name; an unknown one never stops an operation. -/
def context (h : Host) (name : String) : Context :=
  match h.signals.find? name with
  | some s => s.context h.time
  | none => .background

end Strongbox.Host
