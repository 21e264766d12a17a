import Strongbox.Engine.Contents
import Strongbox.Engine.FaultPlan

/-!
# Storage engines

An engine is its contents and the face it shows.  A bare engine answers every operation
itself.  A watched one asks a fault plan first.  A minimal one, also with a plan, has
only the required operations, so that listing, key scans and existence checks are made
from a scan and a read.  A failing call leaves the contents as they were.
-/

namespace Strongbox

/-- Which operations an engine has of its own, and which calls of it fail. -/
inductive Face where
  | bare
  | watched (plan : FaultPlan)
  | minimal (plan : FaultPlan)
  deriving DecidableEq, Repr

/-- A storage engine. -/
structure Engine where
  contents : Contents
  face : Face := .bare
  /-- Whether the worker threads take calls. -/
  workers : Bool := true

instance : Inhabited Engine := ⟨⟨default, .bare, true⟩⟩

/-- A call of an engine. -/
abbrev EngineCall (α : Type) := EStateM StorageError Engine α

namespace Engine

/-- Asks the fault plan whether a call fails. -/
def consult (operation : Operation) (key : String) : EngineCall Unit := fun e =>
  match e.face with
  | .bare => .ok () e
  | .watched plan =>
    let (failure, plan) := FaultPlan.consult operation key plan
    match failure with
    | none => .ok () { e with face := .watched plan }
    | some error => .error error { e with face := .watched plan }
  | .minimal plan =>
    let (failure, plan) := FaultPlan.consult operation key plan
    match failure with
    | none => .ok () { e with face := .minimal plan }
    | some error => .error error { e with face := .minimal plan }

/-- Whether a call reaches the contents. -/
def isReachable (e : Engine) : Bool := e.workers || !e.contents.usesWorkers

/-- The failure of a call for which there is no worker. -/
def noWorker : StorageError := ⟨.blocking, "", none⟩

/-- Reads the contents. -/
def inspect {α : Type} (f : Contents → Except StorageError α) : EngineCall α := fun e =>
  if e.isReachable then
    match f e.contents with
    | .ok a => .ok a e
    | .error error => .error error e
  else .error noWorker e

/-- Changes the contents. -/
def update {α : Type} (f : Contents → Except StorageError (α × Contents)) : EngineCall α := fun e =>
  if e.isReachable then
    match f e.contents with
    | .ok (a, contents) => .ok a { e with contents }
    | .error error => .error error e
  else .error noWorker e

/-- Whether the engine makes listing, key scans and existence checks from a scan and a
read. -/
def isMinimal (e : Engine) : Bool :=
  match e.face with
  | .minimal _ => true
  | _ => false

/-- One call for engines that are minimal and one for all others. -/
def byFace {α : Type} (minimal other : EngineCall α) : EngineCall α := fun e =>
  if e.isMinimal then minimal e else other e

/-- The value of a key. -/
def get (key : String) : EngineCall (Option Bytes) := do
  consult .get key
  inspect (·.get key)

/-- Binds a key to a value. -/
def put (key : String) (value : Bytes) : EngineCall Unit := do
  consult .put key
  update fun c => .ok ((), c.put key value)

/-- Removes a key and says whether it was there. -/
def delete (key : String) : EngineCall Bool := do
  consult .delete key
  update (·.delete key)

/-- One page of the entries whose keys begin with `stem`, strictly after `after`; no
limit is meant by a `limit` of zero. -/
def scan (stem : String) (after : Option String) (limit : Nat) : EngineCall (List Entry) := do
  consult .scan stem
  inspect (·.scan stem after limit)

/-- The keys of one page. -/
def scanKeys (stem : String) (after : Option String) (limit : Nat) : EngineCall (List String) :=
  byFace
    (do
      let entries ← scan stem after limit
      pure (entries.map (·.1)))
    (do
      consult .scanKeys stem
      inspect (·.scanKeys stem after limit))

/-- All keys that begin with `stem`. -/
def list (stem : String) : EngineCall (List String) :=
  byFace (scanKeys stem none 0)
    (do
      consult .list stem
      inspect (·.list stem))

/-- The entry with the greatest key that begins with `stem`. -/
def last (stem : String) : EngineCall (Option Entry) := do
  consult .last stem
  inspect (·.last stem)

/-- Whether a key is there. -/
def exists? (key : String) : EngineCall Bool :=
  byFace
    (do
      let value ← get key
      pure value.isSome)
    (do
      consult .exists key
      inspect (·.exists? key))

end Engine

end Strongbox
