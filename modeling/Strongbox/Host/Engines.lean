import Strongbox.Host.Location

/-!
# The engines of a host

Several engines may share one medium.  An engine is in use while a name or an open store
holds it, so an open store keeps the engine it was opened over, even when the name of that
engine is gone.
-/

namespace Strongbox.Host

/-- The medium of an engine in use. -/
def mediumOf? (h : Host) (handle : HandleId) : Option MediumId :=
  (h.handles.find? handle).map (·.medium)

/-- The engines that are held by a name or by an open store. -/
def heldHandles (h : Host) : List HandleId :=
  h.engines.entries.map (·.2) ++ h.stores.entries.filterMap fun s => s.2.handle

/-- Whether a medium belongs to an engine in use. -/
def isInUse (h : Host) (medium : MediumId) : Bool :=
  h.heldHandles.any fun handle => h.mediumOf? handle == some medium

/-- The contents of a new medium. -/
def addMedium (h : Host) (contents : Contents) : MediumId × Host :=
  (h.fresh, { h with media := h.media.insert h.fresh contents, fresh := h.fresh + 1 })

/-- Whether an engine in use keeps others off its directory under the given location. -/
def isLocked (h : Host) (file : String) : Bool :=
  h.heldHandles.any fun handle => (h.handles.find? handle).any fun d => d.lock == some file

/-- A new engine on a medium. -/
def addHandle (h : Host) (medium : MediumId) (face : Face) (lock : Option String := none) :
    HandleId × Host :=
  let handle : Handle := { medium, face, lock }
  (h.fresh, { h with handles := h.handles.insert h.fresh handle, fresh := h.fresh + 1 })

/-! ## Letting go of engines -/

/-- The host after an engine was closed.  An engine of a log directory clears its directory
of the runs it does not know, though others may have written them since. -/
def closeEngine (h : Host) (d : Handle) : Host :=
  match d.lock.bind h.follow with
  | none => h
  | some t =>
    match h.placeAt t, h.media.find? d.medium with
    | some (.logDirectory current), some (.logDirectory own) =>
      match h.media.find? current with
      | some (.logDirectory log) =>
        { h with media := h.media.insert current (.logDirectory (log.cleared own.runs.length)) }
      | _ => h
    | _, _ => h

/-- The host after every engine that nobody holds was closed. -/
def collect (h : Host) : Host :=
  let held := h.heldHandles
  (h.handles.entries.filter fun e => !held.contains e.1).foldl
    (fun h e => closeEngine { h with handles := h.handles.erase e.1 } e.2) h

/-- Gives an engine a name, which another one may have had. -/
def bindEngine (h : Host) (name : String) (handle : HandleId) : Host :=
  collect { h with engines := h.engines.insert name handle }

/-- Takes its name from an engine, and says whether it had one. -/
def dropEngine (h : Host) (name : String) : Bool × Host :=
  (h.engines.contains name, collect { h with engines := h.engines.erase name })

/-! ## Volatile engines -/

/-- The medium of the volatile engine with a name. -/
def volatileMedium? (h : Host) (name : String) : Option MediumId := do
  let medium ← h.mediumOf? (← h.engines.find? name)
  match ← h.media.find? medium with
  | .volatile _ => some medium
  | _ => none

/-- Names a volatile engine.  It works on the medium of the volatile engine called `peer`,
or on an empty one when there is none. -/
def addVolatile (h : Host) (name : String) (peer : Option String) (face : Face) : Host :=
  match peer.bind h.volatileMedium? with
  | some medium =>
    let (handle, h) := h.addHandle medium face
    h.bindEngine name handle
  | none =>
    let (medium, h) := h.addMedium (.volatile .empty)
    let (handle, h) := h.addHandle medium face
    h.bindEngine name handle

/-! ## Calls -/

/-- The engine with a number. -/
def engineOf (h : Host) (handle : HandleId) : Engine :=
  match h.handles.find? handle with
  | none => default
  | some d => { contents := (h.media.find? d.medium).getD default, face := d.face }

/-- The host after an engine has changed. -/
def withEngine (h : Host) (handle : HandleId) (e : Engine) : Host :=
  match h.handles.find? handle with
  | none => h
  | some d =>
    { h with
      media := h.media.insert d.medium e.contents
      handles := h.handles.insert handle { d with face := e.face } }

/-- Runs a call of the engine with a number, with or without worker threads. -/
def callEngine {α : Type} (h : Host) (handle : HandleId) (workers : Bool) (call : EngineCall α) :
    Except StorageError α × Host :=
  match call { h.engineOf handle with workers } with
  | .ok a e => (.ok a, h.withEngine handle e)
  | .error error e => (.error error, h.withEngine handle e)

/-- The surroundings of an operation over an engine. -/
def ambient (h : Host) (handle : Option HandleId) : Ambient where
  engine :=
    match handle with
    | some handle => h.engineOf handle
    | none => default
  clock := h.clock
  entropy := h.entropy
  events := h.events
  boundaries := h.boundaries

/-- The host after an operation over an engine. -/
def withAmbient (h : Host) (handle : Option HandleId) (a : Ambient) : Host :=
  let h :=
    match handle with
    | some handle => h.withEngine handle a.engine
    | none => h
  { h with clock := a.clock, entropy := a.entropy, events := a.events, boundaries := a.boundaries }

/-- Runs a call of a barrier over the engine with a number. -/
def callBarrier {α : Type} (h : Host) (handle : HandleId) (workers : Bool) (call : BarrierCall α) :
    Except BarrierError α × Host :=
  let a := h.ambient (some handle)
  match call { a with engine := { a.engine with workers } } with
  | .ok x a => (.ok x, h.withAmbient (some handle) a)
  | .error error a => (.error error, h.withAmbient (some handle) a)

/-- Replaces the fault plan of an engine that has one. -/
def planFaults (h : Host) (handle : HandleId) (plan : FaultPlan) : Host :=
  let e := h.engineOf handle
  match e.face with
  | .bare => h
  | .watched _ => h.withEngine handle { e with face := .watched plan }
  | .minimal _ => h.withEngine handle { e with face := .minimal plan }

/-- Changes a value of the volatile engine with a name in place, and says whether its key
is there; nothing when there is no such engine. -/
def corrupt (h : Host) (name : String) (key : String) (change : Bytes → Bytes) :
    Option (Bool × Host) := do
  let medium ← h.volatileMedium? name
  let (found, contents) := ((h.media.find? medium).getD default).corrupt key change
  pure (found, { h with media := h.media.insert medium contents })

end Strongbox.Host
