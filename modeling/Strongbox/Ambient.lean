import Strongbox.Clock
import Strongbox.Engine.Basic
import Strongbox.Entropy
import Strongbox.Event

/-!
# The surroundings of a store

What a store works with and does not own: the engine, the clock, the source of random
octets, the log, and the number of operation boundaries passed so far.
-/

namespace Strongbox

/-- The surroundings of a store. -/
structure Ambient where
  engine : Engine
  clock : Clock
  entropy : Entropy
  /-- The events so far, the latest first. -/
  events : List Event := []
  /-- How many boundaries have been passed. -/
  boundaries : Nat := 0

/-- Runs an engine call in the surroundings. -/
def EngineCall.within {α ε : Type} (wrap : StorageError → ε) (call : EngineCall α) :
    EStateM ε Ambient α := fun s =>
  match call s.engine with
  | .ok a engine => .ok a { s with engine }
  | .error e engine => .error (wrap e) { s with engine }

end Strongbox
