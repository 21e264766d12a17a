import Strongbox.Bytes

/-!
# Random octets

The source of random octets is a stream and the number of octets drawn from it so far.
-/

namespace Strongbox

/-- A stream of random octets, of which `drawn` have been used. -/
structure Entropy where
  stream : Nat → UInt8
  drawn : Nat

namespace Entropy

/-- The stream that repeats a byte string. -/
def cycle (seed : Bytes) : Entropy :=
  let octets := seed.toArray
  ⟨fun i => octets.getD (i % octets.size) 0, 0⟩

/-- The next `n` octets, and the source without them. -/
def draw (e : Entropy) (n : Nat) : Bytes × Entropy :=
  ((List.range n).map fun i => e.stream (e.drawn + i), { e with drawn := e.drawn + n })

end Entropy

end Strongbox
