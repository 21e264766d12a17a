import Strongbox.Time.Instant

/-!
# Clocks

A clock is the sequence of its readings and the number of readings taken so far.
-/

namespace Strongbox

open Time (Instant)

/-- A source of time stamps. -/
structure Clock where
  readings : Nat → Instant
  taken : Nat

namespace Clock

/-- The current time, and the clock after the reading. -/
def read (c : Clock) : Instant × Clock :=
  (c.readings c.taken, { c with taken := c.taken + 1 })

/-- The next `n` readings. -/
def readMany (c : Clock) (n : Nat) : List Instant :=
  (List.range n).map fun i => c.readings (c.taken + i)

/-- The signed 64-bit integer that agrees with `n` modulo 2 ^ 64. -/
def wrap (n : Int) : Int := Int.bmod n 18446744073709551616

/-- The clock that advances one millisecond a reading from `start`.  Its count wraps
around at 64 bits, and a time without a date reads as the epoch. -/
def ticking (start : Int) : Clock :=
  ⟨fun i => (Instant.ofMillis? (wrap (start + i))).getD Instant.epoch, 0⟩

/-- The ticking clock that starts at 2009-02-13T23:31:30Z. -/
def standard : Clock := ticking 1234567890000

/-- The clock with the given readings, the last of which repeats. -/
def scripted (readings : List Instant) : Clock :=
  let all := readings.toArray
  ⟨fun i => all.getD (min i (all.size - 1)) Instant.epoch, 0⟩

end Clock

end Strongbox
