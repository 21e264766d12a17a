import Strongbox.Time.Calendar

/-!
# Instants

An instant counts seconds from 1970-01-01T00:00:00Z, without leap seconds, and
nanoseconds within the second.  Nanoseconds from 10 ^ 9 on denote a leap second that
follows the counted one.
-/

namespace Strongbox.Time

/-- A point in time. -/
structure Instant where
  seconds : Int
  nanos : Nat
  deriving DecidableEq, Repr

namespace Instant

/-- 1970-01-01T00:00:00Z. -/
def epoch : Instant := ⟨0, 0⟩

/-- Instants are ordered by their seconds, then by their nanoseconds. -/
def le (a b : Instant) : Bool :=
  a.seconds < b.seconds || (a.seconds == b.seconds && a.nanos ≤ b.nanos)

/-- The later of two instants. -/
def later (a b : Instant) : Instant :=
  if a.le b then b else a

/-- Whether the date of the instant can be represented. -/
def isRepresentable (t : Instant) : Bool :=
  Date.minDays ≤ t.seconds / 86400 && t.seconds / 86400 ≤ Date.maxDays

/-- The instant the given number of milliseconds after the epoch, if its date can be
represented. -/
def ofMillis? (millis : Int) : Option Instant :=
  let t : Instant := ⟨millis / 1000, (millis % 1000).toNat * 1000000⟩
  if t.isRepresentable then some t else none

/-- The instant the given number of nanoseconds after the epoch. -/
def ofNanos (nanos : Int) : Instant :=
  ⟨nanos / 1000000000, (nanos % 1000000000).toNat⟩

/-- The whole milliseconds from the epoch to the instant. -/
def toMillis (t : Instant) : Int :=
  t.seconds * 1000 + t.nanos / 1000000

end Instant

end Strongbox.Time
