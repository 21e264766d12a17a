import Strongbox.Bytes
import Strongbox.Engine.Range
import Strongbox.Table

/-!
# The volatile engine

Entries live in an ordered table in memory.  A page of a range is the run of keys from
the place where the scan starts for as long as they begin with the stem, and the last
entry is the greatest one from the stem up to its successor.
-/

namespace Strongbox

/-- A key and the value stored under it. -/
abbrev Entry := String × Bytes

namespace Volatile

/-- One page of the entries in the range of `stem`, strictly after the key `after`. -/
def scan (t : Table String Bytes) (stem : String) (after : Option String) (limit : Nat) :
    List Entry :=
  Range.cut limit
    ((t.entries.dropWhile fun e => Range.isBelow stem after e.1).takeWhile
      fun e => Range.begins stem e.1)

/-- Whether a key lies from the stem up to its successor. -/
def isWithin (stem : String) (upper : Option String) (key : String) : Bool :=
  match upper with
  | some u => stem ≤ key && key < u
  | none => stem ≤ key

/-- The entry with the greatest key that begins with `stem`. -/
def last? (t : Table String Bytes) (stem : String) : Option Entry :=
  (t.entries.filter fun e => isWithin stem (Range.successor? stem) e.1).getLast?

end Volatile

end Strongbox
