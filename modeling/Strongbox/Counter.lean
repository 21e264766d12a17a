import Strongbox.Decimal.Layout
import Strongbox.Document

/-!
# Counters

A counter hands out identifiers in batches of a thousand.  Its document holds the start
of the next batch, which is written before any identifier of the current one is handed
out, so that a lost store skips identifiers and never repeats one.  The last number of a
batch is not used.
-/

namespace Strongbox

/-- The place in a reserved batch: the identifier handed out last, and the one at which
the batch is spent. -/
structure Cursor where
  current : Nat
  ceiling : Nat
  deriving DecidableEq, Repr

namespace Cursor

/-- The number of identifiers between two batch starts. -/
def batchSize : Nat := 1000

/-- The least number that does not fit an unsigned 64-bit word. -/
def wordLimit : Nat := 18446744073709551616

/-- The batch that starts at `start`, and the start of the next one; nothing when that
does not fit a word. -/
def reserve (start : Nat) : Option (Cursor × Nat) :=
  let next := start + batchSize
  if next < wordLimit then some (⟨start, next - 1⟩, next) else none

/-- Whether the batch is spent. -/
def isSpent (c : Cursor) : Bool := c.ceiling ≤ c.current

/-- The next identifier of the batch, and the cursor after it. -/
def advance (c : Cursor) : Option (Nat × Cursor) :=
  if c.isSpent then none else some (c.current + 1, { c with current := c.current + 1 })

end Cursor

namespace Counter

/-- The number of digits of an identifier. -/
def width : Nat := 15

/-- The greatest identifier that has its digits. -/
def maxId : Nat := 999999999999999

/-- An identifier as a decimal of fixed width; nothing when it is too large. -/
def formatId (id : Nat) : Option String :=
  if id ≤ maxId then
    let ds := Decimal.digitsOf id
    some (String.ofList (List.replicate (width - ds.length) '0' ++ ds))
  else none

/-- The field that holds the start of the next batch. -/
def field : String := "counter"

/-- The start of the next batch that a document's fields hold. -/
def stored? (fields : Fields) : Option Nat :=
  (fields.find? field).bind Json.Value.toWord?

/-- The fields of a counter whose next batch starts at `next`. -/
def fieldsFor (next : Nat) : Fields := [(field, .number (.integer next))]

end Counter

end Strongbox
