import Strongbox.Engine.Volatile

/-!
# The tree file

An engine that keeps its entries in one file as a balanced tree.  A scan reads one entry
at a time and stops when the page is full or a key no longer begins with the stem; the
last entry is the first one of a walk downwards.
-/

namespace Strongbox.TreeFile

/-- The entries of a page that already holds `taken`, read from the walk `ahead`. -/
def page (stem : String) (limit : Nat) : (taken : Nat) → (ahead : List Entry) → List Entry
  | _, [] => []
  | taken, e :: ahead =>
    if limit ≠ 0 ∧ limit ≤ taken then []
    else if Range.begins stem e.1 then e :: page stem limit (taken + 1) ahead
    else []

/-- One page of the entries in the range of `stem`, strictly after the key `after`. -/
def scan (t : Table String Bytes) (stem : String) (after : Option String) (limit : Nat) :
    List Entry :=
  page stem limit 0 (t.entries.dropWhile fun e => Range.isBelow stem after e.1)

/-- Whether a key lies at or above the successor of a stem. -/
def isPast (upper : Option String) (key : String) : Bool :=
  match upper with
  | some u => !(key < u)
  | none => false

/-- The entry with the greatest key that begins with `stem`. -/
def last? (t : Table String Bytes) (stem : String) : Option Entry :=
  match t.entries.reverse.dropWhile fun e => isPast (Range.successor? stem) e.1 with
  | [] => none
  | e :: _ => if stem ≤ e.1 then some e else none

end Strongbox.TreeFile
