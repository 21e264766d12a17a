/-!
# Ranges of keys

The keys that begin with a stem form a range in the order of keys.  It starts at the stem
itself and ends below the stem's successor, the least text greater than every text that
begins with the stem.
-/

namespace Strongbox.Range

/-- Whether a key begins with a stem. -/
def begins (stem key : String) : Bool :=
  stem.toList.isPrefixOf key.toList

/-- The next character in the order of code points; there is none after U+10FFFF. -/
def nextChar? (c : Char) : Option Char :=
  if c.toNat = 0x10FFFF then none
  else if c.toNat = 0xD7FF then some (Char.ofNat 0xE000)
  else some (Char.ofNat (c.toNat + 1))

/-- The successor of a text, both written from their last character to their first: the
last character that has a next one is replaced by it, and those after it are dropped. -/
def raise : List Char → Option (List Char)
  | [] => none
  | c :: rest =>
    match nextChar? c with
    | some d => some (d :: rest)
    | none => raise rest

/-- The least text greater than every text that begins with `stem`. -/
def successor? (stem : String) : Option String :=
  (raise stem.toList.reverse).map fun cs => String.ofList cs.reverse

/-- Where a scan of the range of `stem` starts: after the key `after`, if that lies at or
above the stem, and else at the stem. -/
def start (stem : String) (after : Option String) : String :=
  match after with
  | some a => if stem ≤ a then a else stem
  | none => stem

/-- Whether a key lies below the place where a scan starts. -/
def isBelow (stem : String) (after : Option String) (key : String) : Bool :=
  match after with
  | some a => if stem ≤ a then key ≤ a else key < stem
  | none => key < stem

/-- The first `limit` elements of a list, or all of them when `limit` is zero. -/
def cut {α : Type} (limit : Nat) (xs : List α) : List α :=
  if limit = 0 then xs else xs.take limit

end Strongbox.Range
