import Strongbox.Table.Bindings

/-!
# JSON values

The dynamic values that documents hold.  An object is a list of members in ascending
order of their names, each name once; `Members.insert` keeps it so.
-/

namespace Strongbox.Json

/-- A JSON number: exact when written as an integer that fits 64 bits, else binary64. -/
inductive Number where
  | integer (n : Int)
  | float (x : Float)

/-- A JSON value. -/
inductive Value where
  | null
  | bool (b : Bool)
  | number (n : Number)
  | string (s : String)
  | array (items : List Value)
  | object (members : List (String × Value))

instance : Inhabited Value := ⟨.null⟩

/-- The members of an object, by ascending name. -/
abbrev Members := List (String × Value)

namespace Members

/-- The value of a member. -/
def find? (name : String) (members : Members) : Option Value := Bindings.find? name members

/-- The members with `name` set to `value`. -/
def insert (name : String) (value : Value) (members : Members) : Members :=
  Bindings.insert name value members

/-- The union of two objects, in which the members of `newer` win. -/
def merge (older newer : Members) : Members :=
  newer.foldl (fun ms m => insert m.1 m.2 ms) older

end Members

namespace Value

/-- The value as a natural number below 2 ^ 64, if it is one. -/
def toWord? : Value → Option Nat
  | .number (.integer n) => if 0 ≤ n ∧ n < 18446744073709551616 then some n.toNat else none
  | _ => none

mutual

/-- How deep arrays and objects are nested in a value, the value itself included. -/
def depth : Value → Nat
  | .array items => depthOfItems items + 1
  | .object members => depthOfMembers members + 1
  | _ => 0

/-- The greatest depth among the items of an array. -/
def depthOfItems : List Value → Nat
  | [] => 0
  | v :: rest => max (depth v) (depthOfItems rest)

/-- The greatest depth among the values of an object. -/
def depthOfMembers : List (String × Value) → Nat
  | [] => 0
  | (_, v) :: rest => max (depth v) (depthOfMembers rest)

end

end Value

end Strongbox.Json
