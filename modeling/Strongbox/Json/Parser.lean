import Strongbox.Json.Token
import Strongbox.Json.Numeral

/-!
# Reading a JSON value

`value d` reads a value in which arrays and objects may be nested `d` deep.  The outermost
reader `parse` allows 127 levels and nothing after the value but white space.
-/

namespace Strongbox.Json

/-- Moves to the next item of an array: the octets at which it begins, or nothing when
the array ends there.  `first` says whether it would be the first item. -/
def nextItem (first : Bool) (bs : Bytes) : Except Fault (Option Bytes × Bytes) :=
  match skipBlanks bs with
  | [] => halt .ending []
  | b :: rest =>
    if b = 93 then
      .ok (none, b :: rest)
    else if first then
      .ok (some (b :: rest), b :: rest)
    else if b ≠ 44 then
      halt .grammar rest
    else
      match skipBlanks rest with
      | [] => halt .ending []
      | c :: rest => if c = 93 then halt .grammar rest else .ok (some (c :: rest), c :: rest)

/-- Moves to the name of the next member of an object: the octets after its quotation
mark, or nothing when the object ends there. -/
def nextName (first : Bool) (bs : Bytes) : Except Fault (Option Bytes × Bytes) :=
  match skipBlanks bs with
  | [] => halt .ending []
  | b :: rest =>
    if b = 125 then
      .ok (none, b :: rest)
    else if first then
      if b = 34 then .ok (some rest, rest) else halt .grammar rest
    else if b ≠ 44 then
      halt .grammar rest
    else
      match skipBlanks rest with
      | [] => halt .ending []
      | c :: rest => if c = 34 then .ok (some rest, rest) else halt .grammar rest

/-- Reads the colon between a name and its value. -/
def colon (bs : Bytes) : Except Fault Bytes :=
  match skipBlanks bs with
  | [] => halt .ending []
  | b :: rest => if b = 58 then .ok rest else halt .grammar rest

/-- Reads the items of an array whose bracket has been read, up to and including its end;
`done` holds the items read so far, latest first, and `fuel` bounds their number. -/
def items (item : Bytes → Read Value) : (fuel : Nat) → (done : List Value) → Bytes → Read (List Value)
  | 0, _, _ => halt .ending []
  | fuel + 1, done, bs =>
    match nextItem done.isEmpty bs with
    | .error f => .error f
    | .ok (none, rest) => .ok (done.reverse, rest.tail)
    | .ok (some start, _) =>
      match item start with
      | .error f => .error f
      | .ok (v, rest) => items item fuel (v :: done) rest

/-- Reads the members of an object whose bracket has been read, up to and including its
end; a name that occurs again replaces the earlier value. -/
def members (item : Bytes → Read Value) :
    (fuel : Nat) → (first : Bool) → (done : Members) → Bytes → Read Members
  | 0, _, _, _ => halt .ending []
  | fuel + 1, first, done, bs =>
    match nextName first bs with
    | .error f => .error f
    | .ok (none, rest) => .ok (done, rest.tail)
    | .ok (some start, _) =>
      match string start with
      | .error f => .error f
      | .ok (name, rest) =>
        match colon rest with
        | .error f => .error f
        | .ok rest =>
          match item rest with
          | .error f => .error f
          | .ok (v, rest) => members item fuel false (done.insert name v) rest

/-- Reads a value in which containers are nested at most `levels` deep. -/
def value (levels : Nat) (bs : Bytes) : Read Value :=
  match skipBlanks bs with
  | [] => halt .ending []
  | b :: rest =>
    if b = 110 then (literal nullTail rest).map (.null, ·)
    else if b = 116 then (literal trueTail rest).map (.bool true, ·)
    else if b = 102 then (literal falseTail rest).map (.bool false, ·)
    else if b = 45 then (number true rest).map fun (n, r) => (.number n, r)
    else if isDigit b then (number false (b :: rest)).map fun (n, r) => (.number n, r)
    else if b = 34 then (string rest).map fun (s, r) => (.string s, r)
    else if b = 91 then
      match levels with
      | 0 => halt .grammar rest
      | d + 1 => (items (value d) (rest.length + 1) [] rest).map fun (vs, r) => (.array vs, r)
    else if b = 123 then
      match levels with
      | 0 => halt .grammar rest
      | d + 1 =>
        (members (value d) (rest.length + 1) true [] rest).map fun (ms, r) => (.object ms, r)
    else halt .grammar rest

/-- How many levels of arrays and objects a text may open. -/
def maxLevels : Nat := 127

/-- Accepts only white space. -/
def finish (bs : Bytes) : Except Fault Unit :=
  match skipBlanks bs with
  | [] => .ok ()
  | _ :: rest => halt .grammar rest

/-- Reads a text that holds one value. -/
def parse (text : Bytes) : Except Fault Value :=
  match value maxLevels text with
  | .error f => .error f
  | .ok (v, rest) => (finish rest).map fun _ => v

end Strongbox.Json
