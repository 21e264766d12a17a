import Strongbox.Json.Token
import Strongbox.Json.Numeral

/-!
# Skipping a JSON value

A member that a document does not know is passed over without building its value.  The
open arrays and objects are kept in a list, so nesting has no limit here, and strings
are neither decoded nor checked for UTF-8.
-/

namespace Strongbox.Json

/-- An array or object that is still open. -/
inductive Frame where
  | array
  | object
  deriving DecidableEq, Repr

namespace Skip

/-- Passes over what follows a backslash. -/
def escapeTail : Bytes → Except Fault Bytes
  | [] => halt .ending []
  | b :: rest =>
    if b = 34 ∨ b = 92 ∨ b = 47 ∨ b = 98 ∨ b = 102 ∨ b = 110 ∨ b = 114 ∨ b = 116 then .ok rest
    else if b = 117 then (codeUnit rest).map (·.2)
    else halt .grammar rest

/-- Passes over a string whose opening quotation mark has been read; `fuel` bounds its
length. -/
def string : (fuel : Nat) → Bytes → Except Fault Bytes
  | 0, _ => halt .ending []
  | _, [] => halt .ending []
  | fuel + 1, b :: rest =>
    if b = 34 then .ok rest
    else if b = 92 then
      match escapeTail rest with
      | .error f => .error f
      | .ok rest => string fuel rest
    else if b < 32 then halt .grammar (b :: rest)
    else string fuel rest

/-- Passes over the digits of an exponent and its sign. -/
def exponent (bs : Bytes) : Except Fault Bytes :=
  match (exponentSign bs).2 with
  | [] => halt .grammar []
  | b :: rest => if isDigit b then .ok (rest.dropWhile isDigit) else halt .grammar rest

/-- Passes over an exponent, if there is one. -/
def exponentPart : Bytes → Except Fault Bytes
  | [] => .ok []
  | b :: rest => if isExponentLetter b then exponent rest else .ok (b :: rest)

/-- Passes over the digits after a point. -/
def fraction (bs : Bytes) : Except Fault Bytes :=
  match bs with
  | [] => halt .grammar []
  | b :: rest =>
    if isDigit b then exponentPart (rest.dropWhile isDigit) else halt .grammar rest

/-- Passes over a fraction and an exponent, if there are any. -/
def integerEnd : Bytes → Except Fault Bytes
  | [] => .ok []
  | b :: rest => if b = 46 then fraction rest else exponentPart (b :: rest)

/-- Passes over a number whose sign has been read. -/
def number : Bytes → Except Fault Bytes
  | [] => halt .grammar []
  | b :: rest =>
    if b = 48 then
      match rest with
      | d :: tail => if isDigit d then halt .grammar tail else integerEnd rest
      | [] => .ok []
    else if isDigit b then integerEnd (rest.dropWhile isDigit)
    else halt .grammar rest

/-- Passes over a scalar, or over the opening bracket of a container, which is returned. -/
def opening : Bytes → Except Fault (Option Frame × Bytes)
  | [] => halt .ending []
  | b :: rest =>
    if b = 110 then (literal nullTail rest).map (none, ·)
    else if b = 116 then (literal trueTail rest).map (none, ·)
    else if b = 102 then (literal falseTail rest).map (none, ·)
    else if b = 45 then (number rest).map (none, ·)
    else if isDigit b then (number (b :: rest)).map (none, ·)
    else if b = 34 then (string (rest.length + 1) rest).map (none, ·)
    else if b = 91 then .ok (some .array, rest)
    else if b = 123 then .ok (some .object, rest)
    else halt .grammar rest

/-- Passes over closing brackets up to the next item of an open container.  `comma` says
whether a comma has to come before that item.  The result has no open container when
the outermost one was closed. -/
def closing : (comma : Bool) → (frames : List Frame) → Bytes → Except Fault (List Frame × Bytes)
  | _, [], bs => .ok ([], bs)
  | comma, f :: frames, bs =>
    match skipBlanks bs with
    | [] => halt .ending []
    | b :: rest =>
      if comma ∧ b = 44 then .ok (f :: frames, rest)
      else if (b = 93 ∧ f = .array) ∨ (b = 125 ∧ f = .object) then closing true frames rest
      else if comma then halt .grammar rest
      else .ok (f :: frames, b :: rest)

/-- Passes over the name and the colon of the next member of an object. -/
def memberName (bs : Bytes) : Except Fault Bytes :=
  match skipBlanks bs with
  | [] => halt .ending []
  | b :: rest =>
    if b ≠ 34 then
      halt .grammar rest
    else
      match string (rest.length + 1) rest with
      | .error f => .error f
      | .ok rest =>
        match skipBlanks rest with
        | [] => halt .ending []
        | c :: rest => if c = 58 then .ok rest else halt .grammar rest

/-- Passes over a value inside the open containers `frames`, and over all that follows
up to the end of the outermost one; `fuel` bounds the number of values. -/
def values : (fuel : Nat) → (frames : List Frame) → Bytes → Except Fault Bytes
  | 0, _, _ => halt .ending []
  | fuel + 1, frames, bs =>
    match opening (skipBlanks bs) with
    | .error f => .error f
    | .ok (frame, rest) =>
      let next :=
        match frame with
        | some f => closing false (f :: frames) rest
        | none => closing true frames rest
      match next with
      | .error f => .error f
      | .ok ([], rest) => .ok rest
      | .ok (.array :: frames, rest) => values fuel (.array :: frames) rest
      | .ok (.object :: frames, rest) =>
        match memberName rest with
        | .error f => .error f
        | .ok rest => values fuel (.object :: frames) rest

end Skip

/-- Passes over one value. -/
def skipValue (bs : Bytes) : Except Fault Bytes :=
  Skip.values (bs.length + 1) [] bs

end Strongbox.Json
