import Strongbox.Json.Parser
import Strongbox.Json.Skip
import Strongbox.Time.Stamp

/-!
# Forms

A document's JSON text has known fields, each read in its own way.  It is an object that
may have other members too, which are passed over, or an array that holds the fields in
order.  A field may be left out where the form has a value for that case.

A fault of shape that no token is to blame for, such as a missing field, is placed behind
the closing bracket, so the rest of the container is closed before it is reported.
-/

namespace Strongbox

open Json (Fault Read halt)

/-- What a field holds. -/
inductive Part where
  | text (s : String)
  | fields (m : Json.Members)
  | time (t : Option Time.Instant)

namespace Form

/-! ## Reading one field -/

/-- The fault of a value that is not of the kind asked for; it lies behind a scalar and in
front of a container. -/
def wrongKind : Bytes → Fault
  | [] => ⟨.ending, []⟩
  | b :: rest =>
    let behind {α : Type} (r : Read α) : Fault :=
      match r with
      | .ok (_, rest) => ⟨.shape, rest⟩
      | .error f => f
    if b = 110 then behind ((Json.literal Json.nullTail rest).map ((), ·))
    else if b = 116 then behind ((Json.literal Json.trueTail rest).map ((), ·))
    else if b = 102 then behind ((Json.literal Json.falseTail rest).map ((), ·))
    else if b = 45 then behind (Json.number true rest)
    else if Json.isDigit b then behind (Json.number false (b :: rest))
    else if b = 34 then behind (Json.string rest)
    else if b = 91 ∨ b = 123 then ⟨.shape, b :: rest⟩
    else ⟨.grammar, rest⟩

/-- Reads a string. -/
def readString (bs : Bytes) : Read String :=
  match Json.skipBlanks bs with
  | [] => halt .ending []
  | b :: rest => if b = 34 then Json.string rest else .error (wrongKind (b :: rest))

/-- Reads a string field. -/
def readText (bs : Bytes) : Read Part :=
  (readString bs).map fun (s, rest) => (.text s, rest)

/-- The levels of containers that the values of a document's fields may open: the document
and its map of fields are two levels themselves. -/
def fieldLevels : Nat := Json.maxLevels - 2

/-- Reads a map of fields. -/
def readFields (bs : Bytes) : Read Part :=
  match Json.skipBlanks bs with
  | [] => halt .ending []
  | b :: rest =>
    if b = 123 then
      (Json.members (Json.value fieldLevels) (rest.length + 1) true [] rest).map
        fun (m, rest) => (.fields m, rest)
    else .error (wrongKind (b :: rest))

/-- Reads a time stamp. -/
def readTime (bs : Bytes) : Read Part :=
  match readString bs with
  | .error f => .error f
  | .ok (s, rest) =>
    match Time.Instant.ofStamp? s with
    | some t => .ok (.time (some t), rest)
    | none => halt .shape rest

/-- Reads a time stamp or `null`. -/
def readOptionalTime (bs : Bytes) : Read Part :=
  match Json.skipBlanks bs with
  | b :: rest =>
    if b = 110 then (Json.literal Json.nullTail rest).map (.time none, ·)
    else readTime (b :: rest)
  | [] => readTime []

end Form

/-! ## Forms -/

/-- A field of a form. -/
structure FormField where
  name : String
  read : Bytes → Read Part
  /-- What stands for the field in an object that lacks it. -/
  absent : Option Part
  /-- What stands for the field in an array that ends before it. -/
  short : Option Part

/-- The fields of a text, in order. -/
abbrev Form := List FormField

namespace Form

/-- Why the reading of a container stopped: at a fault, or at a fault of shape that lies
behind the container's end. -/
inductive Stop where
  | fault (f : Fault)
  | afterEnd (rest : Bytes)

/-- Reads the fields from the items of an array. -/
def ofArray : Form → (first : Bool) → Bytes → Except Stop (List Part × Bytes)
  | [], _, bs => .ok ([], bs)
  | f :: fs, first, bs =>
    match Json.nextItem first bs with
    | .error e => .error (.fault e)
    | .ok (none, rest) =>
      match f.short with
      | none => .error (.afterEnd rest)
      | some p =>
        match ofArray fs first rest with
        | .error e => .error e
        | .ok (ps, rest) => .ok (p :: ps, rest)
    | .ok (some start, _) =>
      match f.read start with
      | .error e => .error (.fault e)
      | .ok (p, rest) =>
        match ofArray fs false rest with
        | .error e => .error e
        | .ok (ps, rest) => .ok (p :: ps, rest)

/-- Reads the known members of an object, after those in `found`; `fuel` bounds the number
of members. -/
def membersFrom (form : Form) :
    (fuel : Nat) → (first : Bool) → (found : List (String × Part)) → Bytes →
      Except Stop (List (String × Part) × Bytes)
  | 0, _, _, _ => .error (.fault ⟨.ending, []⟩)
  | fuel + 1, first, found, bs =>
    match Json.nextName first bs with
    | .error e => .error (.fault e)
    | .ok (none, rest) => .ok (found, rest)
    | .ok (some start, _) =>
      match Json.string start with
      | .error e => .error (.fault e)
      | .ok (name, rest) =>
        match form.find? fun f => f.name = name with
        | none =>
          match Json.colon rest with
          | .error e => .error (.fault e)
          | .ok rest =>
            match Json.skipValue rest with
            | .error e => .error (.fault e)
            | .ok rest => membersFrom form fuel false found rest
        | some f =>
          if found.any fun p => p.1 = name then
            .error (.afterEnd rest)
          else
            match Json.colon rest with
            | .error e => .error (.fault e)
            | .ok rest =>
              match f.read rest with
              | .error e => .error (.fault e)
              | .ok (p, rest) => membersFrom form fuel false ((name, p) :: found) rest

/-- The fields in order, from the members that were found; nothing when one is missing. -/
def complete (form : Form) (found : List (String × Part)) : Option (List Part) :=
  form.mapM fun f => (found.lookup f.name).or f.absent

/-- Reads the fields from the members of an object. -/
def ofObject (form : Form) (bs : Bytes) : Except Stop (List Part × Bytes) :=
  match membersFrom form (bs.length + 1) true [] bs with
  | .error e => .error e
  | .ok (found, rest) =>
    match complete form found with
    | some ps => .ok (ps, rest)
    | none => .error (.afterEnd rest)

/-- Closes an array: the fault if more items follow, and the octets behind what was
looked at. -/
def closeArray (bs : Bytes) : Option Fault × Bytes :=
  match Json.skipBlanks bs with
  | [] => (some ⟨.ending, []⟩, [])
  | b :: rest =>
    if b = 93 then (none, rest)
    else if b = 44 then
      let rest := Json.skipBlanks rest
      (some ⟨.grammar, rest.tail⟩, rest)
    else (some ⟨.grammar, rest⟩, b :: rest)

/-- Closes an object: the fault if more members follow, and the octets behind what was
looked at. -/
def closeObject (bs : Bytes) : Option Fault × Bytes :=
  match Json.skipBlanks bs with
  | [] => (some ⟨.ending, []⟩, [])
  | b :: rest =>
    if b = 125 then (none, rest)
    else (some ⟨.grammar, rest⟩, b :: rest)

/-- Closes a container after its fields were read or were found faulty. -/
def settle (close : Bytes → Option Fault × Bytes) (r : Except Stop (List Part × Bytes)) :
    Read (List Part) :=
  match r with
  | .ok (ps, rest) =>
    match close rest with
    | (none, rest) => .ok (ps, rest)
    | (some f, _) => .error f
  | .error (.fault f) => .error f
  | .error (.afterEnd rest) => halt .shape (close rest).2

/-- Reads the fields of a form. -/
def readParts (form : Form) (bs : Bytes) : Read (List Part) :=
  match Json.skipBlanks bs with
  | [] => halt .ending []
  | b :: rest =>
    if b = 91 then settle closeArray (ofArray form true rest)
    else if b = 123 then settle closeObject (ofObject form rest)
    else .error (wrongKind (b :: rest))

/-- The fields of a text that holds nothing else. -/
def parse (form : Form) (text : Bytes) : Except Fault (List Part) :=
  match form.readParts text with
  | .error f => .error f
  | .ok (ps, rest) => (Json.finish rest).map fun _ => ps

end Form

end Strongbox
