import Strongbox.Document
import Strongbox.Error
import Strongbox.Form
import Strongbox.Json.Printer

/-!
# Records

A record is the plaintext of a stored document: its path, its fields and its two times,
as JSON.  The path is part of it, and a record is accepted only from the key that it
names.
-/

namespace Strongbox

open Time (Instant)

/-- The plaintext of a stored document. -/
structure Record where
  path : String
  fields : Fields
  createdAt : Instant
  updatedAt : Instant

namespace Record

/-- The JSON form of a record. -/
def toJson (r : Record) : Json.Value :=
  .object [("path", .string r.path), ("values", .object r.fields),
    ("created_at", .string r.createdAt.stamp), ("updated_at", .string r.updatedAt.stamp)]

/-- The bytes of a record. -/
def toBytes (r : Record) : Bytes := r.toJson.toBytes

/-- The form of a record: only its fields may be left out. -/
def form : Form :=
  [⟨"path", Form.readText, none, none⟩,
    ⟨"values", Form.readFields, some (.fields []), some (.fields [])⟩,
    ⟨"created_at", Form.readTime, none, none⟩,
    ⟨"updated_at", Form.readTime, none, none⟩]

/-- The record with the given fields of the form. -/
def ofParts? : List Part → Option Record
  | [.text path, .fields fields, .time (some createdAt), .time (some updatedAt)] =>
    some ⟨path, fields, createdAt, updatedAt⟩
  | _ => none

/-- The record that a byte string holds. -/
def parse (bytes : Bytes) : Except Json.Fault Record :=
  match form.parse bytes with
  | .error f => .error f
  | .ok parts =>
    match ofParts? parts with
    | some r => .ok r
    | none => Json.halt .shape []

/-- The record that a byte string read from the key `path` holds. -/
def ofBytes (path : String) (bytes : Bytes) : Except StoreError Record :=
  match parse bytes with
  | .error f => .error (.codec path (f.describe bytes))
  | .ok r => if r.path = path then .ok r else .error (.pathMismatch path r.path)

/-- The document of a record. -/
def toDocument (r : Record) : Document :=
  ⟨r.path, r.fields, some r.createdAt, some r.updatedAt⟩

end Record

namespace Document

/-- The JSON form of a document. -/
def toJson (d : Document) : Json.Value :=
  let time (t : Option Instant) : Json.Value :=
    match t with
    | some t => .string t.stamp
    | none => .null
  .object [("path", .string d.path), ("values", .object d.fields),
    ("created_at", time d.createdAt), ("updated_at", time d.updatedAt)]

/-- The form of a document: an object may lack everything but the path. -/
def form : Form :=
  [⟨"path", Form.readText, none, none⟩,
    ⟨"values", Form.readFields, some (.fields []), some (.fields [])⟩,
    ⟨"created_at", Form.readOptionalTime, some (.time none), none⟩,
    ⟨"updated_at", Form.readOptionalTime, some (.time none), none⟩]

/-- The document with the given fields of the form. -/
def ofParts? : List Part → Option Document
  | [.text path, .fields fields, .time createdAt, .time updatedAt] =>
    some ⟨path, fields, createdAt, updatedAt⟩
  | _ => none

/-- The document that a text holds. -/
def parse (text : Bytes) : Except Json.Fault Document :=
  match form.parse text with
  | .error f => .error f
  | .ok parts =>
    match ofParts? parts with
    | some d => .ok d
    | none => Json.halt .shape []

end Document

namespace Collection

/-- The form of a collection. -/
def form : Form := [⟨"path", Form.readText, none, none⟩]

/-- The collection with the given fields of the form. -/
def ofParts? : List Part → Option Collection
  | [.text path] => some ⟨path⟩
  | _ => none

/-- The collection that a text holds. -/
def parse (text : Bytes) : Except Json.Fault Collection :=
  match form.parse text with
  | .error f => .error f
  | .ok parts =>
    match ofParts? parts with
    | some c => .ok c
    | none => Json.halt .shape []

end Collection

end Strongbox
