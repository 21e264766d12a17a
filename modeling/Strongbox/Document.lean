import Strongbox.Json.Value
import Strongbox.Path
import Strongbox.Time.Instant

/-!
# Documents

A document is a path, an open map of fields, and the times of its first and its latest
write.  A collection is the set of documents whose paths share their first segment.
-/

namespace Strongbox

open Time (Instant)

/-- The fields of a document. -/
abbrev Fields := Json.Members

/-- The field of a document that holds a single value. -/
def dataField : String := "data"

/-- A document as it is handed out.  One listed without its data has no fields and no
times. -/
structure Document where
  path : String
  fields : Fields
  createdAt : Option Instant
  updatedAt : Option Instant

namespace Document

/-- The document at the normalized form of a path, without fields and times. -/
def bare (raw : String) : Document :=
  ⟨Path.normalize raw, [], none, none⟩

/-- The name of the collection that the document belongs to. -/
def collection? (d : Document) : Option String := Path.first? d.path

/-- The last segment of the document's path. -/
def name? (d : Document) : Option String := Path.last? d.path

/-- The value of a field. -/
def get? (d : Document) (field : String) : Option Json.Value := d.fields.find? field

/-- The value of the field for single values. -/
def data? (d : Document) : Option Json.Value := d.get? dataField

end Document

/-- A collection, given by its path. -/
structure Collection where
  path : String
  deriving DecidableEq, Repr

/-- The name of a collection. -/
def Collection.name (c : Collection) : String := (Path.first? c.path).getD ""

/-- What a write does to fields that are stored already. -/
inductive WriteMode where
  /-- The stored fields are dropped. -/
  | replace
  /-- The stored fields are kept unless a new one has their name. -/
  | merge
  deriving DecidableEq, Repr

/-- Which documents a listing returns. -/
structure Window where
  /-- Only paths that continue with this text below the parent. -/
  stem : String := ""
  /-- How many documents are passed over first. -/
  index : Nat := 0
  /-- The greatest number of documents, or zero for all. -/
  limit : Nat := 0
  /-- Whether only the paths are returned. -/
  pathsOnly : Bool := false
  deriving DecidableEq, Repr

end Strongbox
