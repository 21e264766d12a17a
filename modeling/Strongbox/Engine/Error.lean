/-!
# Failures of a storage engine

A failure names the operation that failed and the key or range it touched, never a
value.  Where the wording belongs to the machine, such as the place of a file, it is
left out.
-/

namespace Strongbox

/-- The operations of a storage engine. -/
inductive Operation where
  | get
  | put
  | delete
  | list
  | scan
  | scanKeys
  | last
  | exists
  deriving DecidableEq, Repr

namespace StorageError

/-- What failed. -/
inductive Kind where
  /-- The engine could not be opened. -/
  | opening
  /-- A value could not be read. -/
  | reading
  /-- A value could not be written. -/
  | writing
  /-- A key could not be deleted. -/
  | deleting
  /-- A range could not be walked. -/
  | scanning
  /-- The end of a range could not be found. -/
  | seeking
  /-- The engine's own table is missing. -/
  | missingTable
  /-- A transaction could not be begun or committed. -/
  | transaction
  /-- A stored key is not UTF-8. -/
  | invalidKey
  /-- The workers that carry out engine calls are gone. -/
  | blocking
  deriving DecidableEq, Repr

end StorageError

/-- A failure of a storage engine: what failed, the key, range or place it touched, and
why.  No reason is kept where the machine chooses its words. -/
structure StorageError where
  kind : StorageError.Kind
  subject : String
  reason : Option String
  deriving DecidableEq, Repr

namespace StorageError

/-- The words for a failure, given its reason. -/
def wording (kind : Kind) (subject reason : String) : String :=
  match kind with
  | .opening => s!"failed to open storage at '{subject}': {reason}"
  | .reading => s!"failed to read key '{subject}': {reason}"
  | .writing => s!"failed to write key '{subject}': {reason}"
  | .deleting => s!"failed to delete key '{subject}': {reason}"
  | .scanning => s!"failed to scan range '{subject}': {reason}"
  | .seeking => s!"failed to seek to the end of range '{subject}': {reason}"
  | .missingTable => s!"missing table '{subject}'"
  | .transaction => s!"transaction failed: {reason}"
  | .invalidKey => s!"invalid key encoding: {reason}"
  | .blocking => s!"blocking engine task failed: {reason}"

/-- The message of a failure, unless the machine chooses its words. -/
def message? (e : StorageError) : Option String :=
  e.reason.map (wording e.kind e.subject)

/-- The failure that an operation reports unless told otherwise. -/
def usualKind : Operation → Kind
  | .get => .reading
  | .exists => .reading
  | .put => .writing
  | .delete => .deleting
  | .list => .scanning
  | .scan => .scanning
  | .scanKeys => .scanning
  | .last => .seeking

end StorageError

end Strongbox
