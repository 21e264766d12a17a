import Strongbox.Cipher.Error
import Strongbox.Context
import Strongbox.Engine.Error

/-!
# Failures of a store

The failures of the encryption barrier, which are those of the cipher and of the engine,
and the failures of the store above it.  They name paths, never values.
-/

namespace Strongbox

/-- A failure of the encryption barrier. -/
inductive BarrierError where
  | crypto (cause : CryptoError)
  | storage (cause : StorageError)
  deriving DecidableEq, Repr

/-- The message of a failure, unless the machine chooses its words. -/
def BarrierError.message? : BarrierError → Option String
  | .crypto cause => some ("barrier crypto error: " ++ cause.message)
  | .storage cause => cause.message?.map ("barrier storage error: " ++ ·)

/-- A failure of a store. -/
inductive StoreError where
  /-- The store is closed. -/
  | notOpen
  /-- The store is open already. -/
  | alreadyOpen
  /-- The path cannot be used for the operation. -/
  | invalidPath (path reason : String)
  /-- A document to be created is there already. -/
  | pathExists (path : String)
  /-- A record names another path than the one it was read from. -/
  | pathMismatch (expected actual : String)
  /-- A record could not be decrypted. -/
  | decryption (path : String) (cause : CryptoError)
  /-- A record could not be encrypted. -/
  | encryption (path : String) (cause : CryptoError)
  /-- The engine failed. -/
  | storage (cause : StorageError)
  /-- A record could not be read, or is not what the operation needs. -/
  | codec (path reason : String)
  /-- Collections were asked for below another path than the root. -/
  | nestedCollections (parent : String)
  /-- A counter has no identifiers left. -/
  | incrementExhausted (path : String)
  /-- The listing was released. -/
  | iteratorReleased
  /-- The store was closed after the listing was started. -/
  | iteratorInvalidated
  /-- The caller cancelled the operation. -/
  | cancelled
  /-- The caller's deadline has passed. -/
  | deadlineExceeded
  /-- The settings of the store cannot be used. -/
  | config (reason : String)
  deriving DecidableEq, Repr

namespace StoreError

/-- The message of a failure, unless the machine chooses its words. -/
def message? : StoreError → Option String
  | .notOpen => some "store is not open"
  | .alreadyOpen => some "store is already open"
  | .invalidPath path reason => some s!"invalid path '{path}': {reason}"
  | .pathExists path => some s!"path already exists: {path}"
  | .pathMismatch expected actual =>
    some s!"record path mismatch: requested '{expected}', record holds '{actual}'"
  | .decryption path cause => some s!"failed to decrypt record at '{path}': {cause.message}"
  | .encryption path cause => some s!"failed to encrypt record at '{path}': {cause.message}"
  | .storage cause => cause.message?.map ("storage error: " ++ ·)
  | .codec path reason => some s!"record codec error at '{path}': {reason}"
  | .nestedCollections parent => some s!"only root collections supported, got parent '{parent}'"
  | .incrementExhausted path =>
    some s!"increment counter at '{path}' exhausted its identifier space"
  | .iteratorReleased => some "iterator has been released"
  | .iteratorInvalidated => some "iterator outlived the store it was created from"
  | .cancelled => some "operation cancelled"
  | .deadlineExceeded => some "operation deadline exceeded"
  | .config reason => some s!"invalid store config: {reason}"

/-- A failure of the barrier, with the path it concerns. -/
def ofBarrier (path : String) : BarrierError → StoreError
  | .storage cause => .storage cause
  | .crypto (.encryption reason) => .encryption path (.encryption reason)
  | .crypto cause => .decryption path cause

/-- The failure of an operation that was stopped at a boundary. -/
def ofInterruption : Interruption → StoreError
  | .cancelled => .cancelled
  | .deadlineExceeded => .deadlineExceeded

end StoreError

end Strongbox
