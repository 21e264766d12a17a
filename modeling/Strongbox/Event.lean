/-!
# Events

What a store tells its operators.  Changes of its life are informative, single operations
are details, and records that fail their checks are warnings.  An event names paths and
counts, never values or keys.
-/

namespace Strongbox

/-- How much an event matters. -/
inductive Level where
  | debug
  | info
  | warn
  deriving DecidableEq, Repr

/-- The name of a level in a log line. -/
def Level.name : Level → String
  | .debug => "DEBUG"
  | .info => "INFO"
  | .warn => "WARN"

/-- Something that happened in a store or in opening its engine. -/
inductive Event where
  /-- A store was opened. -/
  | opened (generation : Nat)
  /-- A store was closed. -/
  | closed (generation : Nat)
  /-- A document was created. -/
  | created (path : String)
  /-- A document was set. -/
  | written (merge : Bool) (path : String)
  /-- A path was deleted, whether or not a document was there. -/
  | deleted (path : String) (removed : Bool)
  /-- Several paths were deleted, at which so many documents were. -/
  | deletedMany (removed : Nat)
  /-- A batch of identifiers was reserved up to the next batch. -/
  | reserved (next : Nat) (path : String)
  /-- A listing was started. -/
  | listed (range : String)
  /-- A record could not be decrypted. -/
  | unauthentic (path : String)
  /-- A record names another path than the one it was read from. -/
  | misplaced (actual expected : String)
  /-- A store uses the volatile engine. -/
  | usesVolatile
  /-- A store uses a tree file. -/
  | usesTreeFile (location : String)
  /-- A store uses a log directory. -/
  | usesLogDirectory (location : String)
  /-- A store uses a database server. -/
  | usesServer
  /-- A tree file was opened. -/
  | openedTreeFile (location : String)
  /-- A log directory was opened. -/
  | openedLogDirectory (location : String)
  /-- A database server was reached, and its table is there. -/
  | reachedServer
  deriving DecidableEq, Repr

namespace Event

/-- The level of an event. -/
def level : Event → Level
  | .opened _ | .closed _ | .usesVolatile | .usesTreeFile _ | .usesLogDirectory _
  | .usesServer => .info
  | .unauthentic _ | .misplaced _ _ => .warn
  | .created _ | .written _ _ | .deleted _ _ | .deletedMany _ | .reserved _ _ | .listed _
  | .openedTreeFile _ | .openedLogDirectory _ | .reachedServer => .debug

/-- The text of an event: its message, and its fields by name. -/
def text : Event → String
  | .opened generation => s!"store opened generation={generation}"
  | .closed generation => s!"store closed generation={generation}"
  | .created path => s!"document created path={path}"
  | .written merge path => s!"document written merge={merge} path={path}"
  | .deleted path removed => s!"document deleted path={path} removed={removed}"
  | .deletedMany removed => s!"documents deleted removed={removed}"
  | .reserved next path => s!"increment batch reserved next={next} path={path}"
  | .listed range => s!"document iterator created range={range}"
  | .unauthentic path => s!"record failed authentication path={path}"
  | .misplaced actual expected => s!"record path mismatch actual={actual} expected={expected}"
  | .usesVolatile => "using in-memory storage (data will not persist)"
  | .usesTreeFile location => s!"using redb storage path={location}"
  | .usesLogDirectory location => s!"using RocksDB storage path={location}"
  | .usesServer => "using PostgreSQL storage"
  | .openedTreeFile location => s!"redb engine opened path={location}"
  | .openedLogDirectory location => s!"rocksdb engine opened path={location}"
  | .reachedServer => "postgres engine connected, kv_store table ready"

/-- The log line of an event. -/
def line (e : Event) : String := e.level.name ++ " " ++ e.text

end Event

end Strongbox
