import Strongbox.Text.Blank

/-!
# Configuration

A store is configured by two settings, read by name from an environment: the engine to
open, and the number of entries a listing reads at a time.  A setting that is missing or
makes no sense falls back to its default.
-/

namespace Strongbox

/-- The kinds of engine. -/
inductive EngineKind where
  /-- In memory, called `memory`. -/
  | volatile
  /-- A merged log in a directory, called `rocksdb`. -/
  | logDirectory
  /-- A balanced tree in a file, called `redb`. -/
  | treeFile
  /-- A database server, called `postgres` or `postgresql`. -/
  | server
  deriving DecidableEq, Repr

/-- The engine with a name, in any case and with white space around it. -/
def EngineKind.ofName? (name : String) : Option EngineKind :=
  let name := String.ofList ((Text.trimEnds Text.isBlank name.toList).map Text.lowerAscii)
  if name = "memory" then some .volatile
  else if name = "rocksdb" then some .logDirectory
  else if name = "redb" then some .treeFile
  else if name = "postgres" ∨ name = "postgresql" then some .server
  else none

/-- The settings of a store. -/
structure Config where
  engine : EngineKind
  pageSize : Nat
  deriving DecidableEq, Repr

namespace Config

/-- The settings in force when nothing is said. -/
def standard : Config := ⟨.logDirectory, 128⟩

/-- The number that decimal digits denote. -/
def digitsValue? (ds : List Char) : Option Nat :=
  if ds.isEmpty || !ds.all Char.isDigit then none
  else some (ds.foldl (fun n c => n * 10 + (c.toNat - 48)) 0)

/-- The unsigned 64-bit number that a text denotes, with white space around it and a plus
sign in front of it allowed. -/
def word? (s : String) : Option Nat :=
  let digits :=
    match Text.trimEnds Text.isBlank s.toList with
    | '+' :: rest => rest
    | cs => cs
  match digitsValue? digits with
  | some n => if n < 18446744073709551616 then some n else none
  | none => none

/-- The settings that an environment gives. -/
def ofLookup (lookup : String → Option String) : Config where
  engine := ((lookup "DSTORE_BACKEND").bind EngineKind.ofName?).getD standard.engine
  pageSize := max 1 (((lookup "DSTORE_PAGE_SIZE").bind word?).getD standard.pageSize)

end Config

end Strongbox
