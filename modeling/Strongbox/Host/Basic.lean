import Strongbox.Store.Collections
import Strongbox.Store.Documents
import Strongbox.Store.Identifiers
import Strongbox.Store.Listing
import Strongbox.Store.Session

/-!
# The host of engines and stores

A host is one process with its disk: the contents of all engines, the engines in use by
name, the stores by name, the running listings and the callers' signals.
-/

namespace Strongbox

/-- The contents of an engine, by number. -/
abbrev MediumId := Nat

/-- An engine in use, by number. -/
abbrev HandleId := Nat

/-- An engine in use: the medium it works on and the face it shows. -/
structure Handle where
  medium : MediumId
  face : Face
  /-- The location under which the engine keeps others off its directory. -/
  lock : Option String := none

/-- What another program may have stored in a tree file under the name of the engine's
own table. -/
inductive ForeignTable where
  /-- A table of numbers. -/
  | numbers
  /-- A table with several values a key. -/
  | multimap
  deriving DecidableEq, Repr

/-- What is found at a place of the disk. -/
inductive Place where
  /-- An empty file. -/
  | blank
  /-- A file that is no database. -/
  | other
  /-- A tree file with a foreign table. -/
  | foreign (table : ForeignTable)
  /-- A tree file. -/
  | treeFile (medium : MediumId)
  /-- A directory. -/
  | directory
  /-- A log directory. -/
  | logDirectory (medium : MediumId)
  /-- A file that a log directory needs and that holds no entries. -/
  | logPart
  deriving DecidableEq, Repr

/-- Which engines a program is built with, besides the volatile one, which it always has. -/
structure Build where
  logDirectory : Bool := true
  treeFile : Bool := false
  /-- What comes of a connection to a database server at an address: the medium of its table,
  or the reason why there is no connection. -/
  server : Option (String → Except String MediumId) := none

/-- A store of the host, the engine it is open over, and its own clock if it has one. -/
structure StoreSlot where
  store : Store
  handle : Option HandleId := none
  clock : Option Clock := none

/-- A running listing and the name of its store. -/
structure ListingSlot where
  store : String
  listing : Listing

/-- A process with its disk. -/
structure Host where
  /-- The place of the disk, as it is shown. -/
  home : String
  clock : Clock
  entropy : Entropy
  /-- The settings of stores that are made on first mention. -/
  config : Config
  build : Build := {}
  media : Table Nat Contents := .empty
  handles : Table Nat Handle := .empty
  engines : Table String HandleId := .empty
  /-- What is found below `home`, which itself is a directory, by the names that lead
  there. -/
  places : Table String Place := Table.empty.insert "" .directory
  stores : Table String StoreSlot := .empty
  listings : Table String ListingSlot := .empty
  signals : Table String Signal := .empty
  /-- The time in milliseconds, for deadlines. -/
  time : Nat := 0
  /-- The next number of a medium or a handle. -/
  fresh : Nat := 0
  events : List Event := []
  boundaries : Nat := 0

namespace Host

/-- Adds an event to the log. -/
def tell (h : Host) (e : Event) : Host := { h with events := e :: h.events }

end Host

end Strongbox
