import Strongbox.Engine.LogDirectory
import Strongbox.Engine.TreeFile

/-!
# The contents of an engine

The three engines side by side, with the operations that every engine has.  The tree
file and the log directory carry their calls out on worker threads; the volatile engine
does not.
-/

namespace Strongbox

/-- What an engine holds. -/
inductive Contents where
  | volatile (table : Table String Bytes)
  | treeFile (table : Table String Bytes)
  | logDirectory (log : LogDirectory)

namespace Contents

instance : Inhabited Contents := ⟨.volatile .empty⟩

/-- Whether calls are carried out on worker threads. -/
def usesWorkers : Contents → Bool
  | .volatile _ => false
  | .treeFile _ => true
  | .logDirectory _ => true

/-- How many keys there are. -/
def size : Contents → Nat
  | .volatile t => t.size
  | .treeFile t => t.size
  | .logDirectory d => d.entries.size

/-- The value of a key. -/
def get (c : Contents) (key : String) : Except StorageError (Option Bytes) :=
  match c with
  | .volatile t => .ok (t.find? key)
  | .treeFile t => .ok (t.find? key)
  | .logDirectory d => d.lookup .reading key

/-- The contents with a key bound to a value. -/
def put (c : Contents) (key : String) (value : Bytes) : Contents :=
  match c with
  | .volatile t => .volatile (t.insert key value)
  | .treeFile t => .treeFile (t.insert key value)
  | .logDirectory d => .logDirectory (d.put key value)

/-- Whether a key was there, and the contents without it. -/
def delete (c : Contents) (key : String) : Except StorageError (Bool × Contents) :=
  match c with
  | .volatile t => .ok (t.contains key, .volatile (t.erase key))
  | .treeFile t => .ok (t.contains key, .treeFile (t.erase key))
  | .logDirectory d => (d.delete key).map fun r => (r.1, .logDirectory r.2)

/-- One page of the entries whose keys begin with `stem`, strictly after `after`. -/
def scan (c : Contents) (stem : String) (after : Option String) (limit : Nat) :
    Except StorageError (List Entry) :=
  match c with
  | .volatile t => .ok (Volatile.scan t stem after limit)
  | .treeFile t => .ok (TreeFile.scan t stem after limit)
  | .logDirectory d => d.scan stem after limit

/-- The keys of one page. -/
def scanKeys (c : Contents) (stem : String) (after : Option String) (limit : Nat) :
    Except StorageError (List String) :=
  (c.scan stem after limit).map fun es => es.map (·.1)

/-- All keys that begin with `stem`. -/
def list (c : Contents) (stem : String) : Except StorageError (List String) :=
  c.scanKeys stem none 0

/-- The entry with the greatest key that begins with `stem`. -/
def last (c : Contents) (stem : String) : Except StorageError (Option Entry) :=
  match c with
  | .volatile t => .ok (Volatile.last? t stem)
  | .treeFile t => .ok (TreeFile.last? t stem)
  | .logDirectory d => d.last? stem

/-- Whether a key is there. -/
def exists? (c : Contents) (key : String) : Except StorageError Bool :=
  match c with
  | .volatile t => .ok (t.contains key)
  | .treeFile t => .ok (t.find? key).isSome
  | .logDirectory d => (d.lookup .reading key).map Option.isSome

/-- The contents after the value of a key was changed in place, and whether the key was
there.  Only the volatile engine allows this. -/
def corrupt (c : Contents) (key : String) (change : Bytes → Bytes) : Bool × Contents :=
  match c with
  | .volatile t =>
    match t.find? key with
    | some value => (true, .volatile (t.insert key (change value)))
    | none => (false, c)
  | _ => (false, c)

end Contents

end Strongbox
