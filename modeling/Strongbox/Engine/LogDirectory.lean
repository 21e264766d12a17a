import Strongbox.Engine.Error
import Strongbox.Engine.Volatile
import Strongbox.Text.Utf8

/-!
# The log directory

An engine that keeps its entries as a merged log in a directory.  Its keys are byte
strings, which other programs may have written, so a walk decodes every key it meets
before it looks at it.

Writes go to a journal.  When the directory is opened the journal becomes a run, a file of
sorted keys that is never written again, and damage makes whole runs unreadable.  A read
looks for its key in the journal and then in the runs, latest first, until it comes upon
the key; it fails at a damaged run whose keys reach as far as the one it looks for.  A walk
upwards fails if a damaged run reaches as far as its start, and a walk downwards if there
is a damaged run at all.
-/

namespace Strongbox

/-- Keys that were written out together, with values or as deletions. -/
structure Run where
  keys : List Bytes
  isDamaged : Bool := false
  /-- Whether its file is gone, which those who have it open do not notice. -/
  isLost : Bool := false
  deriving DecidableEq, Repr

/-- Whether the run has keys from the given one on. -/
def Run.reaches (r : Run) (key : Bytes) : Bool :=
  r.keys.any fun k => !decide (k < key)

/-- The contents of a log directory. -/
structure LogDirectory where
  /-- The entries, damaged or not. -/
  entries : Table Bytes Bytes
  /-- The keys that were written since the directory was opened. -/
  journal : List Bytes := []
  /-- The runs, latest first. -/
  runs : List Run := []

namespace LogDirectory

/-- The log directory without entries. -/
def empty : LogDirectory := { entries := .empty }

/-! ## Damage -/

/-- Whether damage stops a read of a key in the given runs. -/
def isBlockedIn (key : Bytes) : List Run → Bool
  | [] => false
  | r :: older =>
    if r.isDamaged then r.reaches key || isBlockedIn key older
    else isBlockedIn key older && !r.keys.contains key

/-- Whether damage stops a read of a key. -/
def isBlocked (d : LogDirectory) (key : Bytes) : Bool :=
  isBlockedIn key d.runs && !d.journal.contains key

/-- Whether damage stops a walk upwards from a key. -/
def isBlockedFrom (d : LogDirectory) (key : Bytes) : Bool :=
  d.runs.any fun r => r.isDamaged && r.reaches key

/-- Whether damage stops a walk downwards. -/
def isBlockedDown (d : LogDirectory) : Bool :=
  d.runs.any (·.isDamaged)

/-- The log directory after it was opened again: the journal is a run of its own. -/
def reopened (d : LogDirectory) : LogDirectory :=
  if d.journal.isEmpty then d
  else { d with journal := [], runs := { keys := d.journal } :: d.runs }

/-- The log directory after an octet of every run was inverted.  A run that was damaged in
this way before is whole again. -/
def damage (d : LogDirectory) : LogDirectory :=
  { d with runs := d.runs.map fun r => { r with isDamaged := !r.isDamaged } }

/-- The log directory after all runs but the oldest ones are gone. -/
def cleared (oldest : Nat) (d : LogDirectory) : LogDirectory :=
  let n := d.runs.length - oldest
  { d with runs := (d.runs.take n).map (fun r => { r with isLost := true }) ++ d.runs.drop n }

/-- Whether every run is there, so that the directory can be opened. -/
def isWhole (d : LogDirectory) : Bool :=
  d.runs.all fun r => !r.isLost

/-! ## Single keys -/

/-- The value that a key has, or a failure of the given kind. -/
def lookup (kind : StorageError.Kind) (d : LogDirectory) (key : String) :
    Except StorageError (Option Bytes) :=
  let raw := Utf8.encode key
  if d.isBlocked raw then .error ⟨kind, key, none⟩ else .ok (d.entries.find? raw)

/-- The log directory after a raw key was written. -/
def putRaw (d : LogDirectory) (raw value : Bytes) : LogDirectory :=
  { d with entries := d.entries.insert raw value, journal := raw :: d.journal }

/-- The log directory after a key was written. -/
def put (d : LogDirectory) (key : String) (value : Bytes) : LogDirectory :=
  d.putRaw (Utf8.encode key) value

/-- Whether a key was there, and the log directory without it. -/
def delete (d : LogDirectory) (key : String) : Except StorageError (Bool × LogDirectory) :=
  match d.lookup .deleting key with
  | .error e => .error e
  | .ok none => .ok (false, d)
  | .ok (some _) =>
    let raw := Utf8.encode key
    .ok (true, { d with entries := d.entries.erase raw, journal := raw :: d.journal })

/-! ## Walks -/

/-- The entry that a walk meets. -/
def meet (e : Bytes × Bytes) : Except StorageError Entry :=
  match Utf8.decode e.1 with
  | .ok key => .ok (key, e.2)
  | .error fault => .error ⟨.invalidKey, "", some fault.message⟩

/-- Whether a key is not after the key `after`. -/
def isSeen (after : Option String) (key : String) : Bool :=
  match after with
  | some a => key ≤ a
  | none => false

/-- The entries of a page that already holds `taken`, read from the walk `ahead`. -/
def page (stem : String) (after : Option String) (limit : Nat) :
    (taken : Nat) → (ahead : List (Bytes × Bytes)) → Except StorageError (List Entry)
  | _, [] => .ok []
  | taken, e :: ahead =>
    if limit ≠ 0 ∧ limit ≤ taken then
      .ok []
    else
      match meet e with
      | .error e => .error e
      | .ok (key, value) =>
        if !Range.begins stem key then .ok []
        else if isSeen after key then page stem after limit taken ahead
        else
          match page stem after limit (taken + 1) ahead with
          | .error e => .error e
          | .ok rest => .ok ((key, value) :: rest)

/-- One page of the entries in the range of `stem`, strictly after the key `after`. -/
def scan (d : LogDirectory) (stem : String) (after : Option String) (limit : Nat) :
    Except StorageError (List Entry) :=
  let first := Utf8.encode (Range.start stem after)
  if d.isBlockedFrom first then .error ⟨.scanning, stem, none⟩
  else page stem after limit 0 (d.entries.entries.dropWhile fun e => e.1 < first)

/-- The first entry of a downward walk that begins with `stem`; the walk ends below it. -/
def descend (stem : String) : (ahead : List (Bytes × Bytes)) → Except StorageError (Option Entry)
  | [] => .ok none
  | e :: ahead =>
    match meet e with
    | .error e => .error e
    | .ok (key, value) =>
      if Range.begins stem key then .ok (some (key, value))
      else if key < stem then .ok none
      else descend stem ahead

/-- The entries from the greatest key at or below `upper` downwards. -/
def downFrom (d : LogDirectory) (upper : Option String) : List (Bytes × Bytes) :=
  match upper with
  | some u =>
    let bound := Utf8.encode u
    d.entries.entries.reverse.dropWhile fun e => bound < e.1
  | none => d.entries.entries.reverse

/-- The entry with the greatest key that begins with `stem`. -/
def last? (d : LogDirectory) (stem : String) : Except StorageError (Option Entry) :=
  if d.isBlockedDown then .error ⟨.seeking, stem, none⟩
  else descend stem (d.downFrom (Range.successor? stem))

end LogDirectory

end Strongbox
