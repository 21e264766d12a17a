import Strongbox.Host.Basic
import Strongbox.Path

/-!
# Locations on the disk

A location is a text of names with slashes between them, followed from the home directory.
An empty name and a dot stay where they are, and two dots lead to the directory around.
Every name but the last has to lead to a directory.  Two locations that lead along the
same trail are the same place.
-/

namespace Strongbox.Host

/-- A location as it is shown: in full. -/
def location (h : Host) (file : String) : String := h.home ++ "/" ++ file

/-- The way from the home directory to a place, its last name first.  A trail that leaves
the home directory begins with the steps outward. -/
abbrev Trail := List String

/-- The key of a trail in the table of places. -/
def trailKey (t : Trail) : String := "/".intercalate t.reverse

/-- What is found at the end of a trail.  Around the home directory there are only
directories. -/
def placeAt (h : Host) (t : Trail) : Option Place :=
  if t.head? = some ".." then some .directory else h.places.find? (trailKey t)

/-- Puts something at the end of a trail. -/
def setPlace (h : Host) (t : Trail) (p : Place) : Host :=
  { h with places := h.places.insert (trailKey t) p }

/-- Whether a trail leads to a directory. -/
def isDirectory (h : Host) (t : Trail) : Bool :=
  match h.placeAt t with
  | some .directory => true
  | some (.logDirectory _) => true
  | _ => false

/-- The trail to the directory around. -/
def outward : Trail → Trail
  | [] => [".."]
  | name :: t => if name = ".." then ".." :: name :: t else t

/-- The greatest number of octets in a name. -/
def maxNameSize : Nat := 255

/-- The trail one name further. -/
def step? (t : Trail) (name : String) : Option Trail :=
  if name = "" ∨ name = "." then some t
  else if name = ".." then some (outward t)
  else if name.utf8ByteSize ≤ maxNameSize then some (name :: t)
  else none

/-- The greatest number of octets in a full location. -/
def maxLocationSize : Nat := 4095

/-- The names of a location.  One that is too long, or has a NUL character, has none. -/
def names? (h : Host) (file : String) : Option (List String) :=
  if maxLocationSize < (h.location file).utf8ByteSize || file.toList.contains '\x00' then none
  else some ((Path.splitSlashes file.toList).map String.ofList)

/-- The trail along which names lead from the end of another one. -/
def followFrom (h : Host) (t : Trail) : List String → Option Trail
  | [] => some t
  | name :: rest =>
    if h.isDirectory t then
      match step? t name with
      | some t => followFrom h t rest
      | none => none
    else
      none

/-- The trail along which a location leads. -/
def follow (h : Host) (file : String) : Option Trail := do
  h.followFrom [] (← h.names? file)

/-! ## Making directories on the way -/

/-- Whether names only stay where they are, and one of them is a dot. -/
def endInDot (names : List String) : Bool :=
  names.all (fun name => name = "" || name = ".") && names.contains "."

/-- Makes a directory at the end of a trail unless there is one, for the given names to
follow; nothing when a plain file is in the way.  A location that ends in a dot has to have
its directory already. -/
def enter (h : Host) (t : Trail) (names : List String) : Option Host :=
  match h.placeAt t with
  | none => if endInDot names then none else some (h.setPlace t .directory)
  | some _ => if h.isDirectory t then some h else none

/-- The trail along which names lead from the end of another one, when missing directories
are made on the way. -/
def reachFrom (h : Host) (t : Trail) : List String → Option Trail × Host
  | [] => (some t, h)
  | name :: rest =>
    match h.enter t (name :: rest) with
    | none => (none, h)
    | some h =>
      match step? t name with
      | some t => reachFrom h t rest
      | none => (none, h)

/-- The trail along which a location leads, when missing directories are made on the
way. -/
def reach (h : Host) (file : String) : Option Trail × Host :=
  match h.names? file with
  | some names => h.reachFrom [] names
  | none => (none, h)

end Strongbox.Host
