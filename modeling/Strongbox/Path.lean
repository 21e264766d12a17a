import Strongbox.Text.Blank

/-!
# Document paths

A document lives at a normalized path: a slash, and then text that neither begins nor
ends with a slash.  The root, a single slash, is the one normalized path that is no
document location.  The first segment of a path names the collection of its document.
-/

namespace Strongbox.Path

/-- The root path, never a document location. -/
def root : String := "/"

/-- Whether a character is the separator. -/
def isSlash (c : Char) : Bool := c == '/'

/-- A text without the slashes at either end. -/
def trimSlashes (cs : List Char) : List Char :=
  Text.trimEnds isSlash cs

/-- The normalized form of a raw path. -/
def normalize (raw : String) : String :=
  String.ofList ('/' :: trimSlashes raw.toList)

/-- The segments of a joined path, each with its slash in front; those that hold only
slashes are dropped. -/
def joinSegments (segments : List (List Char)) : List Char :=
  segments.flatMap fun s =>
    match trimSlashes s with
    | [] => []
    | t => '/' :: t

/-- Arbitrary segments joined into one normalized path. -/
def join (segments : List String) : String :=
  match joinSegments (segments.map String.toList) with
  | [] => root
  | cs => String.ofList cs

/-- Whether a path normalizes to the root. -/
def isRoot (raw : String) : Bool :=
  (trimSlashes raw.toList).isEmpty

/-- The pieces of a text between its slashes. -/
def splitSlashes : List Char → List (List Char)
  | [] => [[]]
  | c :: cs =>
    if isSlash c then
      [] :: splitSlashes cs
    else
      match splitSlashes cs with
      | [] => [[c]]
      | s :: rest => (c :: s) :: rest

/-- The non-empty segments of a path. -/
def components (raw : String) : List String :=
  ((splitSlashes raw.toList).filter fun s => !s.isEmpty).map String.ofList

/-- The first segment of a path: the name of its collection. -/
def first? (raw : String) : Option String :=
  (components raw).head?

/-- The last segment of a path: the name of its document. -/
def last? (raw : String) : Option String :=
  (components raw).getLast?

/-! ## Ranges of paths -/

/-- A raw key prefix with a slash in front. -/
def anchored (stem : String) : String :=
  match stem.toList with
  | '/' :: _ => stem
  | cs => String.ofList ('/' :: cs)

/-- The key prefix that a listing below `parent`, narrowed to `stem`, runs over. -/
def listingRange (parent stem : String) : String :=
  if isRoot parent then
    anchored stem
  else
    String.ofList ((normalize parent).toList ++ '/' :: stem.toList.dropWhile isSlash)

end Strongbox.Path
