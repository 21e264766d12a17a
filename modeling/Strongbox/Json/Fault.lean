import Strongbox.Bytes

/-!
# Faults in a JSON text

A reader works on the octets still ahead of it.  When it stops, the fault keeps the
octets that were left, and `Fault.line` and `Fault.column` recover from them where in
the text that was.  The wording never quotes the text itself.
-/

namespace Strongbox.Json

/-- The three ways in which a text fails to be what was asked for. -/
inductive Category where
  /-- The text is not JSON, or its numbers or its nesting are out of range. -/
  | grammar
  /-- The text is JSON up to here, but of another shape than asked for. -/
  | shape
  /-- The text ends too early. -/
  | ending
  deriving DecidableEq, Repr

/-- The name of a category in messages. -/
def Category.name : Category → String
  | .grammar => "Syntax"
  | .shape => "Data"
  | .ending => "Eof"

/-- A fault: its category and the octets that follow the place where it was noticed. -/
structure Fault where
  category : Category
  rest : Bytes
  deriving DecidableEq, Repr

namespace Fault

/-- The octets of `text` in front of the fault. -/
def before (text : Bytes) (f : Fault) : Bytes :=
  text.take (text.length - f.rest.length)

/-- The line of the fault, counted from one. -/
def line (text : Bytes) (f : Fault) : Nat :=
  1 + (f.before text).count 10

/-- The number of octets between the start of the line and the fault. -/
def column (text : Bytes) (f : Fault) : Nat :=
  ((f.before text).reverse.takeWhile (· != 10)).length

/-- The wording of a fault in `text`. -/
def describe (text : Bytes) (f : Fault) : String :=
  s!"{f.category.name} error at line {f.line text} column {f.column text}"

end Fault

/-- The result of a reader: what it read and the octets that follow, or a fault. -/
abbrev Read (α : Type) := Except Fault (α × Bytes)

/-- A fault noticed in front of the octets `rest`. -/
def halt {α : Type} (category : Category) (rest : Bytes) : Except Fault α :=
  .error ⟨category, rest⟩

end Strongbox.Json
