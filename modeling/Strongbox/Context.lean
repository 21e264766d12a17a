/-!
# Cancellation and deadlines

The caller of an operation may cancel it or give it a deadline.  The operation looks only
at its boundaries: on entry, between the paths of a batch, and before each step of a
listing.  A context says for every boundary whether to stop there; boundaries are
counted from the start of the program.
-/

namespace Strongbox

/-- Why an operation stops at a boundary. -/
inductive Interruption where
  | cancelled
  | deadlineExceeded
  deriving DecidableEq, Repr

/-- For each boundary, whether and why to stop there. -/
structure Context where
  verdict : Nat → Option Interruption

namespace Context

/-- Never stops an operation. -/
def background : Context := ⟨fun _ => none⟩

/-- Gives the same answer at every boundary. -/
def steady (answer : Option Interruption) : Context := ⟨fun _ => answer⟩

end Context

/-- A caller's means to stop operations: a switch, and a deadline in milliseconds. -/
structure Signal where
  /-- Whether the caller can cancel. -/
  cancellable : Bool := false
  /-- Whether the caller has cancelled. -/
  cancelled : Bool := false
  /-- The time from which on operations stop. -/
  deadline : Option Nat := none
  deriving DecidableEq, Repr

namespace Signal

/-- The answer of a signal at a boundary that is reached at the time `now`.  Cancellation
comes before the deadline. -/
def answer (s : Signal) (now : Nat) : Option Interruption :=
  if s.cancelled then
    some .cancelled
  else
    match s.deadline with
    | some d => if d ≤ now then some .deadlineExceeded else none
    | none => none

/-- The context of an operation during which the time stands at `now`. -/
def context (s : Signal) (now : Nat) : Context := .steady (s.answer now)

end Signal

end Strongbox
