import Strongbox.Engine.Error

/-!
# Planned faults

A plan makes chosen calls of an engine fail before they reach its data.  Each rule counts
the calls that match it, lets some pass, and then fails a number of them or all.
-/

namespace Strongbox

/-- A rule for failing calls. -/
structure FaultRule where
  /-- The operation whose calls match. -/
  operation : Operation
  /-- The key or stem that matches, or any. -/
  key : Option String
  /-- How many matching calls pass first. -/
  pass : Nat
  /-- How many matching calls fail then, or all. -/
  times : Option Nat
  /-- The failure to report. -/
  kind : StorageError.Kind
  /-- The reason to report. -/
  reason : String
  /-- How many calls have matched so far. -/
  seen : Nat := 0
  deriving DecidableEq, Repr

namespace FaultRule

/-- Whether a call matches the rule. -/
def applies (r : FaultRule) (operation : Operation) (key : String) : Bool :=
  r.operation = operation &&
    match r.key with
    | none => true
    | some k => k = key

/-- Whether the rule fails the matching call that comes next. -/
def strikes (r : FaultRule) : Bool :=
  r.pass ≤ r.seen &&
    match r.times with
    | none => true
    | some n => r.seen < r.pass + n

/-- The rule after one more matching call. -/
def count (r : FaultRule) : FaultRule := { r with seen := r.seen + 1 }

end FaultRule

/-- The rules of an engine, consulted in order. -/
abbrev FaultPlan := List FaultRule

/-- The failure that a plan has for a call, if any, and the plan after it.  The rules
behind the one that fails the call do not count it. -/
def FaultPlan.consult (operation : Operation) (key : String) :
    FaultPlan → Option StorageError × FaultPlan
  | [] => (none, [])
  | r :: rest =>
    if r.applies operation key then
      if r.strikes then
        (some ⟨r.kind, key, some r.reason⟩, r.count :: rest)
      else
        let (failure, rest) := consult operation key rest
        (failure, r.count :: rest)
    else
      let (failure, rest) := consult operation key rest
      (failure, r :: rest)

end Strongbox
