import Strongbox.Decimal.Layout
import Strongbox.Text.Blank
import Strongbox.Time.Instant

/-!
# Time stamps

An instant is written as an RFC 3339 date and time in UTC, with the fewest of 0, 3, 6 or
9 fraction digits that lose nothing; years outside 0 to 9999 carry a sign.  Reading is
more generous: it takes any offset, white space in front of every part, fewer digits,
and a leap second.
-/

namespace Strongbox.Time

/-! ## Writing -/

/-- A number with at least `width` digits. -/
def padded (width n : Nat) : List Char :=
  let ds := Decimal.digitsOf n
  List.replicate (width - ds.length) '0' ++ ds

/-- A year: four digits, or more with a sign outside 0 to 9999. -/
def writeYear (year : Int) : List Char :=
  if 0 ≤ year ∧ year ≤ 9999 then padded 4 year.toNat
  else (if year < 0 then '-' else '+') :: padded 4 year.natAbs

/-- The fraction of a second. -/
def writeFraction (nanos : Nat) : List Char :=
  if nanos = 0 then []
  else if nanos % 1000000 = 0 then '.' :: padded 3 (nanos / 1000000)
  else if nanos % 1000 = 0 then '.' :: padded 6 (nanos / 1000)
  else '.' :: padded 9 nanos

/-- The time stamp of an instant, as a list of characters. -/
def Instant.stampChars (t : Instant) : List Char :=
  let date := Date.ofDays (t.seconds / 86400)
  let ofDay := (t.seconds % 86400).toNat
  let leap := t.nanos / 1000000000
  writeYear date.year ++ '-' :: padded 2 date.month ++ '-' :: padded 2 date.day
    ++ 'T' :: padded 2 (ofDay / 3600) ++ ':' :: padded 2 (ofDay / 60 % 60)
    ++ ':' :: padded 2 (ofDay % 60 + leap) ++ writeFraction (t.nanos % 1000000000) ++ ['Z']

/-- The time stamp of an instant. -/
def Instant.stamp (t : Instant) : String :=
  String.ofList t.stampChars

/-! ## Reading -/

/-- A decimal digit. -/
def isDigit (c : Char) : Bool := '0' ≤ c && c ≤ '9'

/-- What follows the white space. -/
def skipBlanks (cs : List Char) : List Char := cs.dropWhile Text.isBlank

/-- The number that a list of digits denotes. -/
def digitsValue (ds : List Char) : Nat :=
  ds.foldl (fun n c => n * 10 + (c.toNat - 48)) 0

/-- Reads a number of at least one and, if a width is given, at most that many digits. -/
def readNumber (width : Option Nat) (cs : List Char) : Option (Nat × List Char) :=
  let ds := cs.takeWhile isDigit
  let ds := match width with
    | some w => ds.take w
    | none => ds
  if ds.isEmpty then none else some (digitsValue ds, cs.drop ds.length)

/-- Reads a two-digit part in front of which white space may stand. -/
def readPart (cs : List Char) : Option (Nat × List Char) :=
  readNumber (some 2) (skipBlanks cs)

/-- Reads a separator in front of which white space may stand. -/
def readSeparator (mark : Char) (cs : List Char) : Option (List Char) :=
  match skipBlanks cs with
  | [] => none
  | c :: rest => if c = mark then some rest else none

/-- Reads a year: up to four digits, or a sign and any number of digits. -/
def readYear (cs : List Char) : Option (Int × List Char) :=
  match skipBlanks cs with
  | '-' :: rest => (readNumber none rest).map fun (n, r) => (-(n : Int), r)
  | '+' :: rest => (readNumber none rest).map fun (n, r) => ((n : Int), r)
  | cs => (readNumber (some 4) cs).map fun (n, r) => ((n : Int), r)

/-- Reads a fraction of a second, if there is one, as nanoseconds; digits after the ninth
are dropped. -/
def readFraction (cs : List Char) : Option (Nat × List Char) :=
  match cs with
  | '.' :: rest => do
    let (n, after) ← readNumber (some 9) rest
    let used := rest.length - after.length
    pure (n * Nat.pow 10 (9 - used), after.dropWhile isDigit)
  | _ => some (0, cs)

/-- Reads the two digits of an offset's hours or minutes. -/
def readTwoDigits (cs : List Char) : Option (Nat × List Char) :=
  match cs with
  | a :: b :: rest => if isDigit a && isDigit b then some (digitsValue [a, b], rest) else none
  | _ => none

/-- Reads the hours and minutes of an offset, as seconds. -/
def readOffsetSize (cs : List Char) : Option (Nat × List Char) := do
  let (hours, cs) ← readTwoDigits cs
  let (minutes, cs) ← readTwoDigits (cs.dropWhile fun c => c == ':' || Text.isBlank c)
  if minutes < 60 then some (hours * 3600 + minutes * 60, cs) else none

/-- Reads an offset from UTC in seconds. -/
def readOffset (cs : List Char) : Option (Int × List Char) :=
  match cs with
  | 'Z' :: rest => some (0, rest)
  | 'z' :: rest => some (0, rest)
  | '+' :: rest => (readOffsetSize rest).map fun (n, r) => ((n : Int), r)
  | '-' :: rest => (readOffsetSize rest).map fun (n, r) => (-(n : Int), r)
  | '\u2212' :: rest => (readOffsetSize rest).map fun (n, r) => (-(n : Int), r)
  | u :: t :: c :: rest =>
    if u.toUpper = 'U' ∧ t.toUpper = 'T' ∧ c.toUpper = 'C' then some (0, rest) else none
  | _ => none

/-- Reads the mark between date and time. -/
def readMark (cs : List Char) : Option (List Char) :=
  match cs with
  | c :: rest => if c = 'T' ∨ c = 't' ∨ c = ' ' then some rest else none
  | [] => none

/-- The instant of a local date and time `offset` seconds ahead of UTC.  Second 60 is the
leap second after second 59. -/
def ofLocal? (date : Date) (hour minute second nanos : Nat) (offset : Int) : Option Instant :=
  if date.isValid ∧ hour ≤ 23 ∧ minute ≤ 59 ∧ second ≤ 60 ∧ offset.natAbs < 86400 then
    let leap := if second = 60 then 1 else 0
    let ofDay : Int := hour * 3600 + minute * 60 + (second - leap : Nat)
    let t : Instant := ⟨date.toDays * 86400 + ofDay - offset, nanos + leap * 1000000000⟩
    if t.isRepresentable then some t else none
  else none

/-- The instant that a list of characters denotes. -/
def readStampChars (cs : List Char) : Option Instant := do
  let (year, cs) ← readYear cs
  let cs ← readSeparator '-' cs
  let (month, cs) ← readPart cs
  let cs ← readSeparator '-' cs
  let (day, cs) ← readPart cs
  let cs ← readMark cs
  let (hour, cs) ← readPart cs
  let cs ← readSeparator ':' cs
  let (minute, cs) ← readPart cs
  let cs ← readSeparator ':' cs
  let (second, cs) ← readPart cs
  let (nanos, cs) ← readFraction cs
  let (offset, cs) ← readOffset (skipBlanks cs)
  if skipBlanks cs = [] then ofLocal? ⟨year, month, day⟩ hour minute second nanos offset
  else none

/-- The instant that a time stamp denotes. -/
def Instant.ofStamp? (s : String) : Option Instant :=
  readStampChars s.toList

end Strongbox.Time
