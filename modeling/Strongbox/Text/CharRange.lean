/-!
# Classes of characters

A class of characters is a list of closed ranges of their numbers, in ascending order and
with a gap between any two.
-/

namespace Strongbox.Text

/-- The characters numbered from the first number up to and with the second. -/
abbrev CharRange := Nat × Nat

/-- Whether one of the ranges holds a character. -/
def isAmong (rs : List CharRange) (c : Char) : Bool :=
  rs.any fun r => r.1 ≤ c.toNat && c.toNat ≤ r.2

/-- Whether ranges are in ascending order, with a gap between any two. -/
def areApart : List CharRange → Bool
  | [] => true
  | [r] => r.1 ≤ r.2
  | r :: s :: rest => r.1 ≤ r.2 && r.2 + 1 < s.1 && areApart (s :: rest)

end Strongbox.Text
