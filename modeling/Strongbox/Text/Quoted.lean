import Strongbox.Text.Grapheme
import Strongbox.Text.Unprintable

/-!
# Quoted text

Error messages show a character between apostrophes, and the description of an engine
shows its location between quotation marks.  Characters that print nothing of their own,
or attach to the one before, are written with an escape.
-/

namespace Strongbox.Text

/-- The lower-case hexadecimal digits of a number, without leading zeros. -/
def hexNumeral (n : Nat) : String :=
  String.ofList (Nat.toDigits 16 n)

/-- The escaped form of a character inside the quotation mark `mark`. -/
def escapeChar (mark c : Char) : String :=
  if c = '\x00' then "\\0"
  else if c = '\t' then "\\t"
  else if c = '\n' then "\\n"
  else if c = '\r' then "\\r"
  else if c = '\\' then "\\\\"
  else if c = mark then String.ofList ['\\', mark]
  else if isUnprintable c || isAttaching c then "\\u\x7b" ++ hexNumeral c.toNat ++ "\x7d"
  else String.singleton c

/-- A character between apostrophes. -/
def quoteChar (c : Char) : String :=
  "'" ++ escapeChar '\'' c ++ "'"

/-- A text between quotation marks. -/
def quote (s : String) : String :=
  "\"" ++ String.join (s.toList.map (escapeChar '"')) ++ "\""

end Strongbox.Text
