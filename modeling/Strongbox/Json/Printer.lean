import Strongbox.Decimal.Layout
import Strongbox.Json.Value
import Strongbox.Text.Utf8

/-!
# The compact JSON text of a value

No white space is written.  In a string the quotation mark, the backslash and the control
characters are escaped, five of the latter by a letter, and every other character stands
for itself.
-/

namespace Strongbox.Json

/-- The text of a number.  A number that is not finite has no JSON form and is written as
`null`. -/
def Number.text : Number → List Char
  | .integer n => Decimal.digitsOfInt n
  | .float x =>
    if x.isFinite then Decimal.writeFloat Decimal.jsonNumbers x else "null".toList

/-- The escaped form of one character of a string. -/
def escape (c : Char) : List Char :=
  if c = '"' then ['\\', '"']
  else if c = '\\' then ['\\', '\\']
  else if c = '\x08' then ['\\', 'b']
  else if c = '\x0c' then ['\\', 'f']
  else if c = '\n' then ['\\', 'n']
  else if c = '\r' then ['\\', 'r']
  else if c = '\t' then ['\\', 't']
  else if c.toNat < 0x20 then
    ['\\', 'u', '0', '0', Bytes.hexDigit (c.toNat / 16), Bytes.hexDigit (c.toNat % 16)]
  else [c]

/-- A string between quotation marks. -/
def quoted (s : String) : List Char :=
  '"' :: (s.toList.flatMap escape ++ ['"'])

namespace Value

mutual

/-- The compact text of a value. -/
def text : Value → List Char
  | .null => ['n', 'u', 'l', 'l']
  | .bool true => ['t', 'r', 'u', 'e']
  | .bool false => ['f', 'a', 'l', 's', 'e']
  | .number n => n.text
  | .string s => quoted s
  | .array items => '[' :: (textOfItems items ++ [']'])
  | .object members => '\x7b' :: (textOfMembers members ++ ['\x7d'])

/-- The items of an array, with commas between them. -/
def textOfItems : List Value → List Char
  | [] => []
  | [v] => text v
  | v :: w :: rest => text v ++ ',' :: textOfItems (w :: rest)

/-- The members of an object, with commas between them. -/
def textOfMembers : List (String × Value) → List Char
  | [] => []
  | [(n, v)] => quoted n ++ ':' :: text v
  | (n, v) :: m :: rest => quoted n ++ ':' :: (text v ++ ',' :: textOfMembers (m :: rest))

end

/-- The compact text of a value as a string. -/
def render (v : Value) : String :=
  String.ofList v.text

/-- The compact text of a value as UTF-8. -/
def toBytes (v : Value) : Bytes :=
  Utf8.encodeChars v.text

end Value

end Strongbox.Json
