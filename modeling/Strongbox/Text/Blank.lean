/-!
# White space

The characters with the Unicode property `White_Space`, and the trimming of a text at
both ends.
-/

namespace Strongbox.Text

/-- A character with the Unicode property `White_Space`. -/
def isBlank (c : Char) : Bool :=
  let n := c.toNat
  (9 ≤ n && n ≤ 13) || n == 0x20 || n == 0x85 || n == 0xA0 || n == 0x1680
    || (0x2000 ≤ n && n ≤ 0x200A) || n == 0x2028 || n == 0x2029 || n == 0x202F
    || n == 0x205F || n == 0x3000

/-- A list without the longest run of elements satisfying `p` at either end. -/
def trimEnds {α : Type} (p : α → Bool) (xs : List α) : List α :=
  ((xs.dropWhile p).reverse.dropWhile p).reverse

/-- A text without white space at either end. -/
def trim (s : String) : String :=
  String.ofList (trimEnds isBlank s.toList)

/-- The lower-case form of a character, as far as it is an ASCII letter: besides the
ASCII capitals only the Kelvin sign has one. -/
def lowerAscii (c : Char) : Char :=
  if c = '\u212A' then 'k' else c.toLower

/-- Every white space character of ASCII is blank. -/
theorem isBlank_of_isWhitespace {c : Char} (h : c.isWhitespace = true) : isBlank c = true := by
  simp only [Char.isWhitespace, Bool.or_eq_true, decide_eq_true_eq] at h
  rcases h with ((rfl | rfl) | rfl) | rfl <;> decide

end Strongbox.Text
