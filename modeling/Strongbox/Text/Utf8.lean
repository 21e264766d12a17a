import Strongbox.Bytes

/-!
# UTF-8

Text is stored as UTF-8, and keys are compared octet by octet.  `encode` writes a text,
`decode` reads one and says where a byte string stops being one: the octets up to an
index are valid, and what follows is either a malformed sequence of known length or a
sequence that the end of the string cuts off.
-/

namespace Strongbox.Utf8

/-- The octets of one character. -/
def encodeChar (c : Char) : Bytes :=
  let n := c.toNat
  if n < 0x80 then
    [UInt8.ofNat n]
  else if n < 0x800 then
    [UInt8.ofNat (0xC0 + n / 64), UInt8.ofNat (0x80 + n % 64)]
  else if n < 0x10000 then
    [UInt8.ofNat (0xE0 + n / 4096), UInt8.ofNat (0x80 + n / 64 % 64),
      UInt8.ofNat (0x80 + n % 64)]
  else
    [UInt8.ofNat (0xF0 + n / 262144), UInt8.ofNat (0x80 + n / 4096 % 64),
      UInt8.ofNat (0x80 + n / 64 % 64), UInt8.ofNat (0x80 + n % 64)]

/-- The octets of a list of characters. -/
def encodeChars (cs : List Char) : Bytes :=
  cs.flatMap encodeChar

/-- The octets of a text. -/
def encode (s : String) : Bytes :=
  encodeChars s.toList

/-! ## Reading -/

/-- Where a byte string stops being UTF-8. -/
inductive Fault where
  /-- From octet `at_`, a sequence of `length` octets begins no character. -/
  | malformed (length at_ : Nat)
  /-- From octet `at_`, the string ends inside a character. -/
  | incomplete (at_ : Nat)
  deriving DecidableEq, Repr

/-- The number of octets in front of a fault, all of which are valid. -/
def Fault.index : Fault → Nat
  | .malformed _ i => i
  | .incomplete i => i

/-- The wording of a fault. -/
def Fault.message : Fault → String
  | .malformed n i => s!"invalid utf-8 sequence of {n} bytes from index {i}"
  | .incomplete i => s!"incomplete utf-8 byte sequence from index {i}"

/-- What the first octets of a non-empty byte string are. -/
inductive Head where
  /-- A character, and what follows it. -/
  | char (c : Char) (rest : Bytes)
  /-- A malformed sequence of `length` octets, and what follows it. -/
  | malformed (length : Nat) (rest : Bytes)
  /-- A beginning of a character that the end of the string cuts off. -/
  | incomplete

/-- A continuation octet. -/
def isTail (b : UInt8) : Bool :=
  0x80 ≤ b.toNat && b.toNat ≤ 0xBF

/-- Whether `b` may follow the lead octet `a` of a character of three octets: overlong
forms and the surrogates are excluded. -/
def isSecondOfThree (a b : UInt8) : Bool :=
  isTail b && (a.toNat != 0xE0 || 0xA0 ≤ b.toNat) && (a.toNat != 0xED || b.toNat ≤ 0x9F)

/-- Whether `b` may follow the lead octet `a` of a character of four octets: overlong
forms and numbers above the last character are excluded. -/
def isSecondOfFour (a b : UInt8) : Bool :=
  isTail b && (a.toNat != 0xF0 || 0x90 ≤ b.toNat) && (a.toNat != 0xF4 || b.toNat ≤ 0x8F)

/-- The rest of a character of two octets whose lead octet is `a`. -/
def headOfTwo (a : UInt8) : Bytes → Head
  | [] => .incomplete
  | b :: rest =>
    if isTail b then
      .char (Char.ofNat ((a.toNat - 0xC0) * 64 + (b.toNat - 0x80))) rest
    else
      .malformed 1 (b :: rest)

/-- The rest of a character of three octets whose lead octet is `a`. -/
def headOfThree (a : UInt8) : Bytes → Head
  | [] => .incomplete
  | [b] => if isSecondOfThree a b then .incomplete else .malformed 1 [b]
  | b :: c :: rest =>
    if !isSecondOfThree a b then
      .malformed 1 (b :: c :: rest)
    else if isTail c then
      .char (Char.ofNat ((a.toNat - 0xE0) * 4096 + (b.toNat - 0x80) * 64
        + (c.toNat - 0x80))) rest
    else
      .malformed 2 (c :: rest)

/-- The rest of a character of four octets whose lead octet is `a`. -/
def headOfFour (a : UInt8) : Bytes → Head
  | [] => .incomplete
  | [b] => if isSecondOfFour a b then .incomplete else .malformed 1 [b]
  | [b, c] =>
    if !isSecondOfFour a b then .malformed 1 [b, c]
    else if isTail c then .incomplete
    else .malformed 2 [c]
  | b :: c :: d :: rest =>
    if !isSecondOfFour a b then
      .malformed 1 (b :: c :: d :: rest)
    else if !isTail c then
      .malformed 2 (c :: d :: rest)
    else if isTail d then
      .char (Char.ofNat ((a.toNat - 0xF0) * 262144 + (b.toNat - 0x80) * 4096
        + (c.toNat - 0x80) * 64 + (d.toNat - 0x80))) rest
    else
      .malformed 3 (d :: rest)

/-- The first character of the byte string `a :: rest`. -/
def head (a : UInt8) (rest : Bytes) : Head :=
  if a.toNat < 0x80 then .char (Char.ofNat a.toNat) rest
  else if a.toNat < 0xC2 then .malformed 1 rest
  else if a.toNat < 0xE0 then headOfTwo a rest
  else if a.toNat < 0xF0 then headOfThree a rest
  else if a.toNat < 0xF5 then headOfFour a rest
  else .malformed 1 rest

/-- How many octets a head leaves. -/
def Head.left : Head → Nat
  | .char _ rest => rest.length
  | .malformed _ rest => rest.length
  | .incomplete => 0

/-- A head of two octets leaves no more than there was. -/
theorem headOfTwo_left (a : UInt8) (rest : Bytes) : (headOfTwo a rest).left ≤ rest.length := by
  cases rest with
  | nil => simp [headOfTwo, Head.left]
  | cons b rest =>
    simp only [headOfTwo]
    split <;> simp [Head.left]

/-- Nor does one of three. -/
theorem headOfThree_left (a : UInt8) (rest : Bytes) :
    (headOfThree a rest).left ≤ rest.length := by
  match rest with
  | [] => simp [headOfThree, Head.left]
  | [b] =>
    simp only [headOfThree]
    split <;> simp [Head.left]
  | b :: c :: rest =>
    simp only [headOfThree]
    split
    · simp [Head.left]
    · split <;> simp only [Head.left, List.length_cons] <;> omega

/-- Nor does one of four. -/
theorem headOfFour_left (a : UInt8) (rest : Bytes) :
    (headOfFour a rest).left ≤ rest.length := by
  match rest with
  | [] => simp [headOfFour, Head.left]
  | [b] =>
    simp only [headOfFour]
    split <;> simp [Head.left]
  | [b, c] =>
    simp only [headOfFour]
    split
    · simp [Head.left]
    · split <;> simp [Head.left]
  | b :: c :: d :: rest =>
    simp only [headOfFour]
    split
    · simp [Head.left]
    · split
      · simp [Head.left]
      · split <;> simp only [Head.left, List.length_cons] <;> omega

/-- A head leaves no more than what follows the lead octet. -/
theorem head_left (a : UInt8) (rest : Bytes) : (head a rest).left ≤ rest.length := by
  unfold head
  split
  · simp [Head.left]
  · split
    · simp [Head.left]
    · split
      · exact headOfTwo_left a rest
      · split
        · exact headOfThree_left a rest
        · split
          · exact headOfFour_left a rest
          · simp [Head.left]

/-- The characters of a byte string that begins at octet `index`, in front of which the
characters `done` (latest first) have been read. -/
def decodeFrom (index : Nat) (done : List Char) (bs : Bytes) : Except Fault (List Char) :=
  match bs with
  | [] => .ok done.reverse
  | a :: rest =>
    match _step : head a rest with
    | .char c r => decodeFrom (index + (encodeChar c).length) (c :: done) r
    | .malformed n _ => .error (.malformed n index)
    | .incomplete => .error (.incomplete index)
termination_by bs.length
decreasing_by
  have hle := head_left a rest
  rw [_step] at hle
  simp only [Head.left] at hle
  simp only [List.length_cons]
  omega

/-- The characters of a byte string, or the first fault in it. -/
def decodeChars (bs : Bytes) : Except Fault (List Char) :=
  decodeFrom 0 [] bs

/-- The text of a byte string, or the first fault in it. -/
def decode (bs : Bytes) : Except Fault String :=
  (decodeChars bs).map String.ofList

/-- The text of a byte string with every faulty sequence shown as U+FFFD, after the
characters `done` (latest first). -/
def decodeLossyFrom (done : List Char) (bs : Bytes) : List Char :=
  match bs with
  | [] => done.reverse
  | a :: rest =>
    match _step : head a rest with
    | .char c r => decodeLossyFrom (c :: done) r
    | .malformed _ r => decodeLossyFrom ('\uFFFD' :: done) r
    | .incomplete => ('\uFFFD' :: done).reverse
termination_by bs.length
decreasing_by
  all_goals
    have hle := head_left a rest
    rw [_step] at hle
    simp only [Head.left] at hle
    simp only [List.length_cons]
    omega

/-- The text of a byte string with every faulty sequence shown as U+FFFD. -/
def decodeLossy (bs : Bytes) : String :=
  String.ofList (decodeLossyFrom [] bs)

end Strongbox.Utf8
