import Strongbox.Json.Fault
import Strongbox.Text.Utf8

/-!
# The tokens of a JSON text

White space, the three literals, and strings.  A string is unescaped into octets and
must then be UTF-8.  An escaped surrogate counts only as half of a pair.
-/

namespace Strongbox.Json

/-- The white space of JSON: space, tab, line feed and carriage return. -/
def isBlank (b : UInt8) : Bool :=
  b == 32 || b == 9 || b == 10 || b == 13

/-- What follows the white space. -/
def skipBlanks (bs : Bytes) : Bytes :=
  bs.dropWhile isBlank

/-- Reads the letters of a literal. -/
def literal : Bytes → Bytes → Except Fault Bytes
  | [], bs => .ok bs
  | _ :: _, [] => halt .ending []
  | e :: es, b :: bs => if b = e then literal es bs else halt .grammar bs

/-- The letters of `null` after the first. -/
def nullTail : Bytes := [117, 108, 108]

/-- The letters of `true` after the first. -/
def trueTail : Bytes := [114, 117, 101]

/-- The letters of `false` after the first. -/
def falseTail : Bytes := [97, 108, 115, 101]

/-! ## Escapes -/

/-- The number that four hexadecimal digits denote. -/
def hex4? (a b c d : UInt8) : Option Nat := do
  let a ← Bytes.hexValue? a
  let b ← Bytes.hexValue? b
  let c ← Bytes.hexValue? c
  let d ← Bytes.hexValue? d
  pure (a * 4096 + b * 256 + c * 16 + d)

/-- Reads the four digits of a code unit. -/
def codeUnit : Bytes → Read Nat
  | a :: b :: c :: d :: rest =>
    match hex4? a b c d with
    | some n => .ok (n, rest)
    | none => halt .grammar rest
  | _ => halt .ending []

/-- The first half of a surrogate pair. -/
def isHighSurrogate (n : Nat) : Bool := 0xD800 ≤ n && n ≤ 0xDBFF

/-- The second half of a surrogate pair. -/
def isLowSurrogate (n : Nat) : Bool := 0xDC00 ≤ n && n ≤ 0xDFFF

/-- The octets of the character with the given number. -/
def encodeNumber (n : Nat) : Bytes := Utf8.encodeChar (Char.ofNat n)

/-- Reads the second half of the surrogate pair that begins with `high`. -/
def lowHalf (high : Nat) : Bytes → Read Bytes
  | [] => halt .ending []
  | b :: rest =>
    if b ≠ 92 then
      halt .grammar rest
    else
      match rest with
      | [] => halt .ending []
      | u :: rest =>
        if u ≠ 117 then
          halt .grammar rest
        else
          match codeUnit rest with
          | .error f => .error f
          | .ok (low, rest) =>
            if isLowSurrogate low then
              .ok (encodeNumber ((high - 0xD800) * 1024 + (low - 0xDC00) + 0x10000), rest)
            else
              halt .grammar rest

/-- Reads what follows a backslash: the octets that the escape stands for. -/
def escapeTail : Bytes → Read Bytes
  | [] => halt .ending []
  | b :: rest =>
    if b = 34 ∨ b = 92 ∨ b = 47 then .ok ([b], rest)
    else if b = 98 then .ok ([8], rest)
    else if b = 102 then .ok ([12], rest)
    else if b = 110 then .ok ([10], rest)
    else if b = 114 then .ok ([13], rest)
    else if b = 116 then .ok ([9], rest)
    else if b = 117 then
      match codeUnit rest with
      | .error f => .error f
      | .ok (n, rest) =>
        if isLowSurrogate n then halt .grammar rest
        else if isHighSurrogate n then lowHalf n rest
        else .ok (encodeNumber n, rest)
    else halt .grammar rest

/-- Four digits are consumed at least. -/
theorem codeUnit_length {bs rest : Bytes} {n : Nat} (h : codeUnit bs = .ok (n, rest)) :
    rest.length < bs.length := by
  unfold codeUnit at h
  split at h
  · split at h
    · injection h with h
      injection h with _ h
      subst h
      simp only [List.length_cons]
      omega
    · simp [halt] at h
  · simp [halt] at h

/-- The second half of a pair is behind the first, so that something is consumed. -/
theorem lowHalf_length {high : Nat} {bs rest out : Bytes} (h : lowHalf high bs = .ok (out, rest)) :
    rest.length < bs.length := by
  unfold lowHalf at h
  split at h
  · simp [halt] at h
  · split at h
    · simp [halt] at h
    · split at h
      · simp [halt] at h
      · split at h
        · simp [halt] at h
        · split at h
          · simp at h
          · rename_i hunit
            have hlt := codeUnit_length hunit
            split at h
            · injection h with h
              injection h with _ h
              subst h
              simp only [List.length_cons]
              omega
            · simp [halt] at h

/-- An escape leaves less than what follows the backslash. -/
theorem escapeTail_length {bs rest out : Bytes} (h : escapeTail bs = .ok (out, rest)) :
    rest.length < bs.length := by
  unfold escapeTail at h
  split at h
  · simp [halt] at h
  · rename_i b tail
    repeat' split at h
    all_goals first
      | (injection h with h
         injection h with _ h
         subst h
         simp only [List.length_cons]
         omega)
      | (simp [halt] at h; done)
      | (rename_i hunit _ _
         have hlt := codeUnit_length hunit
         have := lowHalf_length h
         simp only [List.length_cons]
         omega)
      | (rename_i hunit _ _
         have hlt := codeUnit_length hunit
         injection h with h
         injection h with _ h
         subst h
         simp only [List.length_cons]
         omega)

/-! ## Strings -/

/-- Reads the octets of a string up to and with its closing quotation mark, when the octets
`done` (latest first) have been read. -/
def octetsFrom (done : Bytes) (bs : Bytes) : Read Bytes :=
  match bs with
  | [] => halt .ending []
  | b :: rest =>
    if b = 34 then
      .ok (done.reverse, rest)
    else if b = 92 then
      match _step : escapeTail rest with
      | .error f => .error f
      | .ok (out, rest) => octetsFrom (out.reverse ++ done) rest
    else if b < 32 then
      halt .grammar rest
    else
      octetsFrom (b :: done) rest
termination_by bs.length
decreasing_by
  · have := escapeTail_length _step
    simp only [List.length_cons]
    omega
  · simp

/-- Reads a string whose opening quotation mark has been read.  If its octets are not
UTF-8, the fault is noticed in front of the end of the string, at a distance of as many
octets as the unescaped string has from its first faulty one on.  In a string without
escapes that is right behind the first faulty octet. -/
def string (bs : Bytes) : Read String :=
  match octetsFrom [] bs with
  | .error f => .error f
  | .ok (octets, rest) =>
    match Utf8.decode octets with
    | .ok s => .ok (s, rest)
    | .error f => halt .grammar (Bytes.lastOctets (rest.length + (octets.length - f.index)) bs)

end Strongbox.Json
