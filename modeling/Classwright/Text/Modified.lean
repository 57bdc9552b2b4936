import Classwright.Text.Basic

/-!
# Modified UTF-8

The string encoding of class files.  NUL is written in two bytes, and a scalar value outside the
basic plane as the three-byte encodings of its two surrogates, so no encoding holds a zero byte or
a byte above `0xEF`.  Reading goes through sixteen-bit units: it accepts overlong forms, joins a
high surrogate with the low one behind it, and turns every other surrogate into U+FFFD.
-/

namespace Classwright

namespace ModifiedUtf8

/-- A sixteen-bit unit in three bytes. -/
def encodeThree (unit : Nat) : List UInt8 :=
  [UInt8.ofNat (0xE0 + unit / 0x1000), UInt8.ofNat (0x80 + unit / 0x40 % 0x40),
    UInt8.ofNat (0x80 + unit % 0x40)]

/-- The bytes of one character. -/
def encodeChar (c : Char) : List UInt8 :=
  let n := c.toNat
  if n = 0 then
    [0xC0, 0x80]
  else if n < 0x80 then
    [UInt8.ofNat n]
  else if n < 0x800 then
    [UInt8.ofNat (0xC0 + n / 0x40), UInt8.ofNat (0x80 + n % 0x40)]
  else if n < 0x10000 then
    encodeThree n
  else
    encodeThree (0xD800 + (n - 0x10000) / 0x400) ++ encodeThree (0xDC00 + (n - 0x10000) % 0x400)

/-- The encoding of a text; a stray byte is encoded as U+FFFD. -/
def encode (t : Text) : List UInt8 :=
  t.characters.flatMap encodeChar

/-- The sixteen-bit units a byte string encodes in one to three bytes each. -/
def units? : List UInt8 → Option (List Nat)
  | [] => some []
  | a :: rest =>
    let n := a.toNat
    if n < 0x80 then
      if n = 0 then none else (units? rest).map (n :: ·)
    else if n < 0xC0 then
      none
    else if n < 0xE0 then
      match rest with
      | b :: rest => do
        let x ← Utf8.continuation? b
        let others ← units? rest
        return ((n - 0xC0) * 0x40 + x) :: others
      | _ => none
    else if n < 0xF0 then
      match rest with
      | b :: c :: rest => do
        let x ← Utf8.continuation? b
        let y ← Utf8.continuation? c
        let others ← units? rest
        return ((n - 0xE0) * 0x1000 + x * 0x40 + y) :: others
      | _ => none
    else
      none

/-- A unit of the first half of a pair. -/
def isHigh (unit : Nat) : Bool :=
  0xD800 ≤ unit && unit < 0xDC00

/-- A unit of the second half of a pair. -/
def isLow (unit : Nat) : Bool :=
  0xDC00 ≤ unit && unit < 0xE000

/-- The scalar value with a given number, U+FFFD where there is none. -/
def scalarOrReplacement (n : Nat) : Char :=
  if n.isValidChar then Char.ofNat n else Char.ofNat 0xFFFD

/-- The characters a row of units stands for. -/
def joinUnits : List Nat → List Char
  | [] => []
  | [unit] => [scalarOrReplacement unit]
  | unit :: next :: others =>
    if isHigh unit && isLow next then
      scalarOrReplacement (0x10000 + (unit - 0xD800) * 0x400 + (next - 0xDC00)) :: joinUnits others
    else
      scalarOrReplacement unit :: joinUnits (next :: others)

/-- Reads an encoding back, `none` if the bytes are malformed. -/
def decode? (bytes : List UInt8) : Option Text :=
  (units? bytes).map fun units => (joinUnits units).flatMap Utf8.encode

end ModifiedUtf8

end Classwright
