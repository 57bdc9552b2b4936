/-!
# UTF-8

Bytes of a scalar value, and the split of an arbitrary byte string into the scalar values it
holds and the bytes that belong to none.  A byte that starts no complete, shortest encoding of a
scalar value stands alone, and reading goes on with the byte after it.
-/

namespace Classwright

namespace Utf8

/-- The bytes of a scalar value, one to four of them. -/
def encode (c : Char) : List UInt8 :=
  let n := c.toNat
  if n < 0x80 then
    [UInt8.ofNat n]
  else if n < 0x800 then
    [UInt8.ofNat (0xC0 + n / 0x40), UInt8.ofNat (0x80 + n % 0x40)]
  else if n < 0x10000 then
    [UInt8.ofNat (0xE0 + n / 0x1000), UInt8.ofNat (0x80 + n / 0x40 % 0x40),
      UInt8.ofNat (0x80 + n % 0x40)]
  else
    [UInt8.ofNat (0xF0 + n / 0x40000), UInt8.ofNat (0x80 + n / 0x1000 % 0x40),
      UInt8.ofNat (0x80 + n / 0x40 % 0x40), UInt8.ofNat (0x80 + n % 0x40)]

/-- What a byte string is made of when it is read as UTF-8. -/
inductive Piece where
  /-- A complete encoding of a scalar value. -/
  | scalar (c : Char)
  /-- A byte that is part of no such encoding. -/
  | stray (b : UInt8)
  deriving Repr, DecidableEq, Inhabited

/-- The six bits a continuation byte `10xxxxxx` carries. -/
def continuation? (b : UInt8) : Option Nat :=
  if 0x80 ≤ b.toNat ∧ b.toNat < 0xC0 then some (b.toNat - 0x80) else none

/-- The scalar value with number `n`, if there is one and `n` is not below `least`, the smallest
number that needs an encoding this long. -/
def scalar? (least n : Nat) : Option Char :=
  if least ≤ n ∧ n.isValidChar then some (Char.ofNat n) else none

/-- The scalar value whose encoding starts with `lead`, and how many bytes of `rest` belong to
it. -/
def first? (lead : UInt8) (rest : List UInt8) : Option (Char × Nat) :=
  let n := lead.toNat
  if n < 0x80 then
    some (Char.ofNat n, 0)
  else if n < 0xC0 then
    none
  else if n < 0xE0 then
    match rest with
    | a :: _ => do
      let x ← continuation? a
      let c ← scalar? 0x80 ((n - 0xC0) * 0x40 + x)
      return (c, 1)
    | _ => none
  else if n < 0xF0 then
    match rest with
    | a :: b :: _ => do
      let x ← continuation? a
      let y ← continuation? b
      let c ← scalar? 0x800 ((n - 0xE0) * 0x1000 + x * 0x40 + y)
      return (c, 2)
    | _ => none
  else if n < 0xF8 then
    match rest with
    | a :: b :: d :: _ => do
      let x ← continuation? a
      let y ← continuation? b
      let z ← continuation? d
      let c ← scalar? 0x10000 ((n - 0xF0) * 0x40000 + x * 0x1000 + y * 0x40 + z)
      return (c, 3)
    | _ => none
  else
    none

/-- Reads a byte string from left to right. -/
def pieces : List UInt8 → List Piece
  | [] => []
  | b :: rest =>
    match first? b rest with
    | some (c, more) => .scalar c :: pieces (rest.drop more)
    | none => .stray b :: pieces rest
termination_by bytes => bytes.length
decreasing_by all_goals simp only [List.length_cons, List.length_drop]; omega

/-- What a piece is shown as: a stray byte as the replacement character U+FFFD. -/
def Piece.shown : Piece → Char
  | .scalar c => c
  | .stray _ => Char.ofNat 0xFFFD

/-- The bytes a piece was read from. -/
def Piece.bytes : Piece → List UInt8
  | .scalar c => encode c
  | .stray b => [b]

end Utf8

end Classwright
