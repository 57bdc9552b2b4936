/-!
# Big-endian numbers
-/

namespace Classwright

namespace BigEndian

/-- The last two bytes of a number, the higher one first. -/
def two (n : Nat) : List UInt8 :=
  [UInt8.ofNat (n / 0x100), UInt8.ofNat n]

/-- The last four bytes of a number, the highest one first. -/
def four (n : Nat) : List UInt8 :=
  [UInt8.ofNat (n / 0x1000000), UInt8.ofNat (n / 0x10000), UInt8.ofNat (n / 0x100),
    UInt8.ofNat n]

/-- The number two bytes stand for. -/
def ofTwo (a b : UInt8) : Nat :=
  a.toNat * 0x100 + b.toNat

/-- The number four bytes stand for. -/
def ofFour (a b c d : UInt8) : Nat :=
  ((a.toNat * 0x100 + b.toNat) * 0x100 + c.toNat) * 0x100 + d.toNat

end BigEndian

/-- The number `n` read as a signed number of `bits` bits. -/
def signed (bits n : Nat) : Int :=
  if n < 1 <<< (bits - 1) then n else (n : Int) - (1 <<< bits : Nat)

end Classwright
