/-!
# Limits of the class-file format
-/

namespace Classwright

/-- The entries a constant pool can hold: its count, one more, fills sixteen bits. -/
def maxPoolEntries : Nat := 0xFFFE

/-- The bytes the code of a method can have. -/
def maxCodeLength : Nat := 0xFFFF

/-- Whether a number can be pushed from one byte. -/
def fitsByte (v : Int) : Bool :=
  -128 ≤ v && v ≤ 127

/-- Whether a number can be a branch distance. -/
def fitsBranch (v : Int) : Bool :=
  -32768 ≤ v && v ≤ 32767

/-- Whether a number is pushed from two bytes or fewer; others, -32768 among them, are loaded from
the pool. -/
def fitsShortPush (v : Int) : Bool :=
  -32767 ≤ v && v ≤ 32767

end Classwright
