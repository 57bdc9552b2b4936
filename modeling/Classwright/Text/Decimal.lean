import Classwright.Source.Character

/-!
# Reading decimal numbers

An optional sign and at least one digit, and nothing else.
-/

namespace Classwright

/-- The number a row of digits stands for, if there is at least one and nothing else. -/
def digits? (t : Text) : Option Nat :=
  if !t.isEmpty && t.all Character.isDigit then some (decimalValue t) else none

/-- Whether a number fits a signed word of `bits` bits. -/
def fitsWord (bits : Nat) (n : Int) : Bool :=
  -((1 <<< (bits - 1) : Nat) : Int) ≤ n && n < (1 <<< (bits - 1) : Nat)

/-- The number a text stands for, if it fits a signed word of `bits` bits. -/
def readDecimal? (bits : Nat) (t : Text) : Option Int := do
  let n ←
    match t with
    | 0x2B :: digits => (digits? digits).map Int.ofNat
    | 0x2D :: digits => (digits? digits).map fun n => -(n : Int)
    | digits => (digits? digits).map Int.ofNat
  if fitsWord bits n then some n else none

end Classwright
