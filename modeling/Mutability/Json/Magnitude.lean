/-!
# The range of numbers

A number that is not an integer of 64 bits has to lie in the range of double-precision numbers.
What decides is the product of its leading digits, as far as they fit in 64 bits, and a power of
ten, each of the two rounded to double precision first. Close to the end of the range a number
can so fall on either side.
-/

namespace Mutability.Json

def digitValue (c : Char) : Nat := c.toNat - 48

/-- The number `significand · 10 ^ exponent`. -/
structure Magnitude where
  significand : Nat
  exponent : Int
  deriving DecidableEq, Repr

namespace Magnitude

/-- Appends the digits before the point. From the first that does not fit on, they only count. -/
def appendWhole (significand : Nat) : List Char → Magnitude
  | [] => ⟨significand, 0⟩
  | c :: rest =>
    let longer := significand * 10 + digitValue c
    if longer < UInt64.size then appendWhole longer rest else ⟨significand, (c :: rest).length⟩

/-- Appends the digits after the point. From the first that does not fit on, they are dropped. -/
def appendFraction (m : Magnitude) : List Char → Magnitude
  | [] => m
  | c :: rest =>
    let longer := m.significand * 10 + digitValue c
    if longer < UInt64.size then appendFraction ⟨longer, m.exponent - 1⟩ rest else m

def ofDigits (whole fraction : List Char) (exponent : Int) : Magnitude :=
  let m := appendFraction (appendWhole 0 whole) fraction
  ⟨m.significand, m.exponent + exponent⟩

/-- The nearest multiple of a unit, and of two equally near the even one. -/
def roundTo (unit n : Nat) : Nat :=
  let quotient := n / unit
  let rest := n % unit
  if 2 * rest < unit || (2 * rest = unit && quotient % 2 = 0) then quotient * unit
  else (quotient + 1) * unit

/-- The nearest number of 53 significant bits. -/
def roundDouble (n : Nat) : Nat := if n < 1 <<< 53 then n else roundTo (1 <<< (n.log2 - 52)) n

/-- The least product that is rounded beyond the greatest double-precision number. -/
def outOfRangeBound : Nat := 1 <<< 1024 - 1 <<< 970

/-- The greatest exponent of a power of ten in range. -/
def greatestPower : Nat := 308

def outOfRange (m : Magnitude) : Bool :=
  if m.significand = 0 || m.exponent < 0 then false
  else if m.exponent > greatestPower then true
  else outOfRangeBound ≤ roundDouble m.significand * roundDouble (Nat.pow 10 m.exponent.toNat)

end Magnitude

end Mutability.Json
